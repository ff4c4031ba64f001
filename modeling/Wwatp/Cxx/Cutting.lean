import Mathlib

/-! Cutting a range out of a list of pieces. The loop drops the pieces in front of the range, shortens the
first and the last one it reaches, and erases the front of what it has kept when it meets an empty piece. -/
namespace Cxx

variable {α β : Type*}

/-- The loop over the pieces: `sub a start length` is a part of a piece. -/
def cut (size : α → ℕ) (sub : α → ℕ → ℕ → α) : List α → List α → ℕ → ℕ → List α
  | done, [], _, _ => done
  | done, a :: todo, start, length =>
      if start + length ≤ size a then done ++ [sub a start length]
      else if size a ≤ start then cut size sub (done ++ [a]).tail todo (start - size a) length
      else cut size sub (done ++ [sub a start (size a - start)]) todo 0 (length - (size a - start))

/-- The size of some pieces. -/
def totalSize (size : α → ℕ) (pieces : List α) : ℕ := (pieces.map size).sum

section

variable {size : α → ℕ} {sub : α → ℕ → ℕ → α}

@[simp] theorem totalSize_nil : totalSize size [] = 0 := rfl

@[simp] theorem totalSize_cons (a : α) (pieces : List α) :
    totalSize size (a :: pieces) = size a + totalSize size pieces := rfl

@[simp] theorem totalSize_append (front back : List α) :
    totalSize size (front ++ back) = totalSize size front + totalSize size back := by
  simp [totalSize]

/-- A piece is behind those before it. -/
theorem getElem?_of_split {pieces front back : List α} {a : α} (h : pieces = front ++ a :: back) :
    pieces[front.length]? = some a := by
  rw [h, List.getElem?_append_right (Nat.le_refl _), Nat.sub_self]
  rfl

/-- A size that is not zero ends in one piece. -/
theorem split_unique {front back front' back' : List α} {a a' : α} {o o' : ℕ} (h : front ++ a :: back = front' ++ a' :: back')
    (hPos : 0 < o) (ho : o ≤ size a) (hPos' : 0 < o') (ho' : o' ≤ size a')
    (hSame : totalSize size front + o = totalSize size front' + o') : front = front' ∧ a = a' := by
  induction front generalizing front' with
  | nil =>
      cases front' with
      | nil => exact ⟨rfl, (List.cons.inj h).1⟩
      | cons b front' =>
          obtain rfl := (List.cons.inj h).1
          rw [totalSize_nil, totalSize_cons] at hSame
          omega
  | cons b front ih =>
      cases front' with
      | nil =>
          obtain rfl := (List.cons.inj h).1
          rw [totalSize_nil, totalSize_cons] at hSame
          omega
      | cons b' front' =>
          obtain ⟨rfl, hRest⟩ := List.cons.inj h
          rw [totalSize_cons, totalSize_cons] at hSame
          obtain ⟨rfl, rfl⟩ := ih hRest (by omega)
          exact ⟨rfl, rfl⟩

/-- Cutting commutes with a map that keeps sizes and parts. -/
theorem map_cut {size' : β → ℕ} {sub' : β → ℕ → ℕ → β} {f : α → β} (hSize : ∀ a, size' (f a) = size a)
    (hSub : ∀ a start length, f (sub a start length) = sub' (f a) start length) (done todo : List α) (start length : ℕ) :
    (cut size sub done todo start length).map f = cut size' sub' (done.map f) (todo.map f) start length := by
  induction todo generalizing done start length with
  | nil => rfl
  | cons a todo ih =>
      rw [List.map_cons, cut, cut, hSize]
      split_ifs
      · simp [hSub]
      · simp [ih, List.map_tail]
      · simp [ih, hSub]

/-- What all pieces and their parts have, the pieces that are cut have. -/
theorem forall_mem_cut {P : α → Prop} (hSub : ∀ a start length, P a → P (sub a start length)) {done todo : List α}
    (hDone : ∀ a ∈ done, P a) (hTodo : ∀ a ∈ todo, P a) (start length : ℕ) : ∀ a ∈ cut size sub done todo start length, P a := by
  induction todo generalizing done start length with
  | nil => exact hDone
  | cons a todo ih =>
      obtain ⟨ha, hRest⟩ := List.forall_mem_cons.mp hTodo
      rw [cut]
      split_ifs
      · exact List.forall_mem_append.mpr ⟨hDone, List.forall_mem_singleton.mpr (hSub _ _ _ ha)⟩
      · refine ih (fun b hb => ?_) hRest _ _
        have hKept := List.mem_of_mem_tail hb
        exact List.forall_mem_append.mpr ⟨hDone, List.forall_mem_singleton.mpr ha⟩ b hKept
      · exact ih (List.forall_mem_append.mpr ⟨hDone, List.forall_mem_singleton.mpr (hSub _ _ _ ha)⟩) hRest _ _

section Whole

variable (hSub : ∀ a, sub a 0 (size a) = a) {front back pieces : List α}

include hSub

/-- The pieces at the front, none of which is empty. -/
theorem cut_front (done : List α) (hFront : ∀ a ∈ front, size a ≠ 0) (hNe : front ≠ []) :
    cut size sub done (front ++ back) 0 (totalSize size front) = done ++ front := by
  induction front generalizing done with
  | nil => exact absurd rfl hNe
  | cons a front ih =>
      obtain ⟨ha, hRest⟩ := List.forall_mem_cons.mp hFront
      rw [List.cons_append, cut, totalSize_cons, Nat.zero_add, Nat.sub_zero, hSub, Nat.add_sub_cancel_left]
      by_cases hLast : front = []
      · subst hLast
        rw [totalSize_nil, Nat.add_zero, if_pos (Nat.le_refl _), hSub]
      · obtain ⟨b, rest, rfl⟩ := List.exists_cons_of_ne_nil hLast
        have hb := hRest b List.mem_cons_self
        rw [totalSize_cons, if_neg (by omega), if_neg (by omega), ← totalSize_cons, ih (done ++ [a]) hRest hLast,
          List.append_assoc, List.singleton_append]

theorem cut_all (done : List α) (hPieces : ∀ a ∈ pieces, size a ≠ 0) (hNe : pieces ≠ []) :
    cut size sub done pieces 0 (totalSize size pieces) = done ++ pieces := by
  have hFront : cut size sub done (pieces ++ []) 0 (totalSize size pieces) = done ++ pieces := cut_front hSub done hPieces hNe
  rwa [List.append_nil] at hFront

/-- The pieces at the back. -/
theorem cut_back (hFront : ∀ a ∈ front, size a ≠ 0) (hBack : ∀ a ∈ back, size a ≠ 0) (hNe : back ≠ []) :
    cut size sub [] (front ++ back) (totalSize size front) (totalSize size back) = back := by
  induction front with
  | nil => exact cut_all hSub [] hBack hNe
  | cons a front ih =>
      obtain ⟨-, hRest⟩ := List.forall_mem_cons.mp hFront
      obtain ⟨b, rest, rfl⟩ := List.exists_cons_of_ne_nil hNe
      have hb := hBack b List.mem_cons_self
      have hPos : 0 < totalSize size (b :: rest) := by
        rw [totalSize_cons]
        omega
      rw [List.cons_append, cut, totalSize_cons a, if_neg (by omega), if_pos (by omega), List.nil_append, List.tail_cons,
        Nat.add_sub_cancel_left]
      exact ih hRest

end Whole

section Nothing

variable (hSize : ∀ a start, start ≤ size a → size (sub a start 0) = 0) {pieces : List α}

include hSize

/-- Behind the last piece there is nothing. -/
theorem cut_end (hPieces : ∀ a ∈ pieces, size a ≠ 0) : ∀ a ∈ cut size sub [] pieces (totalSize size pieces) 0, size a = 0 := by
  induction pieces with
  | nil => simp [cut]
  | cons a pieces ih =>
      obtain ⟨ha, hRest⟩ := List.forall_mem_cons.mp hPieces
      rw [cut, totalSize_cons, Nat.add_zero]
      by_cases hLast : pieces = []
      · subst hLast
        rw [totalSize_nil, Nat.add_zero, if_pos (Nat.le_refl _)]
        simpa using hSize a (size a) (Nat.le_refl _)
      · obtain ⟨b, rest, rfl⟩ := List.exists_cons_of_ne_nil hLast
        have hb := hRest b List.mem_cons_self
        have hPos : 0 < totalSize size (b :: rest) := by
          rw [totalSize_cons]
          omega
        rw [if_neg (by omega), if_pos (by omega), List.nil_append, List.tail_cons, Nat.add_sub_cancel_left]
        exact ih hRest

theorem cut_nothing : ∀ a ∈ cut size sub [] pieces 0 0, size a = 0 := by
  cases pieces with
  | nil => simp [cut]
  | cons a rest =>
      rw [cut, if_pos (Nat.zero_le _)]
      simpa using hSize a 0 (Nat.zero_le _)

end Nothing

section Nonempty

variable (hSub : ∀ a, sub a 0 (size a) = a) (hSize : ∀ a start, start ≤ size a → size (sub a start 0) = 0)
  {front back pieces : List α}

/-- The pieces that are not empty. -/
def nonemptyPieces (size : α → ℕ) (pieces : List α) : List α := pieces.filter fun a => size a ≠ 0

theorem nonemptyPieces_of_nonempty (h : ∀ a ∈ pieces, size a ≠ 0) : nonemptyPieces size pieces = pieces :=
  List.filter_eq_self.mpr fun a ha => decide_eq_true (h a ha)

theorem nonemptyPieces_of_empty (h : ∀ a ∈ pieces, size a = 0) : nonemptyPieces size pieces = [] :=
  List.filter_eq_nil_iff.mpr fun a ha => by simp [h a ha]

/-- A map that keeps sizes keeps which pieces are empty. -/
theorem nonemptyPieces_map {f : α → α} (hSize : ∀ a, size (f a) = size a) (pieces : List α) :
    nonemptyPieces size (pieces.map f) = (nonemptyPieces size pieces).map f := by
  rw [nonemptyPieces, nonemptyPieces, List.filter_map]
  congr 1
  apply List.filter_congr
  intro a _
  simp only [Function.comp_apply, hSize]

theorem totalSize_nonemptyPieces (pieces : List α) : totalSize size (nonemptyPieces size pieces) = totalSize size pieces := by
  induction pieces with
  | nil => rfl
  | cons a pieces ih =>
      rw [nonemptyPieces, List.filter_cons, totalSize_cons, ← ih]
      by_cases ha : size a = 0
      · simp [ha, nonemptyPieces]
      · simp [ha, nonemptyPieces]

include hSub hSize

/-- Between two pieces the list is cut in two, up to empty pieces. -/
theorem nonemptyPieces_cut_front (h : ∀ a ∈ front ++ back, size a ≠ 0) :
    nonemptyPieces size (cut size sub [] (front ++ back) 0 (totalSize size front)) = front := by
  have hFront := (List.forall_mem_append.mp h).1
  by_cases hNe : front = []
  · subst hNe
    exact nonemptyPieces_of_empty (cut_nothing hSize)
  · rw [cut_front hSub [] hFront hNe, List.nil_append, nonemptyPieces_of_nonempty hFront]

theorem nonemptyPieces_cut_back (h : ∀ a ∈ front ++ back, size a ≠ 0) :
    nonemptyPieces size (cut size sub [] (front ++ back) (totalSize size front) (totalSize size back)) = back := by
  obtain ⟨hFront, hBack⟩ := List.forall_mem_append.mp h
  by_cases hNe : back = []
  · subst hNe
    rw [List.append_nil]
    exact nonemptyPieces_of_empty (cut_end hSize hFront)
  · rw [cut_back hSub hFront hBack hNe, nonemptyPieces_of_nonempty hBack]

end Nonempty

section Rest

variable (hSub : ∀ a, sub a 0 (size a) = a) {pieces : List α}

include hSub

end Rest

section Whole

variable {pieces : List α} {offset length : ℕ}

end Whole

end

end Cxx
