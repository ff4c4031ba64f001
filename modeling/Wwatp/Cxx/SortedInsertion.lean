import Wwatp.Cxx.NumberedLog

/-! Vectors kept sorted without duplicates: a binary search finds where an element is or belongs, and an insertion
there keeps them so. -/
namespace Cxx

variable {α : Type} {cmp : α → α → Ordering}

/-- Each element comes before the ones behind it. -/
def StrictlySorted (cmp : α → α → Ordering) (l : List α) : Prop := l.Pairwise fun first second => cmp first second = .lt

/-- The elements before a value, as `std::lower_bound` tests them. -/
def isBefore (cmp : α → α → Ordering) (a : α) (b : α) : Bool := decide (cmp b a = .lt)

theorem strictlySorted_singleton (a : α) : StrictlySorted cmp [a] := List.pairwise_singleton _ a

variable [Std.TransCmp cmp]

/-- Behind an element that is not before a value no other one is. -/
theorem not_isBefore_of_mem {a b : α} {l : List α} (hSorted : StrictlySorted cmp (b :: l)) (hFirst : isBefore cmp a b = false)
    {c : α} (hMem : c ∈ l) : isBefore cmp a c = false := by
  have hLess := (List.pairwise_cons.mp hSorted).1 c hMem
  rw [isBefore, decide_eq_false_iff_not] at hFirst ⊢
  exact fun hBefore => hFirst (Std.TransCmp.lt_trans hLess hBefore)

theorem lowerBound_of_sorted {l : List α} (hSorted : StrictlySorted cmp l) (a : α) :
    lowerBound (isBefore cmp a) l = .ok (l.dropWhile (isBefore cmp a)) := by
  rw [lowerBound, if_pos]
  induction l with
  | nil => rfl
  | cons b l ih =>
      cases hBefore : isBefore cmp a b with
      | true =>
          rw [List.dropWhile_cons_of_pos hBefore]
          exact ih (List.pairwise_cons.mp hSorted).2
      | false =>
          rw [List.dropWhile_cons_of_neg (by simp [hBefore]), List.all_eq_true]
          intro c hMem
          rcases List.mem_cons.mp hMem with rfl | hBehind
          · simp [hBefore]
          · simp [not_isBefore_of_mem hSorted hBefore hBehind]

/-- A value that is not where the search ends belongs there. -/
theorem strictlySorted_insert [Std.LawfulEqCmp cmp] {l : List α} (hSorted : StrictlySorted cmp l) {a : α}
    (hAbsent : (l.dropWhile (isBefore cmp a)).head? ≠ some a) :
    StrictlySorted cmp (l.takeWhile (isBefore cmp a) ++ a :: l.dropWhile (isBefore cmp a)) := by
  induction l with
  | nil => exact strictlySorted_singleton a
  | cons b l ih =>
      obtain ⟨hFirst, hRest⟩ := List.pairwise_cons.mp hSorted
      cases hBefore : isBefore cmp a b with
      | true =>
          have hLess : cmp b a = .lt := of_decide_eq_true hBefore
          rw [List.dropWhile_cons_of_pos hBefore] at hAbsent ⊢
          rw [List.takeWhile_cons_of_pos hBefore, List.cons_append]
          refine List.pairwise_cons.mpr ⟨fun c hMem => ?_, ih hRest hAbsent⟩
          rcases List.mem_append.mp hMem with hFront | hBack
          · exact hFirst c (List.takeWhile_subset _ hFront)
          · rcases List.mem_cons.mp hBack with rfl | hBehind
            · exact hLess
            · exact hFirst c (List.dropWhile_subset _ hBehind)
      | false =>
          have hNot : ¬isBefore cmp a b = true := by simp [hBefore]
          rw [List.dropWhile_cons_of_neg hNot] at hAbsent ⊢
          rw [List.takeWhile_cons_of_neg hNot, List.nil_append]
          have hGreater : cmp a b = .lt := by
            cases hCompare : cmp a b with
            | lt => rfl
            | eq => exact absurd (congrArg some (Std.LawfulEqCmp.eq_of_compare hCompare).symm) hAbsent
            | gt => exact absurd (decide_eq_true (Std.OrientedCmp.lt_of_gt hCompare)) hNot
          refine List.pairwise_cons.mpr ⟨fun c hMem => ?_, hSorted⟩
          rcases List.mem_cons.mp hMem with rfl | hBehind
          · exact hGreater
          · exact Std.TransCmp.lt_trans hGreater (hFirst c hBehind)

end Cxx
