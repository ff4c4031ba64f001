import Mathlib.Data.List.Forall2

/-! Buffers whose length is known beforehand and which are filled from the front, one step after another. -/
namespace Cxx

variable {α β ε : Type*}

/-- A buffer, and the place from which it is filled. -/
structure Filling (α : Type*) where
  buffer : List α
  offset : ℕ

namespace Filling

/-- Items go to the offset, unless they do not fit. -/
def set (tooLong : ε) (items : List α) (b : Filling α) : Except ε (Filling α) :=
  if b.buffer.length < b.offset + items.length then throw tooLong
  else return { b with buffer := b.buffer.take b.offset ++ items ++ b.buffer.drop (b.offset + items.length) }

def advance (n : ℕ) (b : Filling α) : Filling α := { b with offset := b.offset + n }

end Filling

/-- A step puts some items at the front of what is blank. -/
def Fills (blank : α) (step : Filling α → Except ε (Filling α)) (items : List α) : Prop :=
  ∀ front n, step ⟨front ++ List.replicate (items.length + n) blank, front.length⟩ =
    .ok ⟨front ++ items ++ List.replicate n blank, front.length + items.length⟩

variable {blank : α} {step next : Filling α → Except ε (Filling α)} {items others : List α}

theorem fills_nothing : Fills blank (fun b => (.ok b : Except ε (Filling α))) [] := by
  intro front n
  simp

theorem Fills.bind (h : Fills blank step items) (hNext : Fills blank next others) :
    Fills blank (fun b => step b >>= next) (items ++ others) := by
  intro front n
  have hStep := h front (others.length + n)
  have hRest := hNext (front ++ items) n
  rw [List.length_append] at hRest
  show step _ >>= next = _
  rw [List.length_append, Nat.add_assoc, hStep]
  show next _ = _
  rw [hRest, List.append_assoc front, Nat.add_assoc]

/-- A step that goes on further than it has put items leaves blanks. -/
theorem fills_set (tooLong : ε) (items : List α) (blanks : ℕ) :
    Fills blank (fun b => do let b ← b.set tooLong items; return b.advance (items.length + blanks))
      (items ++ List.replicate blanks blank) := by
  intro front n
  have hSet : Filling.set tooLong items
      ⟨front ++ List.replicate ((items ++ List.replicate blanks blank).length + n) blank, front.length⟩ =
        .ok ⟨front ++ items ++ List.replicate (blanks + n) blank, front.length⟩ := by
    rw [Filling.set, if_neg (by simp only [List.length_append, List.length_replicate]; omega)]
    simp only [List.take_left, List.drop_append, List.drop_replicate, List.length_append, List.length_replicate]
    rw [List.drop_of_length_le (by omega), List.nil_append, show
      items.length + blanks + n - (front.length + items.length - front.length) = blanks + n by omega]
    rfl
  show Filling.set tooLong items _ >>= _ = _
  rw [hSet, List.replicate_add, List.length_append, List.length_replicate, ← List.append_assoc, ← List.append_assoc]
  rfl

theorem fills_set_exactly (tooLong : ε) (items : List α) :
    Fills blank (fun b => do let b ← b.set tooLong items; return b.advance items.length) items := by
  have h : Fills blank _ _ := fills_set tooLong items 0
  rwa [List.replicate_zero, List.append_nil] at h

/-- The steps of a loop put their items one after another. -/
theorem Fills.foldlM {step : Filling α → β → Except ε (Filling α)} {elements : List β} {pieces : List (List α)}
    (h : List.Forall₂ (fun element piece => Fills blank (fun b => step b element) piece) elements pieces) :
    Fills blank (fun b => elements.foldlM step b) pieces.flatten := by
  induction h with
  | nil => exact fills_nothing
  | cons hFirst _ ih => exact hFirst.bind ih

/-- A blank buffer of the right length is filled exactly. -/
theorem Fills.whole (h : Fills blank step items) :
    step ⟨List.replicate items.length blank, 0⟩ = .ok ⟨items, items.length⟩ := by
  have hWhole := h [] 0
  simpa using hWhole

/-- A loop that comes to its end has come through every step. -/
theorem exists_of_foldlM_eq_ok {σ : Type*} {step : σ → β → Except ε σ} {elements : List β} {start final : σ}
    (h : elements.foldlM step start = .ok final) {element : β} (hMem : element ∈ elements) :
    ∃ before after, step before element = .ok after := by
  induction elements generalizing start with
  | nil => cases hMem
  | cons first rest ih =>
      rw [List.foldlM_cons] at h
      cases hFirst : step start first with
      | error e =>
          rw [hFirst] at h
          cases h
      | ok next =>
          rw [hFirst] at h
          rcases List.mem_cons.mp hMem with rfl | hLater
          · exact ⟨start, next, hFirst⟩
          · exact ih h hLater

end Cxx
