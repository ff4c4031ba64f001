import Mathlib.Data.Set.Card

/-! Flooding of a graph. Whoever gets something passes it on to its neighbours, and whoever had
it before does not. -/
namespace Cxx

variable {ι : Type*} {edge : ι → ι → Prop} {before middle after : ι → Prop} {i j : ι}

/-- What a flood from `i` reaches: only those who lacked it pass it on. -/
inductive Floods (edge : ι → ι → Prop) (before : ι → Prop) (i : ι) : ι → Prop where
  | start : Floods edge before i i
  | pass {x y : ι} (prior : Floods edge before i x) (hEdge : edge x y) (hFresh : ¬ before y) :
      Floods edge before i y

/-- Nobody loses it, and whoever got it between `before` and `after` has passed it on. -/
structure PassedOn (edge : ι → ι → Prop) (before after : ι → Prop) : Prop where
  kept : ∀ x, before x → after x
  passed : ∀ x y, after x → ¬ before x → edge x y → after y

namespace PassedOn

theorem refl (edge : ι → ι → Prop) (before : ι → Prop) : PassedOn edge before before where
  kept _ h := h
  passed _ _ hAfter hBefore _ := absurd hAfter hBefore

theorem trans (hFirst : PassedOn edge before middle) (hSecond : PassedOn edge middle after) :
    PassedOn edge before after where
  kept x h := hSecond.kept x (hFirst.kept x h)
  passed x y hAfter hBefore hEdge := by
    by_cases hMiddle : middle x
    · exact hSecond.kept y (hFirst.passed x y hMiddle hBefore hEdge)
    · exact hSecond.passed x y hAfter hMiddle hEdge

/-- One more who has it, and has passed it on in the end. -/
theorem insert (hInsert : ∀ x, middle x ↔ x = i ∨ before x) (h : PassedOn edge middle after)
    (hPassed : ∀ y, edge i y → after y) : PassedOn edge before after where
  kept x hBefore := h.kept x ((hInsert x).mpr (.inr hBefore))
  passed x y hAfter hBefore hEdge := by
    by_cases hStart : x = i
    · exact hPassed y (hStart ▸ hEdge)
    · exact h.passed x y hAfter (fun hMiddle => ((hInsert x).mp hMiddle).elim hStart hBefore) hEdge

/-- Where `i` has passed it on, the flood from `i` has arrived. -/
theorem of_floods (h : PassedOn edge before after) (hStart : after i) (hPassed : ∀ y, edge i y → after y)
    (hFloods : Floods edge before i j) : after j := by
  have hHere : after j ∧ ∀ y, edge j y → after y := by
    induction hFloods with
    | start => exact ⟨hStart, hPassed⟩
    | pass _ hEdge hFresh ih =>
        have hArrived := ih.2 _ hEdge
        exact ⟨hArrived, fun y hNext => h.passed _ y hArrived hFresh hNext⟩
  exact hHere.1

end PassedOn

/-- How many lack it. -/
noncomputable def lacking (before : ι → Prop) : ℕ := {x | ¬ before x}.ncard

theorem lacking_le [Finite ι] (h : ∀ x, before x → after x) : lacking after ≤ lacking before :=
  Set.ncard_le_ncard fun x hAfter hBefore => hAfter (h x hBefore)

theorem lacking_lt [Finite ι] (hKept : ∀ x, before x → after x) (hBefore : ¬ before i) (hAfter : after i) :
    lacking after < lacking before :=
  Set.ncard_lt_ncard ⟨fun x hLacks hBefore => hLacks (hKept x hBefore), fun h => h hBefore hAfter⟩

end Cxx
