import Mathlib.Order.WellFounded

/-! Loops: a state follows another one until there is none, and whatever descends at each step brings the loop to
its end. -/
namespace Cxx

variable {σ τ : Type*} {next : σ → Option σ}

/-- A run of a loop from a state, with the number of its steps, to a state without a next one. -/
inductive LoopRun (next : σ → Option σ) : σ → ℕ → σ → Prop
  | ends {s : σ} (hEnd : next s = none) : LoopRun next s 0 s
  | goes {s t u : σ} {n : ℕ} (hNext : next s = some t) (rest : LoopRun next t n u) : LoopRun next s (n + 1) u

/-- The loop comes to an end. -/
def Ends (next : σ → Option σ) (s : σ) : Prop := ∃ n u, LoopRun next s n u

/-- A loop whose states descend in a well-founded order comes to an end. -/
theorem ends_of_wellFounded {r : τ → τ → Prop} (hr : WellFounded r) (rank : σ → τ)
    (hDescends : ∀ s t, next s = some t → r (rank t) (rank s)) (s : σ) : Ends next s := by
  induction s using (InvImage.wf rank hr).induction with
  | _ s ih =>
      cases hNext : next s with
      | none => exact ⟨0, s, .ends hNext⟩
      | some t =>
          obtain ⟨n, u, hRun⟩ := ih t (hDescends s t hNext)
          exact ⟨n + 1, u, .goes hNext hRun⟩

/-- A number that gets smaller bounds the steps. -/
theorem exists_run_of_lt (rank : σ → ℕ) (hDescends : ∀ s t, next s = some t → rank t < rank s) (s : σ) :
    ∃ n u, n ≤ rank s ∧ LoopRun next s n u := by
  induction hRank : rank s using Nat.strong_induction_on generalizing s with
  | _ bound ih =>
      subst hRank
      cases hNext : next s with
      | none => exact ⟨0, s, Nat.zero_le _, .ends hNext⟩
      | some t =>
          have hLt := hDescends s t hNext
          obtain ⟨n, u, hBound, hRun⟩ := ih (rank t) hLt t rfl
          exact ⟨n + 1, u, by omega, .goes hNext hRun⟩

namespace LoopRun

variable {s t u : σ} {m n : ℕ}

/-- A loop has one end. -/
theorem unique (h : LoopRun next s m t) (hOther : LoopRun next s n u) : m = n ∧ t = u := by
  induction h generalizing n with
  | ends hEnd =>
      cases hOther with
      | ends => exact ⟨rfl, rfl⟩
      | goes hNext =>
          rw [hEnd] at hNext
          cases hNext
  | goes hNext _ ih =>
      cases hOther with
      | ends hEnd =>
          rw [hEnd] at hNext
          cases hNext
      | goes hNext' rest' =>
          obtain rfl := Option.some.inj (hNext.symm.trans hNext')
          obtain ⟨rfl, rfl⟩ := ih rest'
          exact ⟨rfl, rfl⟩

/-- What every step keeps holds at the end. -/
theorem invariant {P : σ → Prop} (hStep : ∀ s t, P s → next s = some t → P t) (h : LoopRun next s n t) (hStart : P s) :
    P t ∧ next t = none := by
  induction h with
  | ends hEnd => exact ⟨hStart, hEnd⟩
  | goes hNext _ ih => exact ih (hStep _ _ hStart hNext)

end LoopRun

end Cxx
