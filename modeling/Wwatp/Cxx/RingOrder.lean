import Mathlib.Logic.Function.Iterate
import Mathlib.Tactic.Common

/-! Numbers that are counted around a ring, compared by the half of the ring they are apart. -/
namespace Cxx

/-- Of two numbers on a ring of `m` the first comes before the second: the second is at most half a
ring ahead, or it has wrapped. -/
def RingBefore (m first second : ℕ) : Prop :=
  if first < second then second - first ≤ m / 2 else m / 2 < first - second

section

variable {m first second : ℕ}

theorem ringBefore_of_lt (h : first < second) : RingBefore m first second ↔ second - first ≤ m / 2 := by
  simp [RingBefore, h]

theorem ringBefore_of_le (h : second ≤ first) : RingBefore m first second ↔ m / 2 < first - second := by
  simp [RingBefore, Nat.not_lt.mpr h]

theorem ringBefore_irrefl : ¬RingBefore m first first := by
  simp [ringBefore_of_le]

/-- Of two different numbers exactly one comes before the other. -/
theorem ringBefore_swap (h : first ≠ second) : RingBefore m second first ↔ ¬RingBefore m first second := by
  rcases Nat.lt_or_ge first second with hLess | hMore
  · rw [ringBefore_of_lt hLess, ringBefore_of_le (Nat.le_of_lt hLess), Nat.not_le]
  · have hLess : second < first := by omega
    rw [ringBefore_of_lt hLess, ringBefore_of_le hMore, Nat.not_lt]

/-- Counting on one by one. -/
theorem iterate_succ_mod (hFirst : first < m) (k : ℕ) : (fun n => (n + 1) % m)^[k] first = (first + k) % m := by
  induction k with
  | zero => simp [Nat.mod_eq_of_lt hFirst]
  | succ k ih => rw [Function.iterate_succ_apply', ih, Nat.mod_add_mod, Nat.add_assoc]

/-- A number that is counted on by less than half a ring comes after the old one, wrapped or not. -/
theorem ringBefore_advance {k : ℕ} (hFirst : first < m) (hPos : 0 < k) (hHalf : 2 * k < m) :
    RingBefore m first ((first + k) % m) := by
  rcases Nat.lt_or_ge (first + k) m with hInside | hWrapped
  · rw [Nat.mod_eq_of_lt hInside, ringBefore_of_lt (by omega)]
    omega
  · have hMod : (first + k) % m = first + k - m := by
      rw [Nat.mod_eq_sub_mod hWrapped, Nat.mod_eq_of_lt (by omega)]
    rw [hMod, ringBefore_of_le (by omega)]
    omega

end

end Cxx
