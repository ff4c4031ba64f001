import Mathlib.Data.List.Basic
import Mathlib.Data.List.Range
import Wwatp.Cxx.Outcome

/-! Logs whose entries are numbered one after another, the windows that cut
them by number, and the binary search that finds where a window starts. -/
namespace Cxx

variable {α : Type}

/-- `std::lower_bound`: the range from the first element not before the value.
The range has to be partitioned by the test. -/
def lowerBound (before : α → Bool) (l : List α) : Outcome (List α) :=
  if (l.dropWhile before).all (fun a => !before a) then .ok (l.dropWhile before)
  else throw (.undefined .unpartitioned)

variable {key : α → ℕ}

/-- The entries carry the numbers `first, first + 1, …`. -/
def NumberedFrom (key : α → ℕ) (first : ℕ) (l : List α) : Prop :=
  l.map key = List.range' first l.length

namespace NumberedFrom

variable {first : ℕ} {l : List α}

theorem cons_iff {a : α} :
    NumberedFrom key first (a :: l) ↔ key a = first ∧ NumberedFrom key (first + 1) l := by
  simp [NumberedFrom, List.range'_succ]

theorem append_singleton {a : α} (h : NumberedFrom key first l) (ha : key a = first + l.length) :
    NumberedFrom key first (l ++ [a]) := by
  rw [NumberedFrom] at h ⊢
  rw [List.map_append, h, List.length_append, List.range'_append_1.symm]
  simp [ha]

theorem drop (h : NumberedFrom key first l) (count : ℕ) :
    NumberedFrom key (first + count) (l.drop count) := by
  rw [NumberedFrom] at h ⊢
  rw [List.map_drop, h, List.drop_range', List.length_drop, mul_one]

theorem take (h : NumberedFrom key first l) (count : ℕ) :
    NumberedFrom key first (l.take count) := by
  rw [NumberedFrom] at h ⊢
  rw [List.map_take, h, List.length_take]
  rcases Nat.le_total count l.length with hLe | hLe
  · rw [List.take_range'_of_length_ge hLe, Nat.min_eq_left hLe]
  · rw [List.take_range'_of_length_le hLe, Nat.min_eq_right hLe]

/-- The numbers of the entries lie in the range that starts at the first one. -/
theorem key_mem (h : NumberedFrom key first l) {a : α} (ha : a ∈ l) :
    first ≤ key a ∧ key a < first + l.length := by
  have hMem : key a ∈ List.range' first l.length := h ▸ List.mem_map_of_mem ha
  simpa [List.mem_range'_1] using hMem

theorem key_getElem (h : NumberedFrom key first l) {i : ℕ} (hi : i < l.length) :
    key l[i] = first + i := by
  have hGet : (l.map key)[i]? = (List.range' first l.length)[i]? := by rw [h]
  simpa [hi] using hGet

theorem pairwise_lt (h : NumberedFrom key first l) : l.Pairwise (fun a b => key a < key b) := by
  have hRange : (l.map key).Pairwise (· < ·) := by
    rw [h]
    exact List.pairwise_lt_range'
  exact List.pairwise_map.mp hRange

/-- Dropping the entries with a smaller number drops as many as the numbers say. -/
theorem dropWhile_lt (h : NumberedFrom key first l) {bound : ℕ} (hFirst : first ≤ bound) :
    l.dropWhile (fun a => decide (key a < bound)) = l.drop (bound - first) := by
  induction l generalizing first with
  | nil => simp
  | cons a l ih =>
      obtain ⟨ha, hl⟩ := cons_iff.mp h
      rcases Nat.eq_or_lt_of_le hFirst with rfl | hLess
      · simp [ha]
      · rw [List.dropWhile_cons_of_pos (by simpa [ha] using hLess), ih hl hLess]
        obtain ⟨count, hCount⟩ := Nat.exists_eq_add_of_lt hLess
        simp [hCount, Nat.add_assoc, show first + (count + 1) - (first + 1) = count by omega]

/-- Searching a numbered log for a number it has reached finds the entries from
that number on. -/
theorem lowerBound_lt (h : NumberedFrom key first l) {bound : ℕ} (hFirst : first ≤ bound) :
    lowerBound (fun a => decide (key a < bound)) l = .ok (l.drop (bound - first)) := by
  rw [lowerBound, dropWhile_lt h hFirst, if_pos]
  rw [List.all_eq_true]
  intro a ha
  have hKey := (h.drop (bound - first)).key_mem ha
  simp
  omega

/-- A search for a number before the log finds the whole log. -/
theorem lowerBound_before (h : NumberedFrom key first l) {bound : ℕ} (hFirst : bound ≤ first) :
    lowerBound (fun a => decide (key a < bound)) l = .ok l := by
  have hNone : l.dropWhile (fun a => decide (key a < bound)) = l := by
    cases l with
    | nil => rfl
    | cons a l =>
        have hKey := h.key_mem List.mem_cons_self
        exact List.dropWhile_cons_of_neg (by simp; omega)
  rw [lowerBound, hNone, if_pos]
  rw [List.all_eq_true]
  intro a ha
  have hKey := h.key_mem ha
  simp
  omega

/-- The entries numbered after `low` and up to `high` are those of one segment. -/
theorem filter_between (h : NumberedFrom key first l) (low high : ℕ) :
    l.filter (fun a => decide (low < key a ∧ key a ≤ high)) =
      (l.take (high + 1 - first)).drop (low + 1 - first) := by
  induction l generalizing first with
  | nil => simp
  | cons a l ih =>
      obtain ⟨rfl, hl⟩ := cons_iff.mp h
      rw [List.filter_cons, ih hl]
      rcases Nat.lt_or_ge high (key a) with hHigh | hHigh
      · rw [if_neg (by simp; omega)]
        simp [show high + 1 - key a = 0 by omega, show high + 1 - (key a + 1) = 0 by omega]
      · rw [show high + 1 - key a = (high + 1 - (key a + 1)) + 1 by omega, List.take_succ_cons]
        rcases Nat.lt_or_ge low (key a) with hLow | hLow
        · rw [if_pos (by simp; omega)]
          simp [show low + 1 - key a = 0 by omega, show low + 1 - (key a + 1) = 0 by omega]
        · rw [if_neg (by simp; omega),
            show low + 1 - key a = (low + 1 - (key a + 1)) + 1 by omega, List.drop_succ_cons]

end NumberedFrom
end Cxx
