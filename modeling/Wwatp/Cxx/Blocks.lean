import Mathlib

/-! Cutting a list into consecutive blocks of one size, the last of which may
be shorter. Loops that fill fixed-size buffers one after another produce them. -/
namespace List

variable {α : Type}

/-- Blocks of `n` elements each; at most `fuel` of them. -/
def blocksFuel (n : Nat) : Nat → List α → List (List α)
  | 0, _ => []
  | _ + 1, [] => []
  | fuel + 1, a :: rest => (a :: rest).take n :: blocksFuel n fuel ((a :: rest).drop n)

/-- Cut a list into blocks of `n` elements. -/
def blocks (n : Nat) (l : List α) : List (List α) := blocksFuel n l.length l

theorem blocksFuel_of_le {n : Nat} (hn : 0 < n) (l : List α) {fuel more : Nat}
    (h : l.length ≤ fuel) (hMore : l.length ≤ more) :
    blocksFuel n fuel l = blocksFuel n more l := by
  induction fuel generalizing l more with
  | zero =>
      have hNil : l = [] := by simpa using h
      subst hNil
      cases more <;> rfl
  | succ fuel ih =>
      cases l with
      | nil => cases more <;> rfl
      | cons a rest =>
          cases more with
          | zero => simp at hMore
          | succ more =>
              simp only [length_cons, Nat.add_le_add_iff_right] at h hMore
              have hShort : ((a :: rest).drop n).length ≤ rest.length := by
                simp only [length_drop, length_cons]
                omega
              rw [blocksFuel, blocksFuel, ih _ (hShort.trans h) (hShort.trans hMore)]

@[simp] theorem blocks_nil (n : Nat) : blocks n ([] : List α) = [] := rfl

/-- The loop equation: one full block, then the blocks of what is left. -/
theorem blocks_of_ne_nil {n : Nat} (hn : 0 < n) {l : List α} (h : l ≠ []) :
    blocks n l = l.take n :: blocks n (l.drop n) := by
  cases l with
  | nil => exact absurd rfl h
  | cons a rest =>
      rw [blocks, length_cons, blocksFuel, blocks]
      congr 1
      apply blocksFuel_of_le hn _ _ (Nat.le_refl _)
      simp only [length_drop, length_cons]
      omega

/-- Induction along the loop. -/
theorem blocks_induction {n : Nat} (hn : 0 < n) {motive : List α → Prop}
    (nil : motive []) (step : ∀ l, l ≠ [] → motive (l.drop n) → motive l) (l : List α) :
    motive l := by
  induction hLen : l.length using Nat.strong_induction_on generalizing l with
  | _ k ih =>
      by_cases h : l = []
      · exact h ▸ nil
      · apply step l h
        have hPos : 0 < l.length := length_pos_of_ne_nil h
        exact ih (l.drop n).length (by rw [length_drop]; omega) _ rfl

@[simp] theorem blocks_flatten {n : Nat} (hn : 0 < n) (l : List α) : (blocks n l).flatten = l := by
  induction l using blocks_induction hn with
  | nil => rfl
  | step l h ih => rw [blocks_of_ne_nil hn h, flatten_cons, ih, take_append_drop]

/-- The number of blocks is the rounded-up quotient. -/
theorem blocks_length {n : Nat} (hn : 0 < n) (l : List α) :
    (blocks n l).length = (l.length + n - 1) / n := by
  induction l using blocks_induction hn with
  | nil =>
      rw [blocks_nil]
      simp only [length_nil, Nat.zero_add]
      exact (Nat.div_eq_of_lt (by omega)).symm
  | step l h ih =>
      have hPos : 0 < l.length := length_pos_of_ne_nil h
      rw [blocks_of_ne_nil hn h, length_cons, ih, length_drop]
      by_cases hLe : l.length ≤ n
      · rw [Nat.sub_eq_zero_of_le hLe, Nat.zero_add, Nat.div_eq_of_lt (by omega)]
        exact (Nat.div_eq_of_lt_le (by omega) (by omega)).symm
      · have hSplit : l.length + n - 1 = (l.length - n + n - 1) + n := by omega
        rw [hSplit, Nat.add_div_right _ hn]

/-- No block is empty and none is longer than the block size. -/
theorem length_of_mem_blocks {n : Nat} (hn : 0 < n) {l b : List α} (h : b ∈ blocks n l) :
    0 < b.length ∧ b.length ≤ n := by
  induction l using blocks_induction hn with
  | nil => simp at h
  | step l hl ih =>
      rw [blocks_of_ne_nil hn hl, mem_cons] at h
      rcases h with rfl | h
      · have hPos : 0 < l.length := length_pos_of_ne_nil hl
        simp only [length_take]
        omega
      · exact ih h

/-- The last block holds what the full blocks before it leave over. -/
theorem getLast?_blocks {n : Nat} (hn : 0 < n) {l : List α} (h : l ≠ []) :
    (blocks n l).getLast? = some (l.drop (n * ((l.length - 1) / n))) := by
  induction l using blocks_induction hn with
  | nil => exact absurd rfl h
  | step l hl ih =>
      have hPos : 0 < l.length := length_pos_of_ne_nil hl
      rw [blocks_of_ne_nil hn hl]
      by_cases hRest : l.drop n = []
      · have hLe : l.length ≤ n := by simpa using hRest
        rw [hRest, blocks_nil, Nat.div_eq_of_lt (by omega)]
        simp [take_of_length_le hLe]
      · have hLt : n < l.length := by simpa using hRest
        have hMore : blocks n (l.drop n) ≠ [] := by
          rw [blocks_of_ne_nil hn hRest]
          exact cons_ne_nil _ _
        rw [getLast?_cons_of_ne_nil hMore, ih hRest, drop_drop, length_drop]
        have hQuot : (l.length - 1) / n = (l.length - n - 1) / n + 1 := by
          rw [← Nat.add_div_right _ hn]
          congr 1
          omega
        rw [hQuot, Nat.mul_add, Nat.mul_one, Nat.add_comm]

/-- The first blocks hold the front of the list. -/
theorem flatten_take_blocks {n : Nat} (hn : 0 < n) (l : List α) (count : Nat) :
    ((blocks n l).take count).flatten = l.take (n * count) := by
  induction l using blocks_induction hn generalizing count with
  | nil => simp
  | step l h ih =>
      cases count with
      | zero => simp
      | succ count =>
          rw [blocks_of_ne_nil hn h, take_succ_cons, flatten_cons, ih, Nat.mul_succ,
            Nat.add_comm (n * count), take_add]

end List
