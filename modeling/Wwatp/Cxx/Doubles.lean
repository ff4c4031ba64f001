import Mathlib.Data.Int.Log
import Mathlib.Data.Rat.Floor

/-! Doubles: rational numbers that are rounded to the nearest double, with the infinities and a value that is no
number. -/
namespace Cxx

/-- The integer nearest to a number; of two that are as near, the even one. -/
def roundHalfEven (x : ℚ) : ℤ :=
  let rest := x - ⌊x⌋
  if 1 / 2 < rest ∨ (rest = 1 / 2 ∧ ⌊x⌋ % 2 = 1) then ⌊x⌋ + 1 else ⌊x⌋

/-- How far the doubles around a number are apart. -/
def spacing (x : ℚ) : ℚ := 2 ^ max (Int.log 2 |x| - 52) (-1074)

/-- The double nearest to a number, as large as it may be. -/
def nearest (x : ℚ) : ℚ := roundHalfEven (x / spacing x) * spacing x

section Rounding

variable {x : ℚ}

theorem floor_le_roundHalfEven (x : ℚ) : ⌊x⌋ ≤ roundHalfEven x := by
  simp only [roundHalfEven]
  split <;> omega

theorem roundHalfEven_intCast (n : ℤ) : roundHalfEven n = n := by
  simp [roundHalfEven]

theorem spacing_pos (x : ℚ) : 0 < spacing x := zpow_pos (by norm_num) _

theorem nearest_nonpos (h : x ≤ 0) : nearest x ≤ 0 := by
  have hQuotient : x / spacing x ≤ 0 := div_nonpos_of_nonpos_of_nonneg h (spacing_pos x).le
  have hRounded : roundHalfEven (x / spacing x) ≤ 0 := by
    have hFloor : ⌊x / spacing x⌋ ≤ 0 := Int.floor_nonpos hQuotient
    rcases hFloor.lt_or_eq with hLess | hZero
    · simp only [roundHalfEven]
      split <;> omega
    · have hNumber : x / spacing x = (0 : ℤ) := by
        rw [← hZero]
        exact le_antisymm (by rw [hZero]; exact_mod_cast hQuotient) (Int.floor_le _)
      rw [hNumber, roundHalfEven_intCast]
  have hCast : (roundHalfEven (x / spacing x) : ℚ) ≤ 0 := by exact_mod_cast hRounded
  exact mul_nonpos_of_nonpos_of_nonneg hCast (spacing_pos x).le

/-- A multiple of the spacing is a double. -/
theorem nearest_of_multiple {k : ℤ} (h : x = k * spacing x) : nearest x = x := by
  have hQuotient : x / spacing x = k := by
    rw [div_eq_iff (spacing_pos x).ne']
    exact h
  rw [nearest, hQuotient, roundHalfEven_intCast]
  exact h.symm

/-- What a number has reached of the multiples of its spacing it keeps. -/
theorem le_nearest_of_multiple {k : ℤ} (h : k * spacing x ≤ x) : k * spacing x ≤ nearest x := by
  have hBelow : k ≤ ⌊x / spacing x⌋ := by
    rw [Int.le_floor, le_div_iff₀ (spacing_pos x)]
    exact h
  have hRounded : (k : ℚ) ≤ roundHalfEven (x / spacing x) := by
    exact_mod_cast hBelow.trans (floor_le_roundHalfEven _)
  exact mul_le_mul_of_nonneg_right hRounded (spacing_pos x).le

/-- A whole number is a multiple of every spacing up to one. -/
theorem exists_multiple (n : ℕ) (h : Int.log 2 |x| ≤ 52) : ∃ k : ℤ, (n : ℚ) = k * spacing x := by
  obtain ⟨e, he⟩ : ∃ e : ℕ, max (Int.log 2 |x| - 52) (-1074) = -(e : ℤ) :=
    ⟨(-max (Int.log 2 |x| - 52) (-1074)).toNat, by omega⟩
  refine ⟨n * 2 ^ e, ?_⟩
  rw [spacing, he, zpow_neg, zpow_natCast]
  push_cast
  field_simp

/-- Rounding does not go below a whole number that doubles have. -/
theorem natCast_le_nearest {n : ℕ} (hn : n ≤ 2 ^ 53) (h : (n : ℚ) ≤ x) : (n : ℚ) ≤ nearest x := by
  by_cases hLog : Int.log 2 |x| ≤ 52
  · obtain ⟨k, hk⟩ := exists_multiple (x := x) n hLog
    rw [hk] at h ⊢
    exact le_nearest_of_multiple h
  · -- the power of two below a larger number is a multiple of the spacing
    have hNonneg : 0 ≤ x := (Nat.cast_nonneg n).trans h
    have hPos : 0 < x := by
      rcases hNonneg.lt_or_eq with hPos | rfl
      · exact hPos
      · simp at hLog
    rw [abs_of_pos hPos] at hLog
    have hPower : (2 : ℚ) ^ Int.log 2 x ≤ x := by exact_mod_cast Int.zpow_log_le_self (b := 2) (by norm_num) hPos
    have hSpacing : ((2 ^ 52 : ℤ) : ℚ) * spacing x = 2 ^ Int.log 2 x := by
      have hMax : max (Int.log 2 x - 52) (-1074) = Int.log 2 x - 52 := max_eq_left (by omega)
      have hTwo : (2 : ℚ) ≠ 0 := by norm_num
      rw [spacing, abs_of_pos hPos, hMax, zpow_sub₀ hTwo]
      norm_num
      field_simp
    have hLarge : (2 : ℚ) ^ (53 : ℤ) ≤ 2 ^ Int.log 2 x := zpow_le_zpow_right₀ (by norm_num) (by omega)
    have hBelow : (n : ℚ) ≤ 2 ^ (53 : ℤ) := by exact_mod_cast hn
    have hKept := le_nearest_of_multiple (k := 2 ^ 52) (hSpacing ▸ hPower)
    rw [hSpacing] at hKept
    exact hBelow.trans (hLarge.trans hKept)

/-- The doubles have the whole numbers up to 2⁵³. -/
theorem nearest_natCast {n : ℕ} (hn : n ≤ 2 ^ 53) : nearest n = n := by
  rcases hn.lt_or_eq with hLess | rfl
  · rcases Nat.eq_zero_or_pos n with rfl | hPos
    · exact nearest_of_multiple (k := 0) (by simp)
    · have hLog : Int.log 2 |(n : ℚ)| ≤ 52 := by
        have hBound := (Nat.log_lt_iff_lt_pow (by norm_num) hPos.ne').mpr hLess
        rw [Nat.abs_cast, Int.log_natCast]
        omega
      obtain ⟨k, hk⟩ := exists_multiple n hLog
      exact nearest_of_multiple hk
  · refine nearest_of_multiple (k := 2 ^ 52) ?_
    have hLog : Int.log 2 |((2 ^ 53 : ℕ) : ℚ)| = 53 := by
      rw [Nat.abs_cast, Int.log_natCast, Nat.log_pow (by norm_num)]
      rfl
    rw [spacing, hLog]
    norm_num

end Rounding

/-- A double. -/
inductive Double
  | nan
  | infinite (negative : Bool)
  | finite (value : ℚ)
  deriving DecidableEq

namespace Double

/-- The double nearest to a number, or an infinity. -/
def ofRat (x : ℚ) : Double :=
  if 2 ^ 1024 ≤ |nearest x| then .infinite (decide (x < 0)) else .finite (nearest x)

def neg : Double → Double
  | .nan => .nan
  | .infinite negative => .infinite !negative
  | .finite x => .finite (-x)

def add : Double → Double → Double
  | .finite x, .finite y => ofRat (x + y)
  | .finite _, .infinite negative => .infinite negative
  | .infinite negative, .finite _ => .infinite negative
  | .infinite negative, .infinite other => if negative = other then .infinite negative else .nan
  | _, _ => .nan

def sub (x y : Double) : Double := x.add y.neg

def lt : Double → Double → Bool
  | .finite x, .finite y => x < y
  | .finite _, .infinite negative => !negative
  | .infinite negative, .finite _ => negative
  | .infinite negative, .infinite other => negative && !other
  | _, _ => false

def le : Double → Double → Bool
  | .nan, _ => false
  | _, .nan => false
  | x, y => !y.lt x

/-- `Math.max` of two numbers. -/
def max (x y : Double) : Double :=
  if x = .nan ∨ y = .nan then .nan else if x.lt y then y else x

/-- `Math.min` of two numbers. -/
def min (x y : Double) : Double :=
  if x = .nan ∨ y = .nan then .nan else if y.lt x then y else x

/-- The place in an array of a length that an argument of `slice` means: whole, from the end if negative. -/
def toIndex (length : ℕ) : Double → ℕ
  | .nan => 0
  | .infinite negative => if negative then 0 else length
  | .finite x => if x < 0 then (length + ⌈x⌉).toNat else Min.min ⌊x⌋₊ length

section Order

variable {n length : ℕ} {x : ℚ} {y : Double}

@[simp] theorem finite_le_finite (x y : ℚ) : (finite x).le (finite y) = decide (x ≤ y) := by
  rw [Bool.eq_iff_iff]
  simp [le, lt]

@[simp] theorem finite_le_infinite (x : ℚ) (negative : Bool) : (finite x).le (.infinite negative) = !negative := rfl

@[simp] theorem finite_le_nan (x : ℚ) : (finite x).le .nan = false := rfl

@[simp] theorem finite_lt_finite (x y : ℚ) : (finite x).lt (finite y) = decide (x < y) := rfl

@[simp] theorem infinite_lt_finite (negative : Bool) (y : ℚ) : (infinite negative).lt (finite y) = negative := rfl

@[simp] theorem finite_lt_infinite (x : ℚ) (negative : Bool) : (finite x).lt (.infinite negative) = !negative := rfl

theorem not_lt_of_le {x : Double} (h : x.le y = true) : y.lt x = false := by
  cases x <;> cases y <;> simp_all [le]

theorem le_of_not_lt {x z : Double} (hNumber : z.le y = true) (hx : x ≠ .nan) (h : ¬y.lt x = true) : x.le y = true := by
  cases x <;> cases y <;> cases z <;> simp_all [le]

/-- What a number has reached of the whole numbers that doubles have it keeps. -/
theorem natCast_le_ofRat (hn : n ≤ 2 ^ 53) (h : (n : ℚ) ≤ x) : (finite n).le (ofRat x) = true := by
  have hNonneg : ¬x < 0 := not_lt.mpr ((Nat.cast_nonneg n).trans h)
  rw [ofRat]
  split_ifs
  · simp [hNonneg]
  · simpa using natCast_le_nearest hn h

theorem ofRat_natCast (hn : n ≤ 2 ^ 53) : ofRat n = finite n := by
  have hSmall : ¬(2 : ℚ) ^ 1024 ≤ n := by
    have hBound : (n : ℚ) ≤ 2 ^ 53 := by exact_mod_cast hn
    have hPowers : (2 : ℚ) ^ 53 < 2 ^ 1024 := pow_lt_pow_right₀ (by norm_num) (by norm_num)
    exact not_le.mpr (hBound.trans_lt hPowers)
  rw [ofRat, nearest_natCast hn, Nat.abs_cast, if_neg hSmall]

/-- A sum reaches the whole numbers up to the sum of those that its parts reach. -/
theorem le_add {m c : ℕ} {x : Double} (hx : (finite n).le x = true) (hy : (finite m).le y = true) (hc : c ≤ n + m)
    (hBound : c ≤ 2 ^ 53) : (finite c).le (x.add y) = true := by
  cases x with
  | nan => cases hx
  | infinite negative =>
      obtain rfl : negative = false := by simpa using hx
      cases y with
      | nan => cases hy
      | infinite other =>
          obtain rfl : other = false := by simpa using hy
          rfl
      | finite _ => rfl
  | finite o =>
      cases y with
      | nan => cases hy
      | infinite other =>
          obtain rfl : other = false := by simpa using hy
          rfl
      | finite p =>
          simp only [finite_le_finite, decide_eq_true_eq] at hx hy
          have hSum : (c : ℚ) ≤ n + m := by exact_mod_cast hc
          exact natCast_le_ofRat hBound (hSum.trans (add_le_add hx hy))

theorem le_max_of_le (z : ℚ) (h : (finite x).le y = true) : (finite x).le ((finite z).max y) = true := by
  cases y with
  | nan => cases h
  | infinite negative => cases negative <;> simp_all [max]
  | finite y =>
      simp only [finite_le_finite, decide_eq_true_eq] at h
      simp only [max, reduceCtorEq, or_self, if_false, finite_lt_finite, decide_eq_true_eq]
      split_ifs with hLess
      · simpa using h
      · simpa using h.trans (not_lt.mp hLess)

/-- A number between two whole ones that follow one another is finite. -/
theorem exists_finite (hLow : (finite n).le y = true) (hHigh : y.lt (finite (n + 1)) = true) :
    ∃ o : ℚ, y = finite o ∧ (n : ℚ) ≤ o ∧ o < n + 1 := by
  cases y with
  | nan => cases hHigh
  | infinite negative => cases negative <;> simp_all
  | finite o => exact ⟨o, rfl, by simpa using hLow, by simpa using hHigh⟩

/-- Such a number is an index. -/
theorem toIndex_of_between (hLow : (finite n).le y = true) (hHigh : y.lt (finite (n + 1)) = true) (hn : n ≤ length) :
    y.toIndex length = n := by
  obtain ⟨o, rfl, hLow', hHigh'⟩ := exists_finite hLow hHigh
  have hNonneg : (0 : ℚ) ≤ o := (Nat.cast_nonneg n).trans hLow'
  have hFloor : ⌊o⌋₊ = n := (Nat.floor_eq_iff hNonneg).mpr ⟨hLow', hHigh'⟩
  rw [toIndex, if_neg (not_lt.mpr hNonneg), hFloor, Nat.min_eq_left hn]

@[simp] theorem toIndex_length : (finite length).toIndex length = length := by
  simp [toIndex]

/-- What is cut off at the length is an index no smaller than a whole number it has reached. -/
theorem le_toIndex_min (hLow : (finite n).le y = true) (hn : n ≤ length) :
    n ≤ (y.min (finite length)).toIndex length := by
  cases y with
  | nan => cases hLow
  | infinite negative =>
      cases negative
      · have hMin : (infinite false).min (finite length) = finite length := by
          simp [min]
        rw [hMin, toIndex_length]
        exact hn
      · simp at hLow
  | finite o =>
      simp only [finite_le_finite, decide_eq_true_eq] at hLow
      have hNonneg : (0 : ℚ) ≤ o := (Nat.cast_nonneg n).trans hLow
      simp only [min, reduceCtorEq, or_self, if_false, finite_lt_finite, decide_eq_true_eq]
      split_ifs with hLess
      · rw [toIndex_length]
        exact hn
      · rw [toIndex, if_neg (not_lt.mpr hNonneg)]
        exact Nat.le_min.mpr ⟨Nat.le_floor hLow, hn⟩

theorem toIndex_le (y : Double) (hNonneg : (finite 0).le y = true) : y.toIndex length ≤ length := by
  cases y with
  | nan => exact Nat.zero_le _
  | infinite negative => cases negative <;> simp [toIndex]
  | finite o =>
      have ho : ¬o < 0 := by simpa using hNonneg
      rw [toIndex, if_neg ho]
      exact Nat.min_le_right _ _

/-- What is cut off at the length and is less than a whole number is an index before it. -/
theorem toIndex_min_le (hLow : (finite n).le y = true) (hHigh : y.lt (finite (n + 1)) = true) :
    (y.min (finite length)).toIndex length ≤ n := by
  obtain ⟨o, rfl, hLow', hHigh'⟩ := exists_finite hLow hHigh
  have hNonneg : (0 : ℚ) ≤ o := (Nat.cast_nonneg n).trans hLow'
  have hFloor : ⌊o⌋₊ = n := (Nat.floor_eq_iff hNonneg).mpr ⟨hLow', hHigh'⟩
  simp only [min, reduceCtorEq, or_self, if_false, finite_lt_finite, decide_eq_true_eq]
  split_ifs with hLess
  · have hBound : (length : ℚ) < n + 1 := hLess.trans hHigh'
    have hBound' : length < n + 1 := by exact_mod_cast hBound
    rw [toIndex_length]
    exact Nat.le_of_lt_succ hBound'
  · rw [toIndex, if_neg (not_lt.mpr hNonneg), hFloor]
    exact Nat.min_le_left _ _

end Order

end Double

end Cxx
