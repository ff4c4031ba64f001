import Wwatp.Mediator.Network

/-! The order of versions. Numbers wrap, so a number is less than those at most half a sequence after it;
half a sequence is a real number in JavaScript and an integer in C++. -/
namespace Wwatp
namespace TreeNodeVersion

/-- `operator<=` -/
def atMost (version other : TreeNodeVersion) : Bool :=
  version.before other || version.versionNumber = other.versionNumber

/-- `operator>=` -/
def atLeast (version other : TreeNodeVersion) : Bool := !version.before other

/-- `operator>` -/
def after (version other : TreeNodeVersion) : Bool := !version.atMost other

end TreeNodeVersion

namespace JavaScript
namespace TreeNodeVersion

/-- `_cmpMax`; a maximum of 0 stands for 256. -/
def cmpMax (version other : TreeNodeVersion) : ℕ :=
  let orDefault (sequence : UInt16) : ℕ := if sequence = 0 then 256 else sequence.toNat
  max 1 (min (orDefault version.maxVersionSequence) (orDefault other.maxVersionSequence))

def eq (version other : TreeNodeVersion) : Bool := version.versionNumber = other.versionNumber

/-- How far the number of one version is after the other's; `%` keeps the sign of its left side. -/
def delta (max : ℕ) (first second : TreeNodeVersion) : ℤ :=
  ((second.versionNumber.toNat : ℤ) - first.versionNumber.toNat + max).tmod max

/-- `delta > 0 && delta <= max / 2`, where the half is not rounded. -/
def withinHalf (max : ℕ) (delta : ℤ) : Bool := delta > 0 ∧ 2 * delta ≤ max

def lt (version other : TreeNodeVersion) : Bool :=
  let max := cmpMax version other
  if eq version other then false else withinHalf max (delta max version other)

def le (version other : TreeNodeVersion) : Bool := eq version other || lt version other

def gt (version other : TreeNodeVersion) : Bool :=
  let max := cmpMax version other
  if eq version other then false else withinHalf max (delta max other version)

def ge (version other : TreeNodeVersion) : Bool := eq version other || gt version other

/-- The four comparisons are those of C++, and of two versions at most one is less than the other. -/
structure OrderedAlike (version other : TreeNodeVersion) : Prop where
  lt_eq : lt version other = version.before other
  le_eq : le version other = version.atMost other
  gt_eq : gt version other = version.after other
  ge_eq : ge version other = version.atLeast other
  lt_asymm : ¬(lt version other = true ∧ lt other version = true)

section SameSequence

variable {version other : TreeNodeVersion}

/-- Both numbers lie in the sequence, so the distance is counted around it once at most. -/
theorem delta_eq {max : ℕ} (hThis : version.versionNumber.toNat < max) (hOther : other.versionNumber.toNat < max) :
    delta max version other =
      if version.versionNumber.toNat ≤ other.versionNumber.toNat then
        (other.versionNumber.toNat : ℤ) - version.versionNumber.toNat
      else (other.versionNumber.toNat : ℤ) - version.versionNumber.toNat + max := by
  rw [delta, Int.tmod_eq_emod_of_nonneg (by omega)]
  split_ifs with hOrder
  · rw [Int.add_emod_right, Int.emod_eq_of_lt (by omega) (by omega)]
  · rw [Int.emod_eq_of_lt (by omega) (by omega)]

theorem gt_eq_lt : gt version other = lt other version := by
  have hMax : cmpMax version other = cmpMax other version := by rw [cmpMax, cmpMax, min_comm]
  have hEq : eq version other = eq other version := decide_eq_decide.mpr eq_comm
  rw [gt, lt, hMax, hEq]

variable (hSame : other.maxVersionSequence = version.maxVersionSequence)
  (hThis : version.versionNumber < version.maxVersionSequence)
include hSame hThis

theorem cmpMax_eq : cmpMax version other = version.maxVersionSequence.toNat := by
  have hPositive : version.versionNumber.toNat < version.maxVersionSequence.toNat := UInt16.lt_iff_toNat_lt.mp hThis
  have hNonzero : version.maxVersionSequence ≠ 0 := fun hZero => by
    rw [hZero] at hPositive
    exact Nat.not_lt_zero _ hPositive
  simp only [cmpMax, hSame, if_neg hNonzero, min_self]
  omega

variable (hOther : other.versionNumber < version.maxVersionSequence)
include hOther

theorem lt_iff : lt version other = true ↔
    (version.versionNumber.toNat < other.versionNumber.toNat ∧
        2 * (other.versionNumber.toNat - version.versionNumber.toNat) ≤ version.maxVersionSequence.toNat) ∨
      (other.versionNumber.toNat < version.versionNumber.toNat ∧
        version.maxVersionSequence.toNat ≤ 2 * (version.versionNumber.toNat - other.versionNumber.toNat)) := by
  have hFirst := UInt16.lt_iff_toNat_lt.mp hThis
  have hSecond := UInt16.lt_iff_toNat_lt.mp hOther
  simp only [lt, cmpMax_eq hSame hThis, eq, withinHalf, delta_eq hFirst hSecond, ← UInt16.toNat_inj]
  split_ifs with hEqual hOrder <;> simp at hEqual ⊢ <;> omega

end SameSequence

/-- In C++ a distance of half a sequence counts only forwards. -/
theorem before_iff {version other : TreeNodeVersion} (hDiffer : version.versionNumber ≠ other.versionNumber) :
    version.before other = true ↔
      (version.versionNumber.toNat < other.versionNumber.toNat ∧
        2 * (other.versionNumber.toNat - version.versionNumber.toNat) ≤ version.maxVersionSequence.toNat) ∨
      (other.versionNumber.toNat < version.versionNumber.toNat ∧
        version.maxVersionSequence.toNat < 2 * (version.versionNumber.toNat - other.versionNumber.toNat)) := by
  have hNe : version ≠ other := fun h => hDiffer (congrArg _ h)
  rw [Ne, ← UInt16.toNat_inj] at hDiffer
  simp only [TreeNodeVersion.before, if_neg hNe]
  split_ifs with hOrder <;> simp <;> omega

/-- The distance in the numbers of two versions. -/
def distance (version other : TreeNodeVersion) : ℕ :=
  ((version.versionNumber.toNat : ℤ) - other.versionNumber.toNat).natAbs

/-- Half a sequence apart, each of two versions is less than the other. -/
theorem lt_of_half {version other : TreeNodeVersion} (hSame : other.maxVersionSequence = version.maxVersionSequence)
    (hThis : version.versionNumber < version.maxVersionSequence)
    (hOther : other.versionNumber < version.maxVersionSequence)
    (hHalf : 2 * distance version other = version.maxVersionSequence.toNat) : lt version other = true := by
  have hPositive := UInt16.lt_iff_toNat_lt.mp hThis
  rw [lt_iff hSame hThis hOther]
  rw [distance] at hHalf
  omega

section Ordered

variable {version other : TreeNodeVersion} (hSame : other.maxVersionSequence = version.maxVersionSequence)
  (hThis : version.versionNumber < version.maxVersionSequence)
  (hOther : other.versionNumber < version.maxVersionSequence)
  (hDiffer : version.versionNumber ≠ other.versionNumber)
  (hDistance : 2 * distance version other ≠ version.maxVersionSequence.toNat)
include hSame hThis hOther hDiffer hDistance

theorem lt_eq_before : lt version other = version.before other := by
  rw [Bool.eq_iff_iff, lt_iff hSame hThis hOther, before_iff hDiffer]
  rw [distance] at hDistance
  omega

/-- Anywhere else exactly one of two versions is less than the other. -/
theorem lt_swap : lt other version = !lt version other := by
  have hNumbers : version.versionNumber.toNat ≠ other.versionNumber.toNat := fun h => hDiffer (UInt16.toNat_inj.mp h)
  rw [Bool.eq_iff_iff, Bool.not_eq_true', ← Bool.not_eq_true, lt_iff hSame hThis hOther,
    lt_iff hSame.symm (hSame ▸ hOther) (hSame ▸ hThis), hSame]
  rw [distance] at hDistance
  omega

theorem orderedAlike_of_distance : OrderedAlike version other := by
  have hLt := lt_eq_before hSame hThis hOther hDiffer hDistance
  have hSwap := lt_swap hSame hThis hOther hDiffer hDistance
  have hEq : eq version other = false := decide_eq_false hDiffer
  have hAtMost : version.atMost other = version.before other := by
    rw [TreeNodeVersion.atMost, decide_eq_false hDiffer, Bool.or_false]
  constructor
  · exact hLt
  · rw [le, hEq, Bool.false_or, hAtMost, hLt]
  · rw [gt_eq_lt, hSwap, hLt, TreeNodeVersion.after, hAtMost]
  · rw [ge, hEq, Bool.false_or, gt_eq_lt, hSwap, hLt, TreeNodeVersion.atLeast]
  · rintro ⟨hBefore, hAfter⟩
    rw [hSwap, hBefore] at hAfter
    exact Bool.false_ne_true hAfter

end Ordered

theorem orderedAlike_self (version : TreeNodeVersion) : OrderedAlike version version := by
  have hEq : eq version version = true := decide_eq_true rfl
  have hLt : lt version version = false := by simp only [lt, if_pos hEq]
  have hBefore : version.before version = false := by simp only [TreeNodeVersion.before, if_pos]
  have hAtMost : version.atMost version = true := by rw [TreeNodeVersion.atMost, decide_eq_true rfl, Bool.or_true]
  constructor
  · rw [hLt, hBefore]
  · rw [le, hEq, Bool.true_or, hAtMost]
  · rw [gt_eq_lt, hLt, TreeNodeVersion.after, hAtMost]
    rfl
  · rw [ge, hEq, Bool.true_or, TreeNodeVersion.atLeast, hBefore]
    rfl
  · rintro ⟨hBoth, -⟩
    exact Bool.false_ne_true (hLt.symm.trans hBoth)

/-- Versions that differ only in their numbers are ordered alike exactly when the numbers are not half a
sequence apart. -/
theorem orderedAlike_iff (version : TreeNodeVersion) (number : UInt16)
    (hThis : version.versionNumber < version.maxVersionSequence) (hOther : number < version.maxVersionSequence) :
    OrderedAlike version { version with versionNumber := number } ↔
      2 * distance version { version with versionNumber := number } ≠ version.maxVersionSequence.toNat := by
  constructor
  · intro hAlike hHalf
    have hBack : 2 * distance { version with versionNumber := number } version = version.maxVersionSequence.toNat := by
      rw [distance] at hHalf ⊢
      omega
    exact hAlike.lt_asymm ⟨lt_of_half rfl hThis hOther hHalf, lt_of_half rfl hOther hThis hBack⟩
  · intro hDistance
    by_cases hDiffer : version.versionNumber = number
    · subst hDiffer
      exact orderedAlike_self version
    · exact orderedAlike_of_distance rfl hThis hOther hDiffer hDistance

/-- Numbers 0 and 1 of 256 are ordered alike. -/
theorem orderedAlike_iff_next : OrderedAlike {} { versionNumber := 1 } :=
  (orderedAlike_iff {} 1 (by decide) (by decide)).mpr (by decide)

/-- Of the numbers 0 and 128 of 256 each is less than the other in JavaScript. -/
theorem not_orderedAlike_half : ¬∀ version other : TreeNodeVersion, version.versionNumber < version.maxVersionSequence →
    other.versionNumber < version.maxVersionSequence → other = { version with versionNumber := other.versionNumber } →
      OrderedAlike version other :=
  fun hAlike => (hAlike {} { versionNumber := 128 } (by decide) (by decide) rfl).lt_asymm (by decide)

end TreeNodeVersion
end JavaScript
end Wwatp
