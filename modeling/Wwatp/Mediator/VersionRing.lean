import Wwatp.Cxx.RingOrder
import Wwatp.JavaScript.Versions

/-! The order of the versions of a node as a ring, and what it means for a mediator that compares
versions. -/
namespace Wwatp

open Cxx

namespace TreeNodeVersion

/-- `operator++`. -/
def increment (version : TreeNodeVersion) : Outcome TreeNodeVersion := do
  let number ← version.nextNumber
  return { version with versionNumber := number }

/-- `operator++` several times. -/
def advance : ℕ → TreeNodeVersion → Outcome TreeNodeVersion
  | 0, version => .ok version
  | k + 1, version => do advance k (← version.increment)

section Numbers

variable (version : TreeNodeVersion) (number : UInt16)

theorem before_number_iff (hDiffer : version.versionNumber ≠ number) :
    version.before { version with versionNumber := number } = true ↔
      RingBefore version.maxVersionSequence.toNat version.versionNumber.toNat number.toNat := by
  have hOther : version.versionNumber ≠ ({ version with versionNumber := number } : TreeNodeVersion).versionNumber := hDiffer
  have hBefore := JavaScript.TreeNodeVersion.before_iff hOther
  rw [hBefore, RingBefore]
  dsimp only
  split_ifs <;> omega

theorem eq_number_iff : version = { version with versionNumber := number } ↔ version.versionNumber = number := by
  constructor
  · intro h
    rw [h]
  · intro h
    simp [← h]

/-- One step on the ring; numbers below the maximum stay below it. -/
theorem increment_eq (hThis : version.versionNumber < version.maxVersionSequence) :
    ∃ next : UInt16, next.toNat = (version.versionNumber.toNat + 1) % version.maxVersionSequence.toNat ∧
      version.increment = .ok { version with versionNumber := next } := by
  have hLess := UInt16.lt_iff_toNat_lt.mp hThis
  have hMax : version.maxVersionSequence ≠ 0 := by
    intro hZero
    simp [hZero] at hLess
  have hMod := Nat.mod_lt (version.versionNumber.toNat + 1) (Nat.lt_of_le_of_lt (Nat.zero_le _) hLess)
  have hWidth := version.maxVersionSequence.toNat_lt
  refine ⟨.ofNat ((version.versionNumber.toNat + 1) % version.maxVersionSequence.toNat), ?_, ?_⟩
  · rw [UInt16.toNat_ofNat', Nat.mod_eq_of_lt (by omega)]
  · simp [increment, nextNumber, hMax]

theorem advance_eq (hThis : version.versionNumber < version.maxVersionSequence) (k : ℕ) :
    ∃ last : UInt16,
      last.toNat = (fun n => (n + 1) % version.maxVersionSequence.toNat)^[k] version.versionNumber.toNat ∧
        version.advance k = .ok { version with versionNumber := last } := by
  induction k generalizing version with
  | zero => exact ⟨version.versionNumber, rfl, rfl⟩
  | succ k ih =>
      obtain ⟨next, hNext, hIncrement⟩ := version.increment_eq hThis
      have hLess : next < version.maxVersionSequence := by
        rw [UInt16.lt_iff_toNat_lt, hNext]
        exact Nat.mod_lt _ (Nat.lt_of_le_of_lt (Nat.zero_le _) (UInt16.lt_iff_toNat_lt.mp hThis))
      obtain ⟨last, hLast, hAdvance⟩ := ih { version with versionNumber := next } hLess
      refine ⟨last, ?_, ?_⟩
      · rw [hLast, hNext, Function.iterate_succ_apply]
      · rw [advance, hIncrement, Outcome.ok_bind, hAdvance]

end Numbers

/-- Exactly one of less, equal and greater holds, and the other comparisons agree with it. -/
structure RingOrdered (version other : TreeNodeVersion) : Prop where
  trichotomy : (version.before other = true ∧ version ≠ other ∧ other.before version = false) ∨
    (version.before other = false ∧ version = other ∧ other.before version = false) ∨
    (version.before other = false ∧ version ≠ other ∧ other.before version = true)
  atMost_iff : version.atMost other = true ↔ version.before other = true ∨ version = other
  atLeast_iff : version.atLeast other = true ↔ other.before version = true ∨ version = other
  after_iff : version.after other = true ↔ other.before version = true

theorem before_self (version : TreeNodeVersion) : version.before version = false := by
  simp [before]

theorem ringOrdered_self (version : TreeNodeVersion) : RingOrdered version version := by
  have hBefore := version.before_self
  constructor <;> simp [atMost, atLeast, after, hBefore]

/-- Versions that differ in their numbers are ordered one way. -/
theorem before_swap (version : TreeNodeVersion) {number : UInt16} (hDiffer : version.versionNumber ≠ number) :
    ({ version with versionNumber := number } : TreeNodeVersion).before version =
      !version.before { version with versionNumber := number } := by
  have hForth := version.before_number_iff number hDiffer
  have hBack := before_number_iff { version with versionNumber := number } version.versionNumber (Ne.symm hDiffer)
  have hNumbers : version.versionNumber.toNat ≠ number.toNat := fun h => hDiffer (UInt16.toNat_inj.mp h)
  rw [Bool.eq_iff_iff, Bool.not_eq_true', ← Bool.not_eq_true, hForth, ← ringBefore_swap hNumbers]
  exact hBack

theorem ringOrdered_number (version : TreeNodeVersion) (number : UInt16) :
    RingOrdered version { version with versionNumber := number } := by
  by_cases hDiffer : version.versionNumber = number
  · have hSame := (version.eq_number_iff number).mpr hDiffer
    rw [← hSame]
    exact version.ringOrdered_self
  · have hNe : version ≠ { version with versionNumber := number } :=
      fun h => hDiffer ((version.eq_number_iff number).mp h)
    have hSwap := version.before_swap hDiffer
    constructor
    · cases h : version.before { version with versionNumber := number } <;> simp [hNe, hSwap, h]
    · simp [atMost, hDiffer, hNe]
    · simp [atLeast, hNe, hSwap]
    · simp [after, atMost, hDiffer, hSwap]

/-- A version that is advanced less than half a sequence comes after the old one. -/
theorem after_advance {version : TreeNodeVersion} (hThis : version.versionNumber < version.maxVersionSequence)
    {k : ℕ} (hPos : 0 < k) (hHalf : 2 * k < version.maxVersionSequence.toNat) :
    ∃ advanced, version.advance k = .ok advanced ∧ version.before advanced = true ∧ advanced.after version = true := by
  have hFirst := UInt16.lt_iff_toNat_lt.mp hThis
  obtain ⟨last, hLast, hAdvance⟩ := version.advance_eq hThis k
  rw [iterate_succ_mod hFirst] at hLast
  have hRing := ringBefore_advance hFirst hPos hHalf
  rw [← hLast] at hRing
  have hDiffer : version.versionNumber ≠ last := by
    rintro rfl
    exact ringBefore_irrefl hRing
  have hBefore := (version.before_number_iff last hDiffer).mpr hRing
  exact ⟨_, hAdvance, hBefore, by simp [after, atMost, version.before_swap hDiffer, hBefore, Ne.symm hDiffer]⟩

/-- Versions that differ only in their numbers are totally ordered, and fewer steps than half a
sequence lead to a greater version. -/
theorem ring_ordered (version : TreeNodeVersion) :
    (∀ number, RingOrdered version { version with versionNumber := number }) ∧
      (version.versionNumber < version.maxVersionSequence →
        ∀ k, 0 < k → 2 * k < version.maxVersionSequence.toNat →
          ∃ advanced, version.advance k = .ok advanced ∧ advanced.after version = true) := by
  constructor
  · exact version.ringOrdered_number
  · intro hThis k hPos hHalf
    obtain ⟨advanced, hAdvance, -, hAfter⟩ := after_advance hThis hPos hHalf
    exact ⟨advanced, hAdvance, hAfter⟩

/-- Number 255 of 256 is advanced by one. -/
theorem ring_ordered_wrapped : ∃ advanced, advance 1 { versionNumber := 255 } = .ok advanced ∧
    advanced.after { versionNumber := 255 } = true :=
  (ring_ordered { versionNumber := 255 }).2 (by decide) 1 (by decide) (by decide)

end TreeNodeVersion

namespace MediatorNet

/-- A versioned mediator does not write a node over one that is up to half a sequence newer. -/
theorem answer_of_newer {labelRule : Str} {source held : TreeNode}
    (h : source.version.before held.version = true) :
    answer true labelRule (some source) (some held) = none := by
  simp [answer, h]

/-- It writes a node that has been advanced over the one it was advanced from. -/
theorem answer_of_advanced {labelRule : Str} {source held : TreeNode} {k : ℕ}
    (hThis : held.version.versionNumber < held.version.maxVersionSequence) (hPos : 0 < k)
    (hHalf : 2 * k < held.version.maxVersionSequence.toNat) (hAdvance : held.version.advance k = .ok source.version) :
    answer true labelRule (some source) (some held) = some (.upsertNode [source]) ∧
      answer true labelRule (some held) (some source) = none := by
  obtain ⟨advanced, hSame, hBefore, hAfter⟩ := TreeNodeVersion.after_advance hThis hPos hHalf
  obtain rfl := Except.ok.inj (hAdvance.symm.trans hSame)
  have hNot : source.version.before held.version = false := by
    simp only [TreeNodeVersion.after, TreeNodeVersion.atMost, Bool.not_or, Bool.and_eq_true, Bool.not_eq_true'] at hAfter
    exact hAfter.1
  have hDiffer : source.version ≠ held.version := by
    intro hEq
    rw [hEq, TreeNodeVersion.before_self] at hBefore
    cases hBefore
  exact ⟨by simp [answer, equalNodes, TreeNode.equals, hDiffer, hNot], answer_of_newer hBefore⟩

end MediatorNet

end Wwatp
