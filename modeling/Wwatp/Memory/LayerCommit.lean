import Wwatp.Memory.Atomicity
import Wwatp.Memory.TransactionalBackend

/-! A transaction layer that is opened and closed at once. Opening notes the number
after the stored version; closing compares that number with the stored one. -/
namespace Wwatp

open Cxx Cxx.Effectful

/-- A number is its own successor only where the sequence has length one. -/
theorem TreeNodeVersion.nextNumber_eq_self_iff {v : TreeNodeVersion} (hMax : v.maxVersionSequence ≠ 0) :
    v.nextNumber = .ok v.versionNumber ↔ v.versionNumber = 0 ∧ v.maxVersionSequence = 1 := by
  have hPos : 0 < v.maxVersionSequence.toNat := by
    rw [Nat.pos_iff_ne_zero]
    exact fun h => hMax (UInt16.toNat_inj.mp h)
  have hNumber := v.versionNumber.toNat_lt
  have hMod := Nat.mod_lt (v.versionNumber.toNat + 1) hPos
  have hSequence := v.maxVersionSequence.toNat_lt
  rw [nextNumber, if_neg hMax, Except.ok.injEq, ← UInt16.toNat_inj, UInt16.toNat_ofNat',
    Nat.mod_eq_of_lt (by omega), ← UInt16.toNat_inj, ← UInt16.toNat_inj]
  change _ ↔ v.versionNumber.toNat = 0 ∧ v.maxVersionSequence.toNat = 1
  constructor
  · intro h
    rcases Nat.lt_or_ge (v.versionNumber.toNat + 1) v.maxVersionSequence.toNat with hSmall | hLarge
    · rw [Nat.mod_eq_of_lt hSmall] at h
      omega
    · have hLast : v.versionNumber.toNat + 1 = v.maxVersionSequence.toNat := by omega
      rw [hLast, Nat.mod_self] at h
      omega
  · rintro ⟨hZero, hOne⟩
    rw [hZero, hOne]

namespace Effects

/-- `TransactionalBackend::closeTransactionLayers`, up to the clearing of the stack. -/
def closeTransactionLayers {Callback : Type} (listeners : ListenerTable Callback)
    (run : Callbacks Callback) (stack : Transaction) : Effectful Effects Bool := do
  if stack = [] then return true
  let _applied ← applyTransaction listeners run stack
  return true

end Effects

namespace TransactionalBackend

open Effects

variable {Callback : Type}

/-- Where closing layers as values succeeds, the call returns and leaves the same tree. -/
theorem closeTransactionLayers_refines {run : Callbacks Callback} (hPassive : run.Passive)
    {b after : TransactionalBackend Callback} {notices : List (Notice Callback)}
    (h : b.closeTransactionLayers = .ok (after, notices)) :
    ∃ notified, Effects.closeTransactionLayers b.tree.nodeListeners run b.transactionStack
      ⟨b.tree.memoryTree, []⟩ = (.ok true, ⟨after.tree.memoryTree, notified⟩) := by
  rw [TransactionalBackend.closeTransactionLayers] at h
  rw [Effects.closeTransactionLayers]
  split_ifs at h ⊢ with hEmpty
  · obtain ⟨rfl, -⟩ := Prod.mk.inj (Except.ok.inj h)
    exact ⟨[], rfl⟩
  · obtain ⟨⟨tree, told⟩, hApply, hAfter⟩ := Outcome.bind_eq_ok.mp h
    obtain ⟨rfl, -⟩ := Prod.mk.inj (Except.ok.inj hAfter)
    obtain ⟨notified, hCall⟩ := applyTransaction_refines hPassive hApply
    exact ⟨notified, bind_ok hCall⟩

/-- The layer `openTransactionLayer` pushes for an existing node. -/
def layerOf (next : UInt16) (replacement : TreeNode) : SubTransaction :=
  ⟨⟨some next, replacement.getLabelRule, some replacement⟩, []⟩

theorem openTransactionLayer_eq {b : TransactionalBackend Callback} {replacement stored : TreeNode}
    {next : UInt16} (hStack : b.transactionStack = [])
    (hStored : b.tree.getNode replacement.labelRule = some stored)
    (hNext : stored.version.nextNumber = .ok next) :
    b.openTransactionLayer replacement =
      .ok { b with transactionStack := [layerOf next replacement] } := by
  have hVersion : b.layerVersion replacement.getLabelRule = .ok (some next) := by
    rw [layerVersion, hStored]
    dsimp only
    rw [hNext]
    rfl
  rw [openTransactionLayer, hStack, checkNoOverlap, Outcome.ok_bind, hVersion]
  rfl

/-- A layer over a node of another version is refused. -/
theorem canPerform_layerOf_of_ne {t : MemoryTree} {next : UInt16} {replacement : TreeNode}
    (h : t.storedVersion replacement.labelRule ≠ some next) :
    t.canPerformSubTransaction (layerOf next replacement) = .ok false := by
  rw [MemoryTree.canPerformSubTransaction.eq_def]
  rw [MemoryTree.storedVersion] at h
  cases hStored : t.getNode replacement.labelRule with
  | none =>
      simp only [layerOf, hStored]
      rfl
  | some stored =>
      rw [hStored] at h
      simp only [layerOf, hStored]
      exact if_pos h

/-- A layer over a node is accepted when both the stored number and the number after
it are the one in the layer. -/
theorem canPerform_layerOf_iff {t : MemoryTree} {next : UInt16} {replacement stored : TreeNode}
    (hStored : t.getNode replacement.labelRule = some stored)
    (hReplacement : replacement.version.versionNumber = next) :
    t.canPerformSubTransaction (layerOf next replacement) = .ok true ↔
      stored.version.versionNumber = next ∧ stored.version.nextNumber = .ok next := by
  rw [MemoryTree.canPerformSubTransaction_eq_true]
  simp only [MemoryTree.ParentExpected, MemoryTree.storedVersion, layerOf, hStored, Option.map_some,
    hReplacement, Option.some.injEq, Option.mem_some_iff, forall_eq', List.not_mem_nil]
  simp

/-- A layer that is refused leaves everything as it is. -/
theorem close_of_refused {listeners : ListenerTable Callback} {run : Callbacks Callback}
    {layer : SubTransaction} {s : Effects} (h : s.memoryTree.canPerformSubTransaction layer = .ok false) :
    Effects.closeTransactionLayers listeners run [layer] s =
      (.error (MemoryTree.notValid layer), s) := by
  have hTree : s.memoryTree.applyTransaction [layer] = .error (MemoryTree.notValid layer) := by
    rw [MemoryTree.applyTransaction, MemoryTree.checkSubTransactions, h]
    rfl
  exact bind_error (applyTransaction_of_error listeners run hTree)

/-- A layer that is accepted is stored, and its label is announced. -/
theorem close_of_accepted {listeners : ListenerTable Callback} {run : Callbacks Callback}
    (hPassive : run.Passive) {next : UInt16} {replacement : TreeNode} {s : Effects}
    (h : s.memoryTree.canPerformSubTransaction (layerOf next replacement) = .ok true) :
    Effects.closeTransactionLayers listeners run [layerOf next replacement] s =
      ((listeners.notifyListeners replacement.labelRule).map fun _ => true,
        ⟨s.memoryTree.set replacement.labelRule replacement,
          s.notified ++ [(replacement.labelRule, some replacement)]⟩) := by
  have hTree : s.memoryTree.applyTransaction [layerOf next replacement] =
      .ok (s.memoryTree.set replacement.labelRule replacement) :=
    MemoryTree.applyTransaction_eq_ok.mpr ⟨by simpa using h, rfl⟩
  have hApply := applyTransaction_of_ok listeners run hTree
  have hChanges : changes [layerOf next replacement] =
      [⟨some next, replacement.labelRule, some replacement⟩] := rfl
  have hNotify := notify_eq listeners hPassive ⟨some next, replacement.labelRule, some replacement⟩
    { s with memoryTree := s.memoryTree.set replacement.labelRule replacement }
  rw [hChanges, forEach_singleton] at hApply
  cases hCalled : listeners.notifyListeners replacement.labelRule with
  | error e =>
      rw [hCalled] at hNotify
      rw [bind_error hNotify] at hApply
      exact bind_error hApply
  | ok called =>
      rw [hCalled] at hNotify
      rw [bind_ok hNotify] at hApply
      exact bind_ok hApply

section Commit

variable (b : TransactionalBackend Callback) (run : Callbacks Callback) (replacement : TreeNode)

/-- With no change in between, a layer that is opened can be closed, and the
replacement is stored. -/
def Commits : Prop :=
  ∃ opened after, b.openTransactionLayer replacement = .ok opened ∧
    Effects.closeTransactionLayers opened.tree.nodeListeners run opened.transactionStack
      ⟨opened.tree.memoryTree, []⟩ = (.ok true, after) ∧
    after.memoryTree.getNode replacement.labelRule = some replacement.assign

/-- When another version is stored in between, closing throws and stores nothing. -/
def DetectsChange (stored : TreeNode) : Prop :=
  ∀ opened, b.openTransactionLayer replacement = .ok opened → ∀ tree : MemoryTree,
    tree.storedVersion replacement.labelRule ≠ some stored.version.versionNumber →
    ∃ what, Effects.closeTransactionLayers opened.tree.nodeListeners run opened.transactionStack
      ⟨tree, []⟩ = (.error (.runtimeError what), ⟨tree, []⟩)

variable {b run replacement} {stored : TreeNode} {next : UInt16} (hPassive : run.Passive)
  (hStack : b.transactionStack = []) (hStored : b.tree.getNode replacement.labelRule = some stored)
  (hMax : stored.version.maxVersionSequence ≠ 0)
  (hNext : stored.version.nextNumber = .ok replacement.version.versionNumber)

include hPassive hStack hStored hMax hNext

theorem commits_iff : Commits b run replacement ↔
    (stored.version.versionNumber = 0 ∧ stored.version.maxVersionSequence = 1) ∧
      ∃ called, b.tree.nodeListeners.notifyListeners replacement.labelRule = .ok called := by
  have hOpen := openTransactionLayer_eq hStack hStored hNext
  have hAccepted := canPerform_layerOf_iff (t := b.tree.memoryTree) hStored rfl
  rw [← TreeNodeVersion.nextNumber_eq_self_iff hMax]
  constructor
  · rintro ⟨opened, after, hOpened, hClosed, -⟩
    obtain rfl := Except.ok.inj (hOpen.symm.trans hOpened)
    by_cases hSelf : stored.version.versionNumber = replacement.version.versionNumber
    · have hAccept := hAccepted.mpr ⟨hSelf, hNext⟩
      rw [close_of_accepted hPassive (s := ⟨b.tree.memoryTree, []⟩) hAccept] at hClosed
      refine ⟨hNext.trans (congrArg _ hSelf.symm), ?_⟩
      cases hCalled : b.tree.nodeListeners.notifyListeners replacement.labelRule with
      | error e =>
          rw [hCalled] at hClosed
          cases (Prod.mk.inj hClosed).1
      | ok called => exact ⟨called, rfl⟩
    · -- the number in the layer is not the stored one
      have hRefuse : b.tree.memoryTree.storedVersion replacement.labelRule ≠
          some replacement.version.versionNumber := by
        rw [MemoryTree.storedVersion, show b.tree.memoryTree.getNode _ = _ from hStored]
        exact fun h => hSelf (Option.some.inj h)
      rw [close_of_refused (s := ⟨b.tree.memoryTree, []⟩) (canPerform_layerOf_of_ne hRefuse)] at hClosed
      cases (Prod.mk.inj hClosed).1
  · rintro ⟨hSelf, called, hCalled⟩
    have hSame : stored.version.versionNumber = replacement.version.versionNumber :=
      Except.ok.inj (hSelf.symm.trans hNext)
    have hClose : Effects.closeTransactionLayers b.tree.nodeListeners run _ ⟨b.tree.memoryTree, []⟩ = _ :=
      close_of_accepted hPassive (hAccepted.mpr ⟨hSame, hNext⟩)
    rw [hCalled] at hClose
    refine ⟨_, _, hOpen, hClose, ?_⟩
    rw [MemoryTree.getNode_set, if_pos rfl]

omit hPassive in
theorem detectsChange_of_single (hSingle : stored.version.versionNumber = 0 ∧
    stored.version.maxVersionSequence = 1) : DetectsChange b run replacement stored := by
  have hSelf := (TreeNodeVersion.nextNumber_eq_self_iff hMax).mpr hSingle
  have hSame : stored.version.versionNumber = replacement.version.versionNumber :=
    Except.ok.inj (hSelf.symm.trans hNext)
  intro opened hOpened tree hChanged
  obtain rfl := Except.ok.inj ((openTransactionLayer_eq hStack hStored hNext).symm.trans hOpened)
  rw [hSame] at hChanged
  exact ⟨_, close_of_refused (s := ⟨tree, []⟩) (canPerform_layerOf_of_ne hChanged)⟩

/-- Opening and closing a layer for the next version of a stored node works as intended
exactly for version 0 of a sequence of length one. -/
theorem open_close_iff :
    (Commits b run replacement ∧ DetectsChange b run replacement stored) ↔
      (stored.version.versionNumber = 0 ∧ stored.version.maxVersionSequence = 1) ∧
        ∃ called, b.tree.nodeListeners.notifyListeners replacement.labelRule = .ok called := by
  rw [commits_iff hPassive hStack hStored hMax hNext]
  constructor
  · rintro ⟨hCommits, -⟩
    exact hCommits
  · intro hCommits
    exact ⟨hCommits, detectsChange_of_single hStack hStored hMax hNext hCommits.1⟩

end Commit

/-- A node whose version sequence has length one. -/
theorem open_close_iff_single :
    ∃ (b : TransactionalBackend Unit) (stored : TreeNode),
      stored = { labelRule := str "A", version := { maxVersionSequence := 1 } } ∧
      b = ⟨⟨MemoryTree.empty.set (str "A") stored, .empty⟩, []⟩ ∧
      ((Commits b (fun _ _ _ => pure ()) stored ∧ DetectsChange b (fun _ _ _ => pure ()) stored stored) ↔
        (stored.version.versionNumber = 0 ∧ stored.version.maxVersionSequence = 1) ∧
          ∃ called, b.tree.nodeListeners.notifyListeners stored.labelRule = .ok called) :=
  ⟨_, _, rfl, rfl, open_close_iff (fun _ _ _ _ => rfl) rfl rfl (by decide) rfl⟩

/-- Version 1 of a node of version 0, in a sequence of length 256, cannot be committed. -/
theorem not_commits_first_update :
    ∃ (b : TransactionalBackend Unit) (stored replacement : TreeNode),
      b = ⟨⟨MemoryTree.empty.set (str "A") stored, .empty⟩, []⟩ ∧
      stored = { labelRule := str "A" } ∧
      replacement = { labelRule := str "A", version := { versionNumber := 1 } } ∧
      b.tree.getNode replacement.labelRule = some stored ∧
      stored.version.maxVersionSequence ≠ 0 ∧
      stored.version.nextNumber = .ok replacement.version.versionNumber ∧
      ¬ Commits b (fun _ _ _ => pure ()) replacement := by
  refine ⟨_, _, _, rfl, rfl, rfl, rfl, by decide, rfl, ?_⟩
  rintro ⟨opened, after, hOpened, hClosed, -⟩
  obtain rfl := Except.ok.inj hOpened
  cases (Prod.mk.inj hClosed).1

end TransactionalBackend
end Wwatp
