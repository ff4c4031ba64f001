import Wwatp.Cxx.Avoidance
import Wwatp.Memory.TransactionalBackend
import Wwatp.Memory.Transactions

/-! The version numbers that the checks of a transaction and a new layer count on to. The number after the
stored one is a remainder by a field of the stored node. -/
namespace Wwatp

open Cxx Cxx.Outcome

theorem TreeNodeVersion.avoids_nextNumber (v : TreeNodeVersion) :
    Avoids .divisionByZero v.nextNumber ↔ v.maxVersionSequence ≠ 0 := by
  unfold nextNumber
  split_ifs with hZero <;> simp [hZero]

namespace MemoryTree

variable {t : MemoryTree}

/-- The version of every stored node has a number after it. -/
def CountsOn (t : MemoryTree) : Prop :=
  ∀ label node, t.getNode label = some node → node.version.maxVersionSequence ≠ 0

/-- The check divides by the maximum of the parent when that has the expected version. -/
theorem avoids_canPerformSubTransaction (sub : SubTransaction) :
    Avoids .divisionByZero (t.canPerformSubTransaction sub) ↔
      ∀ stored, t.getNode sub.parent.labelRule = some stored →
        some stored.version.versionNumber = sub.parent.priorVersion → stored.version.maxVersionSequence ≠ 0 := by
  unfold canPerformSubTransaction
  cases t.getNode sub.parent.labelRule with
  | none => simp
  | some stored =>
      by_cases hVersion : some stored.version.versionNumber = sub.parent.priorVersion
      · simp [hVersion, TreeNodeVersion.avoids_nextNumber]
      · simp [hVersion]

theorem avoids_checkSubTransactions (h : t.CountsOn) (transaction : Transaction) :
    Avoids .divisionByZero (t.checkSubTransactions transaction) := by
  induction transaction with
  | nil => exact avoids_ok ()
  | cons sub rest ih =>
      rw [checkSubTransactions, avoids_bind, avoids_canPerformSubTransaction]
      refine ⟨fun stored hStored _ => h _ _ hStored, fun accepted _ => ?_⟩
      cases accepted with
      | false => simp [notValid]
      | true => exact ih

theorem avoids_applyTransaction (h : t.CountsOn) (transaction : Transaction) :
    Avoids .divisionByZero (t.applyTransaction transaction) := by
  rw [applyTransaction, avoids_bind]
  exact ⟨avoids_checkSubTransactions h transaction, fun _ _ => avoids_ok _⟩

/-- The change of one node, with the version that is stored. -/
def changeOf (label : Str) (stored : TreeNode) : Transaction :=
  [⟨⟨some stored.version.versionNumber, label, none⟩, []⟩]

/-- A transaction that names a stored version gets to its maximum. -/
theorem applyTransaction_changeOf {label : Str} {stored : TreeNode} (hStored : t.getNode label = some stored)
    (hZero : stored.version.maxVersionSequence = 0) :
    t.applyTransaction (changeOf label stored) = .error (.undefined .divisionByZero) := by
  simp [applyTransaction, changeOf, checkSubTransactions, canPerformSubTransaction, hStored,
    TreeNodeVersion.nextNumber, hZero]

end MemoryTree

namespace SimpleBackend

variable {Callback : Type} {b : SimpleBackend Callback}

theorem avoids_notifyAll (changes : List (Str × Option TreeNode)) :
    Avoids .divisionByZero (b.notifyAll changes) := by
  have hOne : ∀ labelRule node, Avoids .divisionByZero (b.notifyListeners labelRule node) := by
    intro labelRule node
    rw [notifyListeners, avoids_bind]
    refine ⟨fun hEq => ?_, fun _ _ => avoids_ok _⟩
    cases ListenerTable.notifyListeners_error hEq
  induction changes with
  | nil => exact avoids_ok []
  | cons change rest ih => simp [notifyAll, hOne, ih]

theorem avoids_applyTransaction (h : b.memoryTree.CountsOn) (transaction : Transaction) :
    Avoids .divisionByZero (b.applyTransaction transaction) := by
  simp [applyTransaction, MemoryTree.avoids_applyTransaction h, avoids_notifyAll]

theorem applyTransaction_changeOf {label : Str} {stored : TreeNode} (hStored : b.memoryTree.getNode label = some stored)
    (hZero : stored.version.maxVersionSequence = 0) :
    b.applyTransaction (MemoryTree.changeOf label stored) = .error (.undefined .divisionByZero) := by
  rw [applyTransaction, MemoryTree.applyTransaction_changeOf hStored hZero, error_bind]

end SimpleBackend

namespace TransactionalBackend

variable {Callback : Type} {b : TransactionalBackend Callback}

theorem avoids_checkNoOverlap (labelRule : Str) (stack : Transaction) :
    Avoids .divisionByZero (checkNoOverlap labelRule stack) := by
  induction stack with
  | nil => exact avoids_ok ()
  | cons sub rest ih =>
      rw [checkNoOverlap]
      cases sub.parent.node with
      | none => exact ih
      | some parent =>
          rw [avoids_bind]
          refine ⟨fun hEq => ?_, fun overlaps _ => ?_⟩
          · cases checkLabelRuleOverlap_error hEq
          · cases overlaps with
            | false => exact ih
            | true => simp

theorem avoids_openTransactionLayer (h : b.tree.memoryTree.CountsOn) (node : TreeNode) :
    Avoids .divisionByZero (b.openTransactionLayer node) := by
  have hVersion : Avoids .divisionByZero (b.layerVersion node.getLabelRule) := by
    unfold layerVersion
    split
    · exact avoids_ok _
    · next stored hStored => simpa [TreeNodeVersion.avoids_nextNumber] using h _ _ hStored
  simp [openTransactionLayer, avoids_checkNoOverlap, hVersion]

/-- The first layer over a stored node gets to its maximum. -/
theorem openTransactionLayer_zero {node stored : TreeNode} (hStack : b.transactionStack = [])
    (hStored : b.tree.memoryTree.getNode node.getLabelRule = some stored) (hZero : stored.version.maxVersionSequence = 0) :
    b.openTransactionLayer node = .error (.undefined .divisionByZero) := by
  have hTree : b.tree.getNode node.getLabelRule = some stored := hStored
  simp [openTransactionLayer, hStack, checkNoOverlap, layerVersion, hTree, TreeNodeVersion.nextNumber, hZero]

end TransactionalBackend

end Wwatp
