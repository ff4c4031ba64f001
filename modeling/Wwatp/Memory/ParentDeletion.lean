import Wwatp.Memory.OverlayRuns

/-! Transactions that delete the parent node of a sub-transaction. Performing one would erase the
parent, but the check asks for the number after the stored one, which a deletion does not carry. -/
namespace Wwatp

open Cxx

namespace MemoryTree

/-- The change that deletes a node of some version, together with changes of its children. -/
def parentDeletion (label : Str) (version : UInt16) (children : List NewNodeVersion) : SubTransaction :=
  ⟨⟨some version, label, none⟩, children⟩

/-- The deletion is accepted; then the parent and the deleted children are absent, and the other
children are stored. -/
def DeletesParent (t : MemoryTree) (label : Str) (version : UInt16) (children : List NewNodeVersion) : Prop :=
  ∃ u, t.applyTransaction [parentDeletion label version children] = .ok u ∧ u.getNode label = none ∧
    ∀ child ∈ children, u.getNode child.labelRule = child.node.map TreeNode.assign

/-- Without a check every child would get what its change says. -/
theorem getNode_putAll_of_mem (t : MemoryTree) {changes : List NewNodeVersion}
    (hLabels : (changes.map NewNodeVersion.labelRule).Nodup) {child : NewNodeVersion} (h : child ∈ changes) :
    (changes.foldl (fun t child => t.put child.labelRule child.node) t).getNode child.labelRule =
      child.node.map TreeNode.assign := by
  induction changes generalizing t with
  | nil => cases h
  | cons first rest ih =>
      obtain ⟨hFirst, hRest⟩ := List.nodup_cons.mp hLabels
      rw [List.foldl_cons]
      rcases List.mem_cons.mp h with rfl | hLater
      · rw [getNode_putAll _ _ hFirst, getNode_put, if_pos rfl]
      · exact ih _ hRest hLater

/-- What `performSubTransaction` does with the deletion of a parent. -/
theorem performSubTransaction_parentDeletion (t : MemoryTree) {label : Str} (version : UInt16)
    {children : List NewNodeVersion} (hLabels : (label :: children.map NewNodeVersion.labelRule).Nodup) :
    (t.performSubTransaction (parentDeletion label version children)).getNode label = none ∧
      ∀ child ∈ children, (t.performSubTransaction (parentDeletion label version children)).getNode child.labelRule =
        child.node.map TreeNode.assign := by
  obtain ⟨hLabel, hChildren⟩ := List.nodup_cons.mp hLabels
  constructor
  · rw [performSubTransaction]
    simp [parentDeletion, getNode_putAll _ _ hLabel, SubTransaction.parentKey]
  · intro child hChild
    exact getNode_putAll_of_mem _ hChildren hChild

/-- A stored parent that is to be deleted never passes the check: the number after the stored one is
compared with nothing. -/
theorem canPerformSubTransaction_deleted {t : MemoryTree} {sub : SubTransaction} {stored : TreeNode}
    (hStored : t.getNode sub.parent.labelRule = some stored) (hDeleted : sub.parent.node = none) :
    t.canPerformSubTransaction sub ≠ .ok true := by
  intro hPerform
  obtain ⟨hParent, -⟩ := canPerformSubTransaction_eq_true.mp hPerform
  obtain ⟨next, -, hNext⟩ := hParent.2 stored hStored
  simp [hDeleted] at hNext

/-- A transaction that deletes the stored parent of one of its sub-transactions is refused. -/
theorem applyTransaction_deleted {t : MemoryTree} {transaction : Transaction} {sub : SubTransaction}
    (hMem : sub ∈ transaction) {stored : TreeNode} (hStored : t.getNode sub.parent.labelRule = some stored)
    (hDeleted : sub.parent.node = none) (u : MemoryTree) : t.applyTransaction transaction ≠ .ok u := by
  intro hApply
  obtain ⟨hChecked, -⟩ := applyTransaction_eq_ok.mp hApply
  exact canPerformSubTransaction_deleted hStored hDeleted (hChecked sub hMem)

/-- No stored parent can be deleted by a transaction, whatever its version and its children. -/
theorem not_deletesParent {t : MemoryTree} {label : Str} {stored : TreeNode} (hStored : t.getNode label = some stored)
    (children : List NewNodeVersion) : ¬t.DeletesParent label stored.version.versionNumber children := by
  rintro ⟨u, hApply, -⟩
  exact applyTransaction_deleted List.mem_cons_self hStored rfl u hApply

/-- The node `A` in version 0, without children. -/
theorem not_deletesParent_single :
    ¬(empty.set (str "A") { labelRule := str "A" }).DeletesParent (str "A") 0 [] := by
  have hStored : (empty.set (str "A") { labelRule := str "A" }).getNode (str "A") =
      some (TreeNode.assign { labelRule := str "A" }) := by simp
  exact not_deletesParent hStored []

/-- The expected version of `A` is the stored one, there are no children, and the deletion is refused. -/
theorem not_deletesParent_matching :
    ¬∀ (t : MemoryTree) (label : Str) (stored : TreeNode) (children : List NewNodeVersion),
      t.getNode label = some stored → (∀ child ∈ children, t.ChildExpected child) →
        t.DeletesParent label stored.version.versionNumber children := by
  intro hDeletes
  have hNode := getNode_set empty (str "A") (str "A") { labelRule := str "A" }
  rw [if_pos rfl] at hNode
  obtain ⟨u, hApply, -⟩ := hDeletes _ (str "A") _ [] hNode (by simp)
  exact applyTransaction_deleted List.mem_cons_self hNode rfl u hApply

end MemoryTree

namespace TransactionalBackend

variable {Callback : Type}

/-- Layers of which one was deleted over a stored node cannot be closed. -/
theorem closeTransactionLayers_deleted {b : TransactionalBackend Callback} {sub : SubTransaction}
    (hMem : sub ∈ b.transactionStack) {stored : TreeNode} (hStored : b.tree.getNode sub.parent.labelRule = some stored)
    (hDeleted : sub.parent.node = none) (closed : TransactionalBackend Callback × List (Notice Callback)) :
    b.closeTransactionLayers ≠ .ok closed := by
  intro hClose
  rw [closeTransactionLayers, if_neg (List.ne_nil_of_mem hMem)] at hClose
  obtain ⟨⟨tree, notices⟩, hApply, -⟩ := Outcome.bind_eq_ok.mp hClose
  exact MemoryTree.applyTransaction_deleted hMem hStored hDeleted _ (SimpleBackend.applyTransaction_tree hApply)

/-- A layer that is opened on a stored node and deleted stays open for good. -/
theorem closeTransactionLayers_of_deleteNode {b opened deleted : TransactionalBackend Callback} {node stored : TreeNode}
    {notices : List (Notice Callback)} (hStack : b.transactionStack = [])
    (hStored : b.tree.getNode node.labelRule = some stored) (hOpen : b.openTransactionLayer node = .ok opened)
    (hDelete : opened.deleteNode node.labelRule = .ok (deleted, notices))
    (closed : TransactionalBackend Callback × List (Notice Callback)) :
    deleted.closeTransactionLayers ≠ .ok closed := by
  obtain ⟨-, prior, rfl⟩ := openTransactionLayer_ok hOpen
  have hDeleted : deleted = { b with transactionStack := [⟨⟨prior, node.labelRule, none⟩, []⟩] } := by
    simp [deleteNode, hStack, trackDelete, checkLabelRuleOverlap_self] at hDelete
    exact hDelete.1.symm
  subst hDeleted
  exact closeTransactionLayers_deleted List.mem_cons_self hStored rfl closed

end TransactionalBackend

end Wwatp
