import Wwatp.Tree.Node

/-! The in-memory tree: a map from labels to nodes, changed by single writes,
by recursive deletions, and by transactions that name the versions they replace. -/
namespace Wwatp

open Cxx

/-- `MemoryTree`, with `tree_` as an ordered map. -/
structure MemoryTree where
  tree : Std.ExtTreeMap Str TreeNode

namespace MemoryTree

def empty : MemoryTree := ⟨∅⟩

def getNode (t : MemoryTree) (label : Str) : Option TreeNode := t.tree[label]?

def getNodes (t : MemoryTree) (labels : List Str) : List TreeNode := labels.filterMap t.getNode

/-- `tree_[label] = node`. The assignment is the copying one. -/
def set (t : MemoryTree) (label : Str) (node : TreeNode) : MemoryTree :=
  ⟨t.tree.insert label node.assign⟩

/-- `tree_.erase(label)`. -/
def erase (t : MemoryTree) (label : Str) : MemoryTree := ⟨t.tree.erase label⟩

/-- Store a node under a label, or remove the label where there is no node. -/
def put (t : MemoryTree) (label : Str) : Option TreeNode → MemoryTree
  | some node => t.set label node
  | none => t.erase label

def upsertNode (t : MemoryTree) (nodes : List TreeNode) : MemoryTree :=
  nodes.foldl (fun t node => t.set node.getLabelRule node) t

/-- Erasing a stored label leaves a smaller map. -/
theorem size_erase_lt {t : MemoryTree} {label : Str} {node : TreeNode}
    (h : t.getNode label = some node) : (t.erase label).tree.size < t.tree.size := by
  have hMem : label ∈ t.tree := by
    rw [Std.ExtTreeMap.mem_iff_isSome_getElem?]
    exact Option.isSome_of_eq_some h
  have hPos : 0 < t.tree.size := by
    rw [Nat.pos_iff_ne_zero]
    intro hZero
    rw [← Std.ExtTreeMap.eq_empty_iff_size_eq_zero] at hZero
    simp [hZero] at hMem
  rw [erase, Std.ExtTreeMap.size_erase, if_pos (Std.ExtTreeMap.mem_iff_contains.mp hMem)]
  omega

/-- The worklist loop of `deleteNode`; the head of the list is the back of the
vector. Only children whose label contains the deleted one are followed. -/
def deleteLoop (label : Str) (t : MemoryTree) : List Str → MemoryTree
  | [] => t
  | current :: rest =>
      match _h : t.getNode current with
      | none => deleteLoop label t rest
      | some node =>
          let children := node.getAbsoluteChildNames.filter fun child => label <:+: child
          deleteLoop label (t.erase current) (children.reverse ++ rest)
termination_by work => (t.tree.size, work.length)
decreasing_by
  · exact Prod.Lex.right _ (by simp)
  · exact Prod.Lex.left _ _ (size_erase_lt _h)

theorem deleteLoop_of_none {label current : Str} {t : MemoryTree} (h : t.getNode current = none)
    (rest : List Str) : deleteLoop label t (current :: rest) = deleteLoop label t rest := by
  rw [deleteLoop]
  split
  · rfl
  · next hStored =>
      rw [h] at hStored
      cases hStored

theorem deleteLoop_of_some {label current : Str} {t : MemoryTree} {node : TreeNode}
    (h : t.getNode current = some node) (rest : List Str) :
    deleteLoop label t (current :: rest) = deleteLoop label (t.erase current)
      ((node.getAbsoluteChildNames.filter fun child => label <:+: child).reverse ++ rest) := by
  rw [deleteLoop]
  split
  · next hStored =>
      rw [h] at hStored
      cases hStored
  · next hStored =>
      rw [h] at hStored
      obtain rfl := Option.some.inj hStored
      rfl

def deleteNode (t : MemoryTree) (label : Str) : MemoryTree × Bool :=
  match t.getNode label with
  | none => (t, false)
  | some node => (deleteLoop label (t.erase label) node.getAbsoluteChildNames.reverse, true)

def getFullTree (t : MemoryTree) : List TreeNode := t.tree.toList.map Prod.snd

/-- `queryNodes`: the nodes whose key contains the rule as a substring. -/
def queryNodes (t : MemoryTree) (rule : Str) : List TreeNode :=
  (t.tree.toList.filter fun entry => rule <:+: entry.1).map Prod.snd

/-- `getVersion().version_number` of the node stored under a label. -/
def storedVersion (t : MemoryTree) (label : Str) : Option UInt16 :=
  (t.getNode label).map fun node => node.version.versionNumber

/-- The check of one descendant in `canPerformSubTransaction`. -/
def canPerformChild (t : MemoryTree) (child : NewNodeVersion) : Bool :=
  match t.getNode child.labelRule with
  | some old =>
      match child.priorVersion with
      | none => child.node.isNone
      | some prior => old.version.versionNumber == prior
  | none => child.priorVersion.isNone

def canPerformSubTransaction (t : MemoryTree) (sub : SubTransaction) : Outcome Bool :=
  match t.getNode sub.parent.labelRule with
  | none => .ok sub.parent.priorVersion.isNone
  | some stored =>
      if some stored.version.versionNumber ≠ sub.parent.priorVersion then .ok false
      else do
        let next ← stored.version.nextNumber
        if some next ≠ sub.parent.node.map (fun node => node.version.versionNumber) then
          return false
        return sub.descendants.all t.canPerformChild

/-- `performSubTransaction`. The parent goes under its node's own label, each
descendant under the label of its change. It always returns true. -/
def performSubTransaction (t : MemoryTree) (sub : SubTransaction) : MemoryTree :=
  sub.descendants.foldl (fun t child => t.put child.labelRule child.node)
    (t.put sub.parentKey sub.parent.node)

/-- The exception for a sub-transaction that fails its check. -/
def notValid (sub : SubTransaction) : Fault :=
  .runtimeError (str "Transaction is not valid: " ++ sub.parent.labelRule ++
    str " with " ++ toDecimal sub.descendants.length ++ str " modified children.")

/-- The first loop of `applyTransaction`. -/
def checkSubTransactions (t : MemoryTree) : Transaction → Outcome Unit
  | [] => .ok ()
  | sub :: rest => do
      if ← t.canPerformSubTransaction sub then t.checkSubTransactions rest
      else throw (notValid sub)

/-- `applyTransaction`: all checks first, then all changes. -/
def applyTransaction (t : MemoryTree) (transaction : Transaction) : Outcome MemoryTree := do
  t.checkSubTransactions transaction
  return transaction.foldl performSubTransaction t

section Lookup

variable (t : MemoryTree) (label other : Str)

@[simp] theorem getNode_empty : empty.getNode label = none := by
  simp [empty, getNode]

@[simp] theorem getNode_set (node : TreeNode) :
    (t.set label node).getNode other = if label = other then some node.assign else t.getNode other := by
  simp [set, getNode, Std.ExtTreeMap.getElem?_insert]

@[simp] theorem getNode_erase :
    (t.erase label).getNode other = if label = other then none else t.getNode other := by
  simp [erase, getNode, Std.ExtTreeMap.getElem?_erase]

@[simp] theorem getNode_put (node : Option TreeNode) :
    (t.put label node).getNode other =
      if label = other then node.map TreeNode.assign else t.getNode other := by
  cases node <;> simp [put]

end Lookup

/-- Trees with the same nodes are equal. -/
theorem ext_getNode {t u : MemoryTree} (h : ∀ label, t.getNode label = u.getNode label) : t = u := by
  cases t
  cases u
  congr 1
  exact Std.ExtTreeMap.ext_getElem? fun label => h label

end MemoryTree
end Wwatp
