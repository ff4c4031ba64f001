import Wwatp.Memory.Listeners
import Wwatp.Memory.MemoryTree

/-! `SimpleBackend`: a memory tree with listeners. Each operation returns the
backend after it and the callbacks it made, in order. -/
namespace Wwatp

open Cxx

/-- One call of a listener's callback. -/
structure Notice (Callback : Type) where
  rule : Str
  listener : ListenerInfo Callback
  labelRule : Str
  node : Option TreeNode

structure SimpleBackend (Callback : Type) where
  memoryTree : MemoryTree
  nodeListeners : ListenerTable Callback

namespace SimpleBackend

variable {Callback : Type}

def getNode (b : SimpleBackend Callback) (labelRule : Str) : Option TreeNode :=
  b.memoryTree.getNode labelRule

def notifyListeners (b : SimpleBackend Callback) (labelRule : Str) (node : Option TreeNode) :
    Outcome (List (Notice Callback)) := do
  let called ← b.nodeListeners.notifyListeners labelRule
  return called.map fun call => ⟨call.1, call.2, labelRule, node⟩

/-- `notifyListeners` for several changes in turn. -/
def notifyAll (b : SimpleBackend Callback) :
    List (Str × Option TreeNode) → Outcome (List (Notice Callback))
  | [] => .ok []
  | (labelRule, node) :: rest => do
      let called ← b.notifyListeners labelRule node
      let more ← b.notifyAll rest
      return called ++ more

def upsertNode (b : SimpleBackend Callback) (nodes : List TreeNode) :
    Outcome (SimpleBackend Callback × List (Notice Callback)) := do
  let after := { b with memoryTree := b.memoryTree.upsertNode nodes }
  let notices ← after.notifyAll (nodes.map fun node => (node.getLabelRule, some node))
  return (after, notices)

def deleteNode (b : SimpleBackend Callback) (labelRule : Str) :
    Outcome (SimpleBackend Callback × List (Notice Callback)) := do
  let after := { b with memoryTree := (b.memoryTree.deleteNode labelRule).1 }
  let notices ← after.notifyListeners labelRule none
  return (after, notices)

/-- `getPageTree`: the nodes whose labels a page node lists as its children. -/
def getPageTree (b : SimpleBackend Callback) (pageNodeLabelRule : Str) : List TreeNode :=
  match b.memoryTree.getNode pageNodeLabelRule with
  | none => []
  | some page => b.memoryTree.getNodes page.childNames

def relativeGetPageTree (b : SimpleBackend Callback) (node : TreeNode) (pageNodeLabelRule : Str) :
    Outcome (List TreeNode) :=
  let fullLabelRule := node.getLabelRule ++ str "/" ++ pageNodeLabelRule
  match b.memoryTree.getNode fullLabelRule with
  | none => throw (.runtimeError (str "Page node not found: " ++ fullLabelRule))
  | some _ => .ok (b.getPageTree fullLabelRule)

def queryNodes (b : SimpleBackend Callback) (labelRule : Str) : List TreeNode :=
  b.memoryTree.queryNodes labelRule

def relativeQueryNodes (b : SimpleBackend Callback) (node : TreeNode) (labelRule : Str) : List TreeNode :=
  b.queryNodes (node.getLabelRule ++ str "/" ++ labelRule)

def openTransactionLayer (_ : SimpleBackend Callback) (_ : TreeNode) : Outcome Unit :=
  throw (.runtimeError (str "SimpleBackend does not support opening transaction layers"))

def closeTransactionLayers (_ : SimpleBackend Callback) : Outcome Unit :=
  throw (.runtimeError (str "SimpleBackend does not support closing transaction layers"))

def getFullTree (b : SimpleBackend Callback) : List TreeNode := b.memoryTree.getFullTree

/-- `applyTransaction`: once the tree has accepted it, every change is announced
under the label of the change. -/
def applyTransaction (b : SimpleBackend Callback) (transaction : Transaction) :
    Outcome (SimpleBackend Callback × List (Notice Callback)) := do
  let tree ← b.memoryTree.applyTransaction transaction
  let after := { b with memoryTree := tree }
  let notices ← after.notifyAll (transaction.flatMap fun sub =>
    (sub.parent :: sub.descendants).map fun change => (change.labelRule, change.node))
  return (after, notices)

/-- A transaction that returns has put the tree's own result in place. -/
theorem applyTransaction_tree {b after : SimpleBackend Callback} {transaction : Transaction}
    {notices : List (Notice Callback)} (h : b.applyTransaction transaction = .ok (after, notices)) :
    b.memoryTree.applyTransaction transaction = .ok after.memoryTree := by
  simp only [applyTransaction, Outcome.bind_eq_ok, Outcome.pure_eq_ok, Except.ok.injEq,
    Prod.mk.injEq] at h
  obtain ⟨tree, hTree, notices', -, rfl, -⟩ := h
  exact hTree

end SimpleBackend
end Wwatp
