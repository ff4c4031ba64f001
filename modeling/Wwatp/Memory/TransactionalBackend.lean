import Wwatp.Memory.SimpleBackend

/-! `TransactionalBackend`: while layers are open, writes are recorded in the
transaction stack and reads search it before they ask the backend underneath. -/
namespace Wwatp

open Cxx

structure TransactionalBackend (Callback : Type) where
  tree : SimpleBackend Callback
  transactionStack : Transaction

namespace TransactionalBackend

variable {Callback : Type}

/-- The node of a child change, if it is stored under exactly this label. -/
def childNode (labelRule : Str) (child : NewNodeVersion) : Option TreeNode :=
  child.node.filter fun node => node.getLabelRule = labelRule

/-- The loop of `getNode` over the stack. -/
def findTracked (labelRule : Str) : Transaction → Outcome (Option TreeNode)
  | [] => .ok none
  | sub :: rest =>
      match sub.parent.node with
      | none => findTracked labelRule rest
      | some parent => do
          if ← checkLabelRuleOverlap labelRule parent.getLabelRule then
            if labelRule = parent.getLabelRule then return some parent
            match sub.descendants.findSome? (childNode labelRule) with
            | some node => return some node
            | none => findTracked labelRule rest
          else findTracked labelRule rest

def getNode (b : TransactionalBackend Callback) (labelRule : Str) : Outcome (Option TreeNode) := do
  match ← findTracked labelRule b.transactionStack with
  | some node => return some node
  | none => return b.tree.getNode labelRule

/-- Replace the node of the first child change that holds a node with this label. -/
def replaceChild (labelRule : Str) (node : Option TreeNode) :
    List NewNodeVersion → Option (List NewNodeVersion)
  | [] => none
  | child :: rest =>
      if (childNode labelRule child).isSome then some ({ child with node := node } :: rest)
      else (replaceChild labelRule node rest).map (child :: ·)

/-- The loop of `upsertNode` over the stack, for one node: the changed stack, or
`none` when no layer tracks the node's label. -/
def trackUpsert (node : TreeNode) : Transaction → Outcome (Option Transaction)
  | [] => .ok none
  | sub :: rest =>
      let skip : Outcome (Option Transaction) := do
        return (← trackUpsert node rest).map (sub :: ·)
      match sub.parent.node with
      | none => skip
      | some parent => do
          if ← checkLabelRuleOverlap node.getLabelRule parent.getLabelRule then
            if node.getLabelRule = parent.getLabelRule then
              return some ({ sub with parent := { sub.parent with node := some node } } :: rest)
            match replaceChild node.getLabelRule (some node) sub.descendants with
            | some descendants => return some ({ sub with descendants := descendants } :: rest)
            | none => skip
          else skip

/-- The loop of `upsertNode` over the nodes. It returns at the first node that a
layer tracks. -/
def upsertTracked : List TreeNode → Transaction → Outcome Transaction
  | [], stack => .ok stack
  | node :: rest, stack => do
      match ← trackUpsert node stack with
      | some changed => return changed
      | none => upsertTracked rest stack

def upsertNode (b : TransactionalBackend Callback) (nodes : List TreeNode) :
    Outcome (TransactionalBackend Callback × List (Notice Callback)) :=
  if b.transactionStack = [] then do
    let (tree, notices) ← b.tree.upsertNode nodes
    return ({ b with tree := tree }, notices)
  else do
    let stack ← upsertTracked nodes b.transactionStack
    return ({ b with transactionStack := stack }, [])

/-- The loop of `deleteNode` over the stack. The first overlapping layer takes
the deletion, as a new child change if it does not track the label yet. -/
def trackDelete (labelRule : Str) : Transaction → Outcome Transaction
  | [] => throw (.runtimeError
      (str "Trying to delete a node in a transaction that is not tracked in the transaction stack"))
  | sub :: rest =>
      let skip : Outcome Transaction := do
        return sub :: (← trackDelete labelRule rest)
      match sub.parent.node with
      | none => skip
      | some parent => do
          if ← checkLabelRuleOverlap labelRule parent.getLabelRule then
            if labelRule = parent.getLabelRule then
              return { sub with parent := { sub.parent with node := none } } :: rest
            match replaceChild labelRule none sub.descendants with
            | some descendants => return { sub with descendants := descendants } :: rest
            | none =>
                return { sub with descendants := sub.descendants ++ [⟨none, labelRule, none⟩] } :: rest
          else skip

def deleteNode (b : TransactionalBackend Callback) (labelRule : Str) :
    Outcome (TransactionalBackend Callback × List (Notice Callback)) :=
  if b.transactionStack = [] then do
    let (tree, notices) ← b.tree.deleteNode labelRule
    return ({ b with tree := tree }, notices)
  else do
    let stack ← trackDelete labelRule b.transactionStack
    return ({ b with transactionStack := stack }, [])

/-- The check of `openTransactionLayer`: no open layer overlaps the label. -/
def checkNoOverlap (labelRule : Str) : Transaction → Outcome Unit
  | [] => .ok ()
  | sub :: rest =>
      match sub.parent.node with
      | none => checkNoOverlap labelRule rest
      | some parent => do
          if ← checkLabelRuleOverlap labelRule parent.getLabelRule then
            throw (.runtimeError (str "Label rule overlap detected in transaction stack"))
          else checkNoOverlap labelRule rest

/-- The version a new layer expects to replace: none for an absent node, the
number after the stored one otherwise. -/
def layerVersion (b : TransactionalBackend Callback) (labelRule : Str) : Outcome (Option UInt16) :=
  match b.tree.getNode labelRule with
  | none => .ok none
  | some stored => do return some (← stored.getVersion.nextNumber)

def openTransactionLayer (b : TransactionalBackend Callback) (node : TreeNode) :
    Outcome (TransactionalBackend Callback) := do
  checkNoOverlap node.getLabelRule b.transactionStack
  let prior ← b.layerVersion node.getLabelRule
  let layer : SubTransaction := ⟨⟨prior, node.getLabelRule, some node⟩, []⟩
  return { b with transactionStack := b.transactionStack ++ [layer] }

def closeTransactionLayers (b : TransactionalBackend Callback) :
    Outcome (TransactionalBackend Callback × List (Notice Callback)) :=
  if b.transactionStack = [] then .ok (b, [])
  else do
    let (tree, notices) ← b.tree.applyTransaction b.transactionStack
    return (⟨tree, []⟩, notices)

end TransactionalBackend
end Wwatp
