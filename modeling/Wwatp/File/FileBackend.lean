import Wwatp.File.NodeFiles
import Wwatp.Memory.MemoryTree

/-! The operations of the file backend. The files are read again for each of them; nothing is
kept in memory. -/
namespace Wwatp

open Cxx

namespace FileBackend

variable (b : FileBackend)

def getNode (labelRule : Str) (fs : FileSystem) : Outcome (Option TreeNode) :=
  b.readNodeFromFiles labelRule fs

/-- The properties that a node no longer has, with their places. -/
def missingProperties (old node : TreeNode) : List (PropertyInfo × ℕ) :=
  old.propertyInfos.zipIdx.filter fun (info, _) => info ∉ node.propertyInfos

/-- The loop of `upsertNode` over the missing properties, which removes their content files. -/
def removeMissing (labelRule : Str) : List (PropertyInfo × ℕ) → Effectful Disk Bool :=
  Effectful.forAll fun (info, order) =>
    let fileName := getContentFileName b.basePath labelRule order info
    if b.refuses fileName then pure true else b.removeFile fileName

/-- What `upsertNode` does about the node that was there. -/
def removeStale (node : TreeNode) : Option TreeNode → Effectful Disk Bool
  | none => pure true
  | some old => b.removeMissing node.getLabelRule (missingProperties old node)

def upsertNode : List TreeNode → Effectful Disk Bool
  | [] => pure true
  | node :: rest => do
    let old ← Effectful.inspect fun d => b.getNode node.getLabelRule d.files
    if ← b.removeStale node old then
      if ← b.writeNodeToFiles node then upsertNode rest else return false
    else return false

def deleteNode (labelRule : Str) : Effectful Disk Bool := b.deleteNodeFiles labelRule true

/-- The check of one descendant in `canPerformSubTransaction`. -/
def canPerformChild (fs : FileSystem) (child : NewNodeVersion) : Outcome Bool := do
  match ← b.readNodeFromFiles child.labelRule fs with
  | some old =>
    return match child.priorVersion with
      | none => child.node.isNone
      | some prior => old.version.versionNumber = prior
  | none => return child.priorVersion.isNone

/-- The loop of `canPerformSubTransaction` over the descendants. -/
def canPerformChildren (fs : FileSystem) : List NewNodeVersion → Outcome Bool
  | [] => .ok true
  | child :: rest => do
    if ← b.canPerformChild fs child then canPerformChildren fs rest else return false

def canPerformSubTransaction (fs : FileSystem) (sub : SubTransaction) : Outcome Bool :=
  if ¬ fs.fileExists b.cwd (getNodeFileName b.basePath sub.parent.labelRule) then
    .ok sub.parent.priorVersion.isNone
  else do
    match ← b.readNodeFromFiles sub.parent.labelRule fs, sub.parent.priorVersion with
    | none, prior => return prior.isNone
    | some _, none => return false
    | some stored, some prior =>
      if stored.version.versionNumber ≠ prior then return false
      let next ← stored.version.nextNumber
      if some next ≠ sub.parent.node.map (fun node => node.version.versionNumber) then return false
      b.canPerformChildren fs sub.descendants

/-- The loop of `applyTransaction` that checks the sub-transactions. -/
def checkSubTransactions (fs : FileSystem) : Transaction → Outcome Unit
  | [] => .ok ()
  | sub :: rest => do
    if ← b.canPerformSubTransaction fs sub then checkSubTransactions fs rest
    else throw (MemoryTree.notValid sub)

/-- A change of `performSubTransaction`. Whether it went well is not looked at. -/
def performChange (change : NewNodeVersion) : Effectful Disk Unit := do
  let _ ← (match change.node with
    | some node => b.writeNodeToFiles node
    | none => b.deleteNodeFiles change.labelRule true)
  return ()

/-- `performSubTransaction`, which returns true. -/
def performSubTransaction (sub : SubTransaction) : Effectful Disk Unit :=
  Effectful.forEach b.performChange (sub.parent :: sub.descendants)

/-- `applyTransaction`, which returns true where it does not throw. -/
def applyTransaction (transaction : Transaction) : Effectful Disk Unit := do
  Effectful.inspect fun d => b.checkSubTransactions d.files transaction
  Effectful.forEach b.performSubTransaction transaction

end FileBackend

end Wwatp
