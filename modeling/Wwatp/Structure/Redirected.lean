import Wwatp.Cxx.OrderedMap
import Wwatp.Memory.SimpleBackend
import Wwatp.Tree.Labels

/-! `RedirectedBackend`: a root backend seen through a label prefix. What it should show
is the part of the root under the prefix, with the prefix taken off. -/
namespace Wwatp

open Cxx

section Subtree

variable (labelPrefix : Str) (t : MemoryTree)

/-- The entries under a label prefix, with the prefix taken off. -/
def entriesUnder : List (Str × TreeNode) :=
  t.tree.toList.filterMap fun entry =>
    if labelPrefix <+: entry.1 then
      some (entry.1.drop labelPrefix.length, entry.2.shortenLabels labelPrefix)
    else none

/-- The nodes under a label prefix as a tree of their own. -/
def subtree : MemoryTree := ⟨Std.ExtTreeMap.ofList (entriesUnder labelPrefix t)⟩

variable {labelPrefix t}

end Subtree

/-- The calls a backend answers about its tree. -/
inductive TreeCall
  | upsertNode (nodes : List TreeNode)
  | deleteNode (labelRule : Str)
  | getNode (labelRule : Str)
  | getPageTree (pageNodeLabelRule : Str)
  | relativeGetPageTree (node : TreeNode) (pageNodeLabelRule : Str)
  | queryNodes (labelRule : Str)
  | getFullTree

inductive TreeReply
  | done (success : Bool)
  | node (node : Option TreeNode)
  | nodes (nodes : List TreeNode)

namespace SimpleBackend

variable {Callback : Type}

/-- A call of a `SimpleBackend`: the backend after it and what it returns. -/
def call (b : SimpleBackend Callback) : TreeCall → Outcome (SimpleBackend Callback × TreeReply)
  | .upsertNode nodes => do
      let (after, _) ← b.upsertNode nodes
      return (after, .done true)
  | .deleteNode labelRule => do
      let (after, _) ← b.deleteNode labelRule
      return (after, .done true)
  | .getNode labelRule => .ok (b, .node (b.getNode labelRule))
  | .getPageTree pageNodeLabelRule => .ok (b, .nodes (b.getPageTree pageNodeLabelRule))
  | .relativeGetPageTree node pageNodeLabelRule => do
      let nodes ← b.relativeGetPageTree node pageNodeLabelRule
      return (b, .nodes nodes)
  | .queryNodes labelRule => .ok (b, .nodes (b.queryNodes labelRule))
  | .getFullTree => .ok (b, .nodes b.getFullTree)

end SimpleBackend

namespace RedirectedBackend

variable {Callback : Type}

variable (labelPrefix : Str)

def getNode (root : SimpleBackend Callback) (labelRule : Str) : Option TreeNode :=
  (root.getNode (labelPrefix ++ labelRule)).map fun node => node.shortenLabels labelPrefix

def upsertNode (root : SimpleBackend Callback) : List TreeNode → Outcome (SimpleBackend Callback)
  | [] => .ok root
  | node :: rest => do
      let newNode ← node.prefixLabels labelPrefix
      let (next, _) ← root.upsertNode [newNode]
      upsertNode next rest

def getPageTree (root : SimpleBackend Callback) (pageNodeLabelRule : Str) : List TreeNode :=
  (root.getPageTree (labelPrefix ++ pageNodeLabelRule)).map fun node => node.shortenLabels labelPrefix

/-- `relativeGetPageTree`. The label below the node is built and not used. -/
def relativeGetPageTree (root : SimpleBackend Callback) (_node : TreeNode) (pageNodeLabelRule : Str) :
    List TreeNode :=
  getPageTree labelPrefix root pageNodeLabelRule

def queryNodes (root : SimpleBackend Callback) (labelRule : Str) : List TreeNode :=
  (root.queryNodes (labelPrefix ++ labelRule)).map fun node => node.shortenLabels labelPrefix

/-- `getFullTree`: the nodes whose own label starts with the prefix. -/
def getFullTree (root : SimpleBackend Callback) : List TreeNode :=
  (root.getFullTree.filter fun node => labelPrefix <+: node.getLabelRule).map fun node =>
    node.shortenLabels labelPrefix

/-- A call of a `RedirectedBackend`: the root after it and what it returns. -/
def call (root : SimpleBackend Callback) : TreeCall → Outcome (SimpleBackend Callback × TreeReply)
  | .upsertNode nodes => do
      let after ← upsertNode labelPrefix root nodes
      return (after, .done true)
  | .deleteNode labelRule => do
      let (after, _) ← root.deleteNode (labelPrefix ++ labelRule)
      return (after, .done true)
  | .getNode labelRule => .ok (root, .node (getNode labelPrefix root labelRule))
  | .getPageTree pageNodeLabelRule => .ok (root, .nodes (getPageTree labelPrefix root pageNodeLabelRule))
  | .relativeGetPageTree node pageNodeLabelRule =>
      .ok (root, .nodes (relativeGetPageTree labelPrefix root node pageNodeLabelRule))
  | .queryNodes labelRule => .ok (root, .nodes (queryNodes labelPrefix root labelRule))
  | .getFullTree => .ok (root, .nodes (getFullTree labelPrefix root))

end RedirectedBackend
end Wwatp
