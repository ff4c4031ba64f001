import Wwatp.Transport.SharedSpan

/-! Tree nodes, their versions, and the changes a transaction is made of. -/
namespace Wwatp

open Cxx

structure TreeNodeVersion where
  versionNumber : UInt16 := 0
  maxVersionSequence : UInt16 := 256
  policy : Str := str "default"
  authorialProof : Option Str := none
  authors : Option Str := none
  readers : Option Str := none
  collisionDepth : Option Int32 := none
  deriving DecidableEq, Repr

/-- `(version_number + 1) % max_version_sequence`, the number after this one. -/
def TreeNodeVersion.nextNumber (v : TreeNodeVersion) : Outcome UInt16 :=
  if v.maxVersionSequence = 0 then throw (.undefined .divisionByZero)
  else .ok (.ofNat ((v.versionNumber.toNat + 1) % v.maxVersionSequence.toNat))

/-- The type and the name of a property. -/
abbrev PropertyInfo := Str × Str

structure TreeNode where
  labelRule : Str := []
  description : Str := []
  propertyInfos : List PropertyInfo := []
  version : TreeNodeVersion := {}
  childNames : List Str := []
  propertyData : SharedSpan := .empty
  queryHowTo : Option Str := none
  qaSequence : Option Str := none
  deriving DecidableEq, Repr

namespace TreeNode

abbrev getLabelRule (n : TreeNode) : Str := n.labelRule

abbrev getVersion (n : TreeNode) : TreeNodeVersion := n.version

/-- The copy assignment `operator=`. It views the property data through `restrict`;
the copy constructor shares it as it is. -/
def assign (other : TreeNode) : TreeNode :=
  { other with propertyData := other.propertyData.restrict 0 other.propertyData.size }

/-- The labels under which the children are stored. -/
def getAbsoluteChildNames (n : TreeNode) : List Str :=
  n.childNames.map fun child => n.labelRule ++ str "/" ++ child

/-- Two nodes that differ at most in how their property data is cut into chunks. -/
def SameNode (a b : TreeNode) : Prop :=
  { a with propertyData := .empty } = { b with propertyData := SharedSpan.empty } ∧
    a.propertyData.bytes = b.propertyData.bytes

namespace SameNode

theorem refl (a : TreeNode) : SameNode a a := ⟨rfl, rfl⟩

theorem symm {a b : TreeNode} (h : SameNode a b) : SameNode b a := ⟨h.1.symm, h.2.symm⟩

theorem trans {a b c : TreeNode} (hab : SameNode a b) (hbc : SameNode b c) : SameNode a c :=
  ⟨hab.1.trans hbc.1, hab.2.trans hbc.2⟩

end SameNode

@[simp] theorem assign_labelRule (n : TreeNode) : n.assign.labelRule = n.labelRule := rfl

@[simp] theorem assign_version (n : TreeNode) : n.assign.version = n.version := rfl

end TreeNode

/-- `NewNodeVersion`: the version a change expects to replace, and the change. -/
structure NewNodeVersion where
  priorVersion : Option UInt16
  labelRule : Str
  node : Option TreeNode
  deriving DecidableEq, Repr

/-- `SubTransaction`: a change of a parent node and of some of its descendants. -/
structure SubTransaction where
  parent : NewNodeVersion
  descendants : List NewNodeVersion
  deriving DecidableEq, Repr

/-- The label the parent of a sub-transaction is written or erased under. -/
def SubTransaction.parentKey (sub : SubTransaction) : Str :=
  match sub.parent.node with
  | some node => node.getLabelRule
  | none => sub.parent.labelRule

abbrev Transaction := List SubTransaction

/-- `Notification` with its place in the journal. -/
structure SequentialNotification where
  number : UInt64
  labelRule : Str
  node : Option TreeNode
  deriving DecidableEq, Repr

end Wwatp
