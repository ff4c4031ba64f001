import Wwatp.Mediator.Network

/-! Trees that `operator==` cannot tell apart, and what a mediator's write does to two of
them. -/
namespace Wwatp

open Cxx

namespace TreeNode

/-- What `operator==` compares. -/
def compared (node : TreeNode) :=
  (node.labelRule, node.description, node.propertyInfos, node.version, node.childNames, node.queryHowTo.getD [],
    node.qaSequence, node.propertyData.bytes)

theorem equals_iff {node other : TreeNode} : node.equals other = true ↔ node.compared = other.compared := by
  simp only [equals, compared, Bool.and_eq_true, decide_eq_true_eq, Prod.mk.injEq, and_assoc]

theorem labelRule_eq_of_equals {node other : TreeNode} (h : node.equals other = true) :
    node.labelRule = other.labelRule :=
  congrArg Prod.fst (equals_iff.mp h)

theorem getAbsoluteChildNames_eq_of_equals {node other : TreeNode} (h : node.equals other = true) :
    node.getAbsoluteChildNames = other.getAbsoluteChildNames := by
  have hChildren : node.childNames = other.childNames :=
    congrArg (fun fields => fields.2.2.2.2.1) (equals_iff.mp h)
  rw [getAbsoluteChildNames, getAbsoluteChildNames, hChildren, labelRule_eq_of_equals h]

end TreeNode

theorem equalNodes_iff {node other : Option TreeNode} :
    equalNodes node other = true ↔ node.map TreeNode.compared = other.map TreeNode.compared := by
  cases node <;> cases other <;> simp [equalNodes, TreeNode.equals_iff]

theorem equalNodes_refl (node : Option TreeNode) : equalNodes node node = true := equalNodes_iff.mpr rfl

theorem equalNodes_symm {node other : Option TreeNode} (h : equalNodes node other = true) :
    equalNodes other node = true :=
  equalNodes_iff.mpr (equalNodes_iff.mp h).symm

theorem equalNodes_trans {node other last : Option TreeNode} (hFirst : equalNodes node other = true)
    (hSecond : equalNodes other last = true) : equalNodes node last = true :=
  equalNodes_iff.mpr ((equalNodes_iff.mp hFirst).trans (equalNodes_iff.mp hSecond))

/-- An equal node changes no comparison. -/
theorem equalNodes_congr {node other last : Option TreeNode} (h : equalNodes node other = true) :
    equalNodes last node = equalNodes last other := by
  rw [Bool.eq_iff_iff, equalNodes_iff, equalNodes_iff, equalNodes_iff.mp h]

theorem equalNodes_none_iff {node : Option TreeNode} : equalNodes none node = true ↔ node = none := by
  cases node <;> simp [equalNodes]

namespace MemoryTree

/-- The same labels hold equal nodes. -/
def Same (t u : MemoryTree) : Prop := ∀ key, equalNodes (t.getNode key) (u.getNode key) = true

namespace Same

variable {t u v : MemoryTree} {label : Str}

theorem refl (t : MemoryTree) : Same t t := fun _ => equalNodes_refl _

theorem symm (h : Same t u) : Same u t := fun key => equalNodes_symm (h key)

theorem trans (hFirst : Same t u) (hSecond : Same u v) : Same t v :=
  fun key => equalNodes_trans (hFirst key) (hSecond key)

theorem eq_none_iff (h : Same t u) : t.getNode label = none ↔ u.getNode label = none := by
  rw [← equalNodes_none_iff, ← equalNodes_none_iff, equalNodes_congr (h label)]

theorem getNode_eq_some {node : TreeNode} (h : Same t u) (hStored : t.getNode label = some node) :
    ∃ other, u.getNode label = some other ∧ node.equals other = true := by
  have hEqual := h label
  rw [hStored] at hEqual
  cases hOther : u.getNode label with
  | none =>
      rw [hOther] at hEqual
      cases hEqual
  | some other =>
      rw [hOther] at hEqual
      exact ⟨other, rfl, hEqual⟩

theorem put (h : Same t u) (label : Str) (node : Option TreeNode) : Same (t.put label node) (u.put label node) := by
  intro key
  rw [getNode_put, getNode_put]
  split_ifs
  · exact equalNodes_refl _
  · exact h key

theorem erase (h : Same t u) (label : Str) : Same (t.erase label) (u.erase label) := h.put label none

theorem deleteLoop (h : Same t u) (label : Str) (work : List Str) :
    Same (MemoryTree.deleteLoop label t work) (MemoryTree.deleteLoop label u work) := by
  refine MemoryTree.deleteLoop.induct label (fun t work => ∀ {u}, Same t u →
    Same (MemoryTree.deleteLoop label t work) (MemoryTree.deleteLoop label u work)) ?_ ?_ ?_ t work h
  · intro t u h
    rw [MemoryTree.deleteLoop, MemoryTree.deleteLoop]
    exact h
  · intro t current rest hNone ih u h
    rw [deleteLoop_of_none hNone, deleteLoop_of_none (h.eq_none_iff.mp hNone)]
    exact ih h
  · intro t current rest node hSome children ih u h
    obtain ⟨other, hOther, hEqual⟩ := h.getNode_eq_some hSome
    rw [deleteLoop_of_some hSome, deleteLoop_of_some hOther, ← TreeNode.getAbsoluteChildNames_eq_of_equals hEqual]
    exact ih (h.erase current)

theorem deleteNode (h : Same t u) (label : Str) : Same (t.deleteNode label).1 (u.deleteNode label).1 := by
  unfold MemoryTree.deleteNode
  cases hStored : t.getNode label with
  | none =>
      rw [h.eq_none_iff.mp hStored]
      exact h
  | some node =>
      obtain ⟨other, hOther, hEqual⟩ := h.getNode_eq_some hStored
      rw [hOther]
      dsimp only
      rw [← TreeNode.getAbsoluteChildNames_eq_of_equals hEqual]
      exact (h.erase label).deleteLoop label _

end Same
end MemoryTree
end Wwatp
