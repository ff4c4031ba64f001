import Wwatp.Structure.Redirected

/-! A `RedirectedBackend` against the sub-tree it stands for, call by call and then over
runs. Each call has its own condition on the root under which the two agree. -/
namespace Wwatp

open Cxx

namespace SimpleBackend

variable {Callback : Type}

end SimpleBackend

section Subtree

variable {labelPrefix : Str} {t : MemoryTree}

end Subtree

section Delete

/-- The nodes stored below a label are stored under their own labels, and none of their
children's names starts with the prefix. -/
def OwnLabels (labelPrefix label : Str) (t : MemoryTree) : Prop :=
  ∀ key node, t.getNode key = some node → labelPrefix ++ label <+: key →
    node.labelRule = key ∧ ∀ child ∈ node.childNames, ¬ labelPrefix <+: child

variable {labelPrefix label : Str} {t : MemoryTree}

theorem OwnLabels.erase (h : OwnLabels labelPrefix label t) (key : Str) :
    OwnLabels labelPrefix label (t.erase key) := by
  intro other node hStored hBelow
  rw [MemoryTree.getNode_erase] at hStored
  split_ifs at hStored
  exact h other node hStored hBelow

/-- The children of a node below the label are the children in the sub-tree under the prefix. -/
theorem OwnLabels.children (h : OwnLabels labelPrefix label t) {current : Str} {node : TreeNode}
    (hStored : t.getNode (labelPrefix ++ current) = some node) (hBelow : label <+: current) :
    node.getAbsoluteChildNames =
        ((node.shortenLabels labelPrefix).getAbsoluteChildNames).map (labelPrefix ++ ·) ∧
      ∀ child ∈ (node.shortenLabels labelPrefix).getAbsoluteChildNames, label <+: child := by
  obtain ⟨hLabel, hChildren⟩ := h _ _ hStored ((List.prefix_append_right_inj _).mpr hBelow)
  have hShort : node.shortenLabels labelPrefix = { node with labelRule := current } := by
    by_cases hNil : labelPrefix = []
    · subst hNil
      rw [TreeNode.shortenLabels_nil]
      cases node
      simp_all
    · have hSame : node.childNames.map (shortenName labelPrefix) = node.childNames := by
        conv_rhs => rw [← List.map_id node.childNames]
        exact List.map_congr_left fun child hChild => if_neg (hChildren child hChild)
      rw [TreeNode.shortenLabels_of_ne hNil, hSame, hLabel, shortenName_append]
  rw [hShort]
  simp only [TreeNode.getAbsoluteChildNames, hLabel, List.map_map, List.mem_map]
  refine ⟨List.map_congr_left fun child _ => ?_, ?_⟩
  · simp
  · rintro _ ⟨child, -, rfl⟩
    rw [List.append_assoc]
    exact hBelow.trans (List.prefix_append _ _)

end Delete

section Lists

variable {labelPrefix : Str} {t : MemoryTree}

/-- The children a page lists are stored under the prefix, or nowhere. -/
def PageUnder (labelPrefix : Str) (t : MemoryTree) (pageNodeLabelRule : Str) : Prop :=
  ∀ page, t.getNode (labelPrefix ++ pageNodeLabelRule) = some page → ∀ child ∈ page.childNames,
    labelPrefix <+: child ∨ (t.getNode child = none ∧ t.getNode (labelPrefix ++ child) = none)

end Lists

/-- What a call asks of the root for a `RedirectedBackend` to answer it like the sub-tree:
names that do not start with the prefix on the way in, children's names that do on the way
out, and strings that the prefix does not confuse. -/
def Agrees (labelPrefix : Str) (t : MemoryTree) : TreeCall → Prop
  | .upsertNode nodes =>
      ∀ node ∈ nodes, ∀ name ∈ node.labelRule :: node.childNames, ¬ labelPrefix <+: name
  | .deleteNode labelRule =>
      t.getNode (labelPrefix ++ labelRule) = none ∨ OwnLabels labelPrefix labelRule t
  | .getNode _ => True
  | .getPageTree pageNodeLabelRule => PageUnder labelPrefix t pageNodeLabelRule
  | .relativeGetPageTree node pageNodeLabelRule =>
      PageUnder labelPrefix t pageNodeLabelRule ∧
        ∃ page relative, t.getNode (labelPrefix ++ pageNodeLabelRule) = some page ∧
          t.getNode (labelPrefix ++ (node.labelRule ++ str "/" ++ pageNodeLabelRule)) = some relative ∧
          page.childNames = relative.childNames
  | .queryNodes labelRule => ∀ key node, t.getNode key = some node →
      (labelPrefix ++ labelRule <:+: key ↔
        labelPrefix <+: key ∧ labelRule <:+: key.drop labelPrefix.length)
  | .getFullTree => ∀ key node, t.getNode key = some node →
      (labelPrefix <+: node.labelRule ↔ labelPrefix <+: key)

section Calls

variable {Callback : Type} {labelPrefix path : Str} (hPrefix : labelPrefix = path ++ [slash])

/-- The backend a `RedirectedBackend` stands for. -/
def view (labelPrefix : Str) (root : SimpleBackend Callback) : SimpleBackend Callback :=
  ⟨subtree labelPrefix root.memoryTree, .empty⟩

include hPrefix

end Calls

section Run

variable {Callback : Type}

end Run

end Wwatp
