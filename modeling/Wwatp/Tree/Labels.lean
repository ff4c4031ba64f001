import Wwatp.Memory.LabelRule
import Wwatp.Tree.Node

/-! The labels of a node under a label prefix: `prefixLabels` puts the prefix in front of
the names that lack it, `shortenLabels` takes it off the names that have it. -/
namespace Wwatp

open Cxx

/-- A name under a label prefix, unless it is already. -/
def prefixName (labelPrefix name : Str) : Str :=
  if labelPrefix <+: name then name else labelPrefix ++ name

/-- A name without a label prefix it starts with. -/
def shortenName (labelPrefix name : Str) : Str :=
  if labelPrefix <+: name then name.drop labelPrefix.length else name

/-- The names that shortening and prefixing bring back: the prefix is there, and not twice. -/
def CarriesOnce (labelPrefix name : Str) : Prop :=
  ∃ rest, name = labelPrefix ++ rest ∧ ¬ labelPrefix <+: rest

theorem carriesOnce_iff {labelPrefix name : Str} : CarriesOnce labelPrefix name ↔
    labelPrefix <+: name ∧ ¬ labelPrefix <+: name.drop labelPrefix.length := by
  constructor
  · rintro ⟨rest, rfl, hOnce⟩
    rw [List.drop_left]
    exact ⟨List.prefix_append _ _, hOnce⟩
  · rintro ⟨⟨rest, rfl⟩, hOnce⟩
    rw [List.drop_left] at hOnce
    exact ⟨rest, rfl, hOnce⟩

instance (labelPrefix name : Str) : Decidable (CarriesOnce labelPrefix name) :=
  decidable_of_iff _ carriesOnce_iff.symm

theorem shortenName_append (labelPrefix rest : Str) :
    shortenName labelPrefix (labelPrefix ++ rest) = rest := by
  rw [shortenName, if_pos (List.prefix_append _ _), List.drop_left]

theorem prefixName_of_not_prefix {labelPrefix name : Str} (h : ¬ labelPrefix <+: name) :
    prefixName labelPrefix name = labelPrefix ++ name := if_neg h

/-- A name comes back from shortening and prefixing exactly when it carries the prefix once. -/
theorem prefixName_shortenName_iff {labelPrefix name : Str} :
    prefixName labelPrefix (shortenName labelPrefix name) = name ↔
      CarriesOnce labelPrefix name ∨ labelPrefix = [] := by
  by_cases hPrefix : labelPrefix <+: name
  · obtain ⟨rest, rfl⟩ := hPrefix
    rw [shortenName_append, prefixName]
    split_ifs with hTwice
    · constructor
      · intro h
        have hLength := congrArg List.length h
        rw [List.length_append] at hLength
        exact .inr (List.length_eq_zero_iff.mp (by omega))
      · rintro (⟨rest', hRest, hOnce⟩ | rfl)
        · exact absurd hTwice (List.append_cancel_left hRest ▸ hOnce)
        · rfl
    · simp only [true_iff]
      exact .inl ⟨rest, rfl, hTwice⟩
  · have hShort : shortenName labelPrefix name = name := if_neg hPrefix
    rw [hShort, prefixName_of_not_prefix hPrefix]
    constructor
    · intro h
      have hLength := congrArg List.length h
      rw [List.length_append] at hLength
      exact .inr (List.length_eq_zero_iff.mp (by omega))
    · rintro (⟨rest, rfl, -⟩ | rfl)
      · exact absurd (List.prefix_append _ _) hPrefix
      · rfl

namespace TreeNode

/-- `prefixLabels`. -/
def prefixLabels (n : TreeNode) (labelPrefix : Str) : Outcome TreeNode :=
  if labelPrefix = [] then .ok n
  else if labelPrefix.getLast? ≠ some slash then
    throw (.runtimeError (str "Prefix must end with a '/'"))
  else .ok { n with
    labelRule := prefixName labelPrefix n.labelRule
    childNames := n.childNames.map (prefixName labelPrefix) }

/-- `shortenLabels`. -/
def shortenLabels (n : TreeNode) (labelPrefix : Str) : TreeNode :=
  if labelPrefix = [] then n
  else { n with
    labelRule := shortenName labelPrefix n.labelRule
    childNames := n.childNames.map (shortenName labelPrefix) }

@[simp] theorem shortenLabels_nil (n : TreeNode) : n.shortenLabels [] = n := if_pos rfl

theorem shortenLabels_of_ne {labelPrefix : Str} (h : labelPrefix ≠ []) (n : TreeNode) :
    n.shortenLabels labelPrefix = { n with
      labelRule := shortenName labelPrefix n.labelRule
      childNames := n.childNames.map (shortenName labelPrefix) } := if_neg h

/-- A prefix that ends with a slash is put in front of every name. -/
theorem prefixLabels_append_slash (n : TreeNode) (path : Str) :
    n.prefixLabels (path ++ [slash]) = .ok { n with
      labelRule := prefixName (path ++ [slash]) n.labelRule
      childNames := n.childNames.map (prefixName (path ++ [slash])) } := by
  rw [prefixLabels, if_neg (by simp), if_neg (by simp)]

/-- Any other prefix is refused. -/
theorem prefixLabels_of_no_slash (n : TreeNode) {labelPrefix : Str} (hNe : labelPrefix ≠ [])
    (h : labelPrefix.getLast? ≠ some slash) :
    n.prefixLabels labelPrefix = .error (.runtimeError (str "Prefix must end with a '/'")) := by
  rw [prefixLabels, if_neg hNe, if_pos h]
  rfl

/-- A node written without its prefix and read with it is the node, if its names carry
the prefix once. -/
theorem prefixLabels_shortenLabels {n : TreeNode} {path : Str}
    (hLabel : CarriesOnce (path ++ [slash]) n.labelRule)
    (hChildren : ∀ child ∈ n.childNames, CarriesOnce (path ++ [slash]) child) :
    (n.shortenLabels (path ++ [slash])).assign.prefixLabels (path ++ [slash]) = .ok n.assign := by
  have hNames : (n.childNames.map (shortenName (path ++ [slash]))).map (prefixName (path ++ [slash])) =
      n.childNames := by
    rw [List.map_map]
    conv_rhs => rw [← List.map_id n.childNames]
    exact List.map_congr_left fun child hChild => prefixName_shortenName_iff.mpr (.inl (hChildren child hChild))
  rw [prefixLabels_append_slash, shortenLabels_of_ne (by simp)]
  simp only [assign, hNames, prefixName_shortenName_iff.mpr (.inl hLabel)]

end TreeNode

/-- `shortenNewNodeVersionLabels`. -/
def shortenNewNodeVersionLabels (labelPrefix : Str) (change : NewNodeVersion) : NewNodeVersion :=
  if labelPrefix = [] then change
  else { change with
    labelRule := shortenName labelPrefix change.labelRule
    node := change.node.map fun node => node.shortenLabels labelPrefix }

/-- `shortenSubTransactionLabels`. -/
def shortenSubTransactionLabels (labelPrefix : Str) (sub : SubTransaction) : SubTransaction :=
  if labelPrefix = [] then sub
  else ⟨shortenNewNodeVersionLabels labelPrefix sub.parent,
    sub.descendants.map (shortenNewNodeVersionLabels labelPrefix)⟩

end Wwatp
