import Wwatp.Tree.Labels

/-! The names in a transaction under a label prefix. Prefixing and shortening are one change of all names each: of
the labels of the changes, of the labels of their nodes, and of the names of the children. -/
namespace Wwatp

open Cxx

section Renaming

variable (f g : Str → Str)

/-- A node with another name in the place of each of its names. -/
def TreeNode.renamed (n : TreeNode) : TreeNode :=
  { n with labelRule := f n.labelRule, childNames := n.childNames.map f }

def NewNodeVersion.renamed (change : NewNodeVersion) : NewNodeVersion :=
  { change with labelRule := f change.labelRule, node := change.node.map (TreeNode.renamed f) }

def SubTransaction.renamed (sub : SubTransaction) : SubTransaction :=
  ⟨sub.parent.renamed f, sub.descendants.map (NewNodeVersion.renamed f)⟩

/-- The names of a node: its label, and the names of its children. -/
def TreeNode.names (n : TreeNode) : List Str := n.labelRule :: n.childNames

def NewNodeVersion.names (change : NewNodeVersion) : List Str :=
  change.labelRule :: change.node.toList.flatMap TreeNode.names

def SubTransaction.names (sub : SubTransaction) : List Str :=
  sub.parent.names ++ sub.descendants.flatMap NewNodeVersion.names

/-- All the names in a transaction. -/
def transactionNames (transaction : Transaction) : List Str := transaction.flatMap SubTransaction.names

theorem TreeNode.renamed_renamed (n : TreeNode) : (n.renamed f).renamed g = n.renamed (g ∘ f) := by
  simp [TreeNode.renamed]

theorem NewNodeVersion.renamed_renamed (change : NewNodeVersion) :
    (change.renamed f).renamed g = change.renamed (g ∘ f) := by
  have hNode : TreeNode.renamed g ∘ TreeNode.renamed f = TreeNode.renamed (g ∘ f) := by
    funext n
    exact n.renamed_renamed f g
  simp [NewNodeVersion.renamed, hNode]

theorem SubTransaction.renamed_renamed (sub : SubTransaction) : (sub.renamed f).renamed g = sub.renamed (g ∘ f) := by
  have hChange : NewNodeVersion.renamed g ∘ NewNodeVersion.renamed f = NewNodeVersion.renamed (g ∘ f) := by
    funext change
    exact change.renamed_renamed f g
  simp [SubTransaction.renamed, hChange, NewNodeVersion.renamed_renamed]

theorem map_renamed_renamed (transaction : Transaction) :
    (transaction.map (SubTransaction.renamed f)).map (SubTransaction.renamed g) =
      transaction.map (SubTransaction.renamed (g ∘ f)) := by
  rw [List.map_map]
  apply List.map_congr_left
  intro sub _
  exact sub.renamed_renamed f g

/-- A list stays as it is when each element does. -/
theorem map_eq_self_iff {α : Type} {change : α → α} {l : List α} : l.map change = l ↔ ∀ a ∈ l, change a = a := by
  induction l with
  | nil => simp
  | cons a l ih => simp [ih]

theorem TreeNode.renamed_eq_self_iff {n : TreeNode} : n.renamed f = n ↔ ∀ name ∈ n.names, f name = name := by
  obtain ⟨label, _, _, _, children, _, _, _⟩ := n
  simp [TreeNode.renamed, TreeNode.names, map_eq_self_iff]

theorem NewNodeVersion.renamed_eq_self_iff {change : NewNodeVersion} :
    change.renamed f = change ↔ ∀ name ∈ change.names, f name = name := by
  obtain ⟨prior, label, node⟩ := change
  cases node <;> simp [NewNodeVersion.renamed, NewNodeVersion.names, TreeNode.renamed_eq_self_iff]

theorem SubTransaction.renamed_eq_self_iff {sub : SubTransaction} :
    sub.renamed f = sub ↔ ∀ name ∈ sub.names, f name = name := by
  obtain ⟨parent, descendants⟩ := sub
  simp only [SubTransaction.renamed, SubTransaction.mk.injEq, map_eq_self_iff, NewNodeVersion.renamed_eq_self_iff,
    SubTransaction.names, List.mem_append, List.mem_flatMap]
  constructor
  · rintro ⟨hParent, hDescendants⟩ name (hName | ⟨change, hChange, hName⟩)
    · exact hParent name hName
    · exact hDescendants change hChange name hName
  · exact fun h => ⟨fun name hName => h name (.inl hName), fun change hChange name hName => h name (.inr ⟨change, hChange, hName⟩)⟩

/-- A transaction stays as it is when each of its names does. -/
theorem map_renamed_eq_self_iff {transaction : Transaction} :
    transaction.map (SubTransaction.renamed f) = transaction ↔ ∀ name ∈ transactionNames transaction, f name = name := by
  simp only [map_eq_self_iff, SubTransaction.renamed_eq_self_iff, transactionNames, List.mem_flatMap]
  constructor
  · rintro h name ⟨sub, hSub, hName⟩
    exact h sub hSub name hName
  · exact fun h sub hSub name hName => h name ⟨sub, hSub, hName⟩

end Renaming

/-- `prefixNewNodeVersionLabels`. -/
def prefixNewNodeVersionLabels (labelPrefix : Str) (change : NewNodeVersion) : Outcome NewNodeVersion :=
  if labelPrefix = [] then .ok change
  else if labelPrefix.getLast? ≠ some slash then throw (.runtimeError (str "Prefix must end with a '/'"))
  else do
    let node ← (match change.node with
      | none => .ok none
      | some node => do return some (← node.prefixLabels labelPrefix))
    return { change with labelRule := prefixName labelPrefix change.labelRule, node := node }

/-- A loop that changes the elements of a vector in place. -/
def changeEach {α : Type} (change : α → Outcome α) : List α → Outcome (List α)
  | [] => .ok []
  | a :: rest => do return (← change a) :: (← changeEach change rest)

/-- `prefixSubTransactionLabels`. -/
def prefixSubTransactionLabels (labelPrefix : Str) (sub : SubTransaction) : Outcome SubTransaction :=
  if labelPrefix = [] then .ok sub
  else do return ⟨← prefixNewNodeVersionLabels labelPrefix sub.parent,
    ← changeEach (prefixNewNodeVersionLabels labelPrefix) sub.descendants⟩

/-- `prefixTransactionLabels`. -/
def prefixTransactionLabels (labelPrefix : Str) (transaction : Transaction) : Outcome Transaction :=
  if labelPrefix = [] then .ok transaction
  else changeEach (prefixSubTransactionLabels labelPrefix) transaction

/-- `shortenTransactionLabels`. -/
def shortenTransactionLabels (labelPrefix : Str) (transaction : Transaction) : Transaction :=
  if labelPrefix = [] then transaction
  else transaction.map (shortenSubTransactionLabels labelPrefix)

section Prefixes

variable (path : Str)

theorem changeEach_eq_map {α : Type} {change : α → Outcome α} {changed : α → α} (h : ∀ a, change a = .ok (changed a))
    (l : List α) : changeEach change l = .ok (l.map changed) := by
  induction l with
  | nil => rfl
  | cons a l ih => simp [changeEach, h, ih]

/-- With a prefix that ends in a slash, prefixing is the change of every name. -/
theorem prefixNewNodeVersionLabels_eq (change : NewNodeVersion) :
    prefixNewNodeVersionLabels (path ++ [slash]) change = .ok (change.renamed (prefixName (path ++ [slash]))) := by
  rw [prefixNewNodeVersionLabels, if_neg (by simp), if_neg (by simp)]
  obtain ⟨prior, label, node⟩ := change
  cases node with
  | none => rfl
  | some node => simp [NewNodeVersion.renamed, TreeNode.renamed, TreeNode.prefixLabels_append_slash]

theorem prefixSubTransactionLabels_eq (sub : SubTransaction) :
    prefixSubTransactionLabels (path ++ [slash]) sub = .ok (sub.renamed (prefixName (path ++ [slash]))) := by
  rw [prefixSubTransactionLabels, if_neg (by simp), prefixNewNodeVersionLabels_eq,
    changeEach_eq_map (prefixNewNodeVersionLabels_eq path)]
  rfl

theorem prefixTransactionLabels_eq (transaction : Transaction) :
    prefixTransactionLabels (path ++ [slash]) transaction =
      .ok (transaction.map (SubTransaction.renamed (prefixName (path ++ [slash])))) := by
  rw [prefixTransactionLabels, if_neg (by simp), changeEach_eq_map (prefixSubTransactionLabels_eq path)]

/-- So is shortening. -/
theorem shortenNewNodeVersionLabels_eq (change : NewNodeVersion) :
    shortenNewNodeVersionLabels (path ++ [slash]) change = change.renamed (shortenName (path ++ [slash])) := by
  have hNode : (fun node : TreeNode => node.shortenLabels (path ++ [slash])) =
      TreeNode.renamed (shortenName (path ++ [slash])) := by
    funext node
    exact TreeNode.shortenLabels_of_ne (by simp) node
  rw [shortenNewNodeVersionLabels, if_neg (by simp), hNode]
  rfl

theorem shortenTransactionLabels_eq (transaction : Transaction) :
    shortenTransactionLabels (path ++ [slash]) transaction =
      transaction.map (SubTransaction.renamed (shortenName (path ++ [slash]))) := by
  have hSub : shortenSubTransactionLabels (path ++ [slash]) = SubTransaction.renamed (shortenName (path ++ [slash])) := by
    funext sub
    have hChange : shortenNewNodeVersionLabels (path ++ [slash]) = NewNodeVersion.renamed (shortenName (path ++ [slash])) := by
      funext change
      exact shortenNewNodeVersionLabels_eq path change
    rw [shortenSubTransactionLabels, if_neg (by simp), hChange]
    rfl
  rw [shortenTransactionLabels, if_neg (by simp), hSub]

/-- A name that had the prefix before loses it, and any other name comes back. -/
theorem shortenName_prefixName (labelPrefix name : Str) :
    shortenName labelPrefix (prefixName labelPrefix name) = shortenName labelPrefix name := by
  by_cases hPrefix : labelPrefix <+: name
  · rw [prefixName, if_pos hPrefix]
  · rw [ prefixName_of_not_prefix hPrefix, shortenName_append, shortenName, if_neg hPrefix]

theorem shortenName_eq_self_iff {labelPrefix name : Str} (hPrefix : labelPrefix ≠ []) :
    shortenName labelPrefix name = name ↔ ¬labelPrefix <+: name := by
  constructor
  · rintro h ⟨rest, rfl⟩
    rw [shortenName_append] at h
    have hLength := congrArg List.length h
    rw [List.length_append] at hLength
    exact hPrefix (List.length_eq_zero_iff.mp (by omega))
  · exact fun h => if_neg h

end Prefixes

/-- Shortening after prefixing takes the prefix off every name that had it from the beginning. The transaction comes
back exactly when none of its names did. -/
theorem shortenTransactionLabels_prefixTransactionLabels (path : Str) (transaction : Transaction) :
    ∃ prefixed, prefixTransactionLabels (path ++ str "/") transaction = .ok prefixed ∧
      shortenTransactionLabels (path ++ str "/") prefixed = shortenTransactionLabels (path ++ str "/") transaction ∧
      (shortenTransactionLabels (path ++ str "/") prefixed = transaction ↔
        ∀ name ∈ transactionNames transaction, ¬(path ++ str "/") <+: name) := by
  have hSlash : str "/" = [slash] := rfl
  have hNames : shortenName (path ++ [slash]) ∘ prefixName (path ++ [slash]) = shortenName (path ++ [slash]) := by
    funext name
    exact shortenName_prefixName (path ++ [slash]) name
  rw [hSlash, prefixTransactionLabels_eq]
  refine ⟨_, rfl, ?_, ?_⟩
  · rw [shortenTransactionLabels_eq, shortenTransactionLabels_eq, map_renamed_renamed, hNames]
  · rw [shortenTransactionLabels_eq, map_renamed_renamed, hNames, map_renamed_eq_self_iff]
    exact forall₂_congr fun name _ => shortenName_eq_self_iff (by simp)

/-- A transaction for `a/b` loses the prefix `a/` that it had itself. -/
theorem not_shortenTransactionLabels_prefixTransactionLabels :
    ∃ (transaction prefixed : Transaction), prefixTransactionLabels (str "a/") transaction = .ok prefixed ∧
      shortenTransactionLabels (str "a/") prefixed ≠ transaction := by
  refine ⟨[⟨⟨none, str "a/b", some { labelRule := str "a/b" }⟩, []⟩], _, rfl, ?_⟩
  decide

end Wwatp
