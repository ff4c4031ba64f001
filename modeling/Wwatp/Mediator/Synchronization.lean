import Wwatp.Mediator.EqualTrees
import Wwatp.Mediator.TreeFromYAML

/-! When a tree follows a document: the callback upserts what differs and deletes what is not there, and has
nothing to do when it sees the document again. -/
namespace Wwatp

open Cxx

section Specification

variable (library : YamlCpp) (yaml : Yaml)

/-- A label of one of the nodes of the document. -/
def Listed (label : Str) : Prop := ∃ path value, NodeAt library.nullString yaml path value ∧ labelOf path = label

/-- What should be written to a tree: each node that differs from the stored one, once, and a deletion for
each stored label that is not in the document. -/
structure Exact (t : MemoryTree) (modifiedNodes : List TreeNode) (deletedLabels : List Str) : Prop where
  once : (modifiedNodes.map TreeNode.labelRule).Nodup
  upserts : ∀ form, form ∈ modifiedNodes ↔ ∃ path value, NodeAt library.nullString yaml path value ∧
    formOf library path value = .ok form ∧ ∀ stored, t.getNode (labelOf path) = some stored → stored.equals form = false
  deletes : ∀ label, label ∈ deletedLabels ↔ t.getNode label ≠ none ∧ ¬Listed library yaml label

/-- The store has made the writes, and keeps every stored node that equals its form. -/
structure Follows (before after : TreeStore) : Prop where
  writes : ∃ modifiedNodes deletedLabels, after.calls = before.calls ++ writesOf modifiedNodes deletedLabels ∧
    Exact library yaml before.tree modifiedNodes deletedLabels
  leavesAlone : ∀ path value form stored, NodeAt library.nullString yaml path value →
    formOf library path value = .ok form → before.tree.getNode (labelOf path) = some stored →
    stored.equals form = true → after.tree.getNode (labelOf path) = some stored

/-- The document can be followed from a tree: no name that is walked to and no stored label leads into the
document but to one of its nodes; each node can be read, has a description unless it is at the top, and is
stored already or survives the copying assignment that stores it. -/
structure Followable (t : MemoryTree) : Prop where
  names : ∃ names, walkNames library yaml = .ok names ∧
    ∀ label, (label ∈ names ∨ t.getNode label ≠ none) → nodeAt (split label) yaml ≠ none → Listed library yaml label
  forms : ∀ path value, NodeAt library.nullString yaml path value →
    ∃ form, formOf library path value = .ok form ∧ (path.length ≠ 1 → Described value) ∧
      ((∃ stored, t.getNode (labelOf path) = some stored ∧ stored.equals form = true) ∨ form.assign.equals form = true)

end Specification

section Reading

variable {library : YamlCpp} {yaml value : Yaml} {path : List Str} {label : Str} {node form : TreeNode}

theorem read_absent (h : nodeAt (split label) yaml = none) : getNodeFromYAML library label yaml = .ok none := by
  unfold getNodeFromYAML
  dsimp only
  rw [h]

theorem modified_absent (h : nodeAt (split node.labelRule) yaml = none) : Modified library yaml node := by
  rw [Modified, isNodeModified, h]

/-- A path is known by its label. -/
theorem NodeAt.eq_of_label {path' : List Str} {value' : Yaml} (h : NodeAt library.nullString yaml path value)
    (h' : NodeAt library.nullString yaml path' value') (hLabel : labelOf path = labelOf path') :
    path = path' ∧ value = value' := by
  have hPath : path = path' := by
    rw [← split_labelOf h.path_ne_nil h.nodeName, hLabel, split_labelOf h'.path_ne_nil h'.nodeName]
  subst hPath
  exact ⟨rfl, Option.some.inj (h.nodeAt.symm.trans h'.nodeAt)⟩

variable (h : NodeAt library.nullString yaml path value)

include h

theorem foundAt_label : foundAt library yaml (labelOf path) = (formOf library path value).toOption := by
  rw [foundAt, getNodeFromYAML_label h]
  cases formOf library path value <;> rfl

/-- How a stored node compares to the node of the document. -/
theorem isNodeModified_label (hNode : node.labelRule = labelOf path) :
    isNodeModified library node yaml = (formOf library path value).map fun form =>
      !node.equals (if Described value then form else { form with description := labelOf path }) := by
  rw [isNodeModified, hNode, nodeAt_split h]
  dsimp only
  rw [fromYAMLNode_label h]
  cases formOf library path value <;> rfl

/-- At the top a node is read under its name, which is its label. -/
theorem fromYAMLNode_top (hTop : path.length = 1) :
    library.fromYAMLNode value [] (labelOf path) = formOf library path value := by
  obtain ⟨name, rfl⟩ := List.length_eq_one_iff.mp hTop
  rw [formOf, if_pos hTop, labelOf_singleton]
  rfl

theorem isNodeModified_form (hForm : formOf library path value = .ok form) (hDescribed : path.length ≠ 1 → Described value)
    (hNode : node.labelRule = labelOf path) : isNodeModified library node yaml = .ok (!node.equals form) := by
  by_cases hTop : path.length = 1
  · rw [isNodeModified, hNode, nodeAt_split h]
    dsimp only
    rw [fromYAMLNode_top h hTop, hForm]
    rfl
  · rw [isNodeModified_label h hNode, hForm]
    simp only [Except.map, if_pos (hDescribed hTop)]

omit h in
/-- Without a description, the name that a node is read with takes its place. -/
theorem description_of_formOf (hForm : formOf library path value = .ok form) (hNone : ¬Described value) :
    form.description = path.getLastD [] := by
  have hSame := hForm
  rw [formOf, fromYAMLNode_rename value rfl, ← formOf, hForm] at hSame
  simp only [Except.map, if_neg hNone, Except.ok.injEq] at hSame
  rw [← hSame]

theorem labelOf_ne_name (hNested : path.length ≠ 1) : labelOf path ≠ path.getLastD [] := by
  cases h with
  | top hMap hEntry hName => exact absurd rfl hNested
  | child hParent hChildNames hListed hMem hEntry hName =>
      intro hLabel
      rw [labelOf_concat hParent.path_ne_nil, List.getLastD_concat] at hLabel
      refine hName.2 (hLabel ▸ List.mem_append_left _ (List.mem_append_right _ ?_))
      decide

end Reading

section Writing

variable {library : YamlCpp} {yaml : Yaml} {key : Str}

/-- What is above a node of the document is one. -/
theorem Listed.above {above : Str} (h : Listed library yaml key) (hAbove : above ++ [chr '/'] <+: key) :
    Listed library yaml above := by
  obtain ⟨path, value, hAt, rfl⟩ := h
  obtain ⟨front, back, rfl, hFront, -, rfl⟩ := labelOf_above hAt.path_ne_nil hAt.nodeName hAbove
  obtain ⟨other, hOther⟩ := hAt.front hFront
  exact ⟨front, other, hOther, rfl⟩

theorem getNode_deletions_of_kept {u : MemoryTree} (hFiled : u.FiledUnderOwnLabels) {labels : List Str}
    (h : ∀ label ∈ labels, key ≠ label ∧ ¬label ++ [chr '/'] <+: key) :
    (labels.foldl (fun tree label => (tree.deleteNode label).1) u).getNode key = u.getNode key := by
  induction labels generalizing u with
  | nil => rfl
  | cons label labels ih =>
      obtain ⟨hFirst, hRest⟩ := List.forall_mem_cons.mp h
      rw [List.foldl_cons, ih (TreeStore.filed_deleteNode hFiled label) hRest,
        MemoryTree.getNode_deleteNode_of_not_below hFiled hFirst.1 hFirst.2]

theorem getNode_deletions_of_gone {u : MemoryTree} {labels : List Str} (h : u.getNode key = none ∨ key ∈ labels) :
    (labels.foldl (fun tree label => (tree.deleteNode label).1) u).getNode key = none := by
  induction labels generalizing u with
  | nil => exact h.resolve_right List.not_mem_nil
  | cons label labels ih =>
      rw [List.foldl_cons]
      refine ih ?_
      rcases h with hNone | hMem
      · left
        rcases u.getNode_deleteNode label key with hGone | hSame
        · exact hGone
        · rw [hSame, hNone]
      · rcases List.mem_cons.mp hMem with rfl | hRest
        · exact .inl (u.getNode_deleteNode_self key)
        · exact .inr hRest

variable {t : TreeStore} {modifiedNodes : List TreeNode} {deletedLabels : List Str}
  (hExact : Exact library yaml t.tree modifiedNodes deletedLabels)

include hExact

theorem Exact.listed {form : TreeNode} (hForm : form ∈ modifiedNodes) : Listed library yaml form.labelRule := by
  obtain ⟨path, value, hAt, hRead, -⟩ := (hExact.upserts form).mp hForm
  exact ⟨path, value, hAt, (labelRule_of_formOf hAt hRead).symm⟩

/-- Deletions do not reach the nodes of the document. -/
theorem Exact.getNode_of_listed (hListed : Listed library yaml key) :
    (t.apply modifiedNodes deletedLabels).tree.getNode key = (t.tree.upsertNode modifiedNodes).getNode key := by
  rw [TreeStore.tree_apply]
  refine getNode_deletions_of_kept (TreeStore.filed_upsertNode t.filed _) fun label hLabel => ?_
  have hUnlisted := ((hExact.deletes label).mp hLabel).2
  exact ⟨fun hKey => hUnlisted (hKey ▸ hListed), fun hAbove => hUnlisted (hListed.above hAbove)⟩

theorem Exact.getNode_form {form : TreeNode} (hForm : form ∈ modifiedNodes) :
    (t.apply modifiedNodes deletedLabels).tree.getNode form.labelRule = some form.assign := by
  rw [hExact.getNode_of_listed (hExact.listed hForm), MemoryTree.getNode_upsertNode_of_mem hExact.once hForm]

theorem Exact.getNode_kept (hListed : Listed library yaml key) (hNot : key ∉ modifiedNodes.map TreeNode.labelRule) :
    (t.apply modifiedNodes deletedLabels).tree.getNode key = t.tree.getNode key := by
  rw [hExact.getNode_of_listed hListed, MemoryTree.getNode_upsertNode_of_not_mem hNot]

theorem Exact.getNode_unlisted (hUnlisted : ¬Listed library yaml key) :
    (t.apply modifiedNodes deletedLabels).tree.getNode key = none := by
  have hNot : key ∉ modifiedNodes.map TreeNode.labelRule := by
    intro hMem
    obtain ⟨form, hForm, rfl⟩ := List.mem_map.mp hMem
    exact hUnlisted (hExact.listed hForm)
  rw [TreeStore.tree_apply]
  refine getNode_deletions_of_gone ?_
  rw [MemoryTree.getNode_upsertNode_of_not_mem hNot, hExact.deletes]
  by_cases hStored : t.tree.getNode key = none
  · exact .inl hStored
  · exact .inr ⟨hStored, hUnlisted⟩

/-- A node of the document that is not upserted is stored, and equal. -/
theorem Exact.stored_of_not_mem {path : List Str} {value : Yaml} {form : TreeNode}
    (hAt : NodeAt library.nullString yaml path value) (hForm : formOf library path value = .ok form)
    (hNot : form ∉ modifiedNodes) : labelOf path ∉ modifiedNodes.map TreeNode.labelRule ∧
      ∃ stored, t.tree.getNode (labelOf path) = some stored ∧ stored.equals form = true := by
  constructor
  · intro hMem
    obtain ⟨other, hOther, hLabel⟩ := List.mem_map.mp hMem
    obtain ⟨path', value', hAt', hForm', -⟩ := (hExact.upserts other).mp hOther
    obtain ⟨rfl, rfl⟩ := hAt.eq_of_label hAt' (by rw [← hLabel, labelRule_of_formOf hAt' hForm'])
    rw [hForm, Except.ok.injEq] at hForm'
    exact hNot (hForm' ▸ hOther)
  · by_contra hNone
    refine hNot ((hExact.upserts form).mpr ⟨path, value, hAt, hForm, fun stored hStored => ?_⟩)
    by_contra hEqual
    exact hNone ⟨stored, hStored, by simpa using hEqual⟩

end Writing

theorem sublist_map_filterMap {α β γ : Type} {f : α → Option β} {g : β → γ} {k : α → γ} {l : List α}
    (h : ∀ a ∈ l, ∀ b, f a = some b → g b = k a) : ((l.filterMap f).map g).Sublist (l.map k) := by
  induction l with
  | nil => exact List.Sublist.refl _
  | cons a l ih =>
      obtain ⟨hFirst, hRest⟩ := List.forall_mem_cons.mp h
      cases hf : f a with
      | none =>
          rw [List.filterMap_cons_none hf, List.map_cons]
          exact (ih hRest).cons _
      | some b =>
          rw [List.filterMap_cons_some hf, List.map_cons, List.map_cons, hFirst b hf]
          exact (ih hRest).cons_cons _

section Followed

variable {library : YamlCpp} {yaml : Yaml} {t : MemoryTree} {names : List Str}

/-- What the callback finds out about a stored node. -/
theorem Followable.stored (h : Followable library yaml t) {node : TreeNode} (hStored : t.getNode node.labelRule = some node) :
    (¬Listed library yaml node.labelRule ∧ Modified library yaml node ∧
        getNodeFromYAML library node.labelRule yaml = .ok none) ∨
      ∃ path value form, NodeAt library.nullString yaml path value ∧ labelOf path = node.labelRule ∧
        formOf library path value = .ok form ∧ isNodeModified library node yaml = .ok (!node.equals form) ∧
        getNodeFromYAML library node.labelRule yaml = .ok (some form) := by
  by_cases hListed : Listed library yaml node.labelRule
  · obtain ⟨path, value, hAt, hLabel⟩ := hListed
    obtain ⟨form, hForm, hDescribed, -⟩ := h.forms path value hAt
    refine .inr ⟨path, value, form, hAt, hLabel, hForm, isNodeModified_form hAt hForm hDescribed hLabel.symm, ?_⟩
    rw [← hLabel, getNodeFromYAML_label hAt, hForm]
    rfl
  · obtain ⟨_, -, hNames⟩ := h.names
    have hAbsent : nodeAt (split node.labelRule) yaml = none := by
      by_contra hLeads
      refine hListed (hNames _ (.inr ?_) hLeads)
      rw [hStored]
      nofun
    exact .inl ⟨hListed, modified_absent hAbsent, read_absent hAbsent⟩

/-- What the callback finds under a name. -/
theorem Followable.named (h : Followable library yaml t) (hWalk : walkNames library yaml = .ok names) {name : Str}
    (hName : name ∈ names) : getNodeFromYAML library name yaml = .ok none ∨
      ∃ path value form, NodeAt library.nullString yaml path value ∧ labelOf path = name ∧
        formOf library path value = .ok form ∧ getNodeFromYAML library name yaml = .ok (some form) := by
  obtain ⟨names', hWalk', hNames⟩ := h.names
  obtain rfl := Except.ok.inj (hWalk.symm.trans hWalk')
  by_cases hLeads : nodeAt (split name) yaml = none
  · exact .inl (read_absent hLeads)
  · obtain ⟨path, value, hAt, rfl⟩ := hNames name (.inl hName) hLeads
    obtain ⟨form, hForm, -⟩ := h.forms path value hAt
    refine .inr ⟨path, value, form, hAt, rfl, hForm, ?_⟩
    rw [getNodeFromYAML_label hAt, hForm]
    rfl

theorem foundAt_of_read {label : Str} {read : Option TreeNode} (h : getNodeFromYAML library label yaml = .ok read) :
    foundAt library yaml label = read := by
  rw [foundAt, h]
  rfl

theorem Followable.comparable (h : Followable library yaml t) {node : TreeNode}
    (hStored : t.getNode node.labelRule = some node) : Comparable library yaml node := by
  rcases h.stored hStored with ⟨-, hModified, hRead⟩ | ⟨_, _, form, -, -, -, hModified, hRead⟩
  · exact ⟨_, hModified, fun _ => ⟨_, hRead⟩⟩
  · exact ⟨_, hModified, fun _ => ⟨_, hRead⟩⟩

theorem mem_names_iff_stored (hFiled : t.FiledUnderOwnLabels) {label : Str} :
    label ∈ t.getFullTree.map TreeNode.labelRule ↔ t.getNode label ≠ none := by
  constructor
  · intro hMem
    obtain ⟨node, hNode, rfl⟩ := List.mem_map.mp hMem
    rw [(MemoryTree.mem_getFullTree hFiled).mp hNode]
    nofun
  · intro hStored
    obtain ⟨node, hNode⟩ := Option.ne_none_iff_exists'.mp hStored
    have hLabel := hFiled label node hNode
    exact List.mem_map.mpr ⟨node, (MemoryTree.mem_getFullTree hFiled).mpr (hLabel ▸ hNode), hLabel⟩

/-- Every label is upserted at most once. -/
theorem Followable.once (h : Followable library yaml t) (hFiled : t.FiledUnderOwnLabels)
    (hWalk : walkNames library yaml = .ok names) :
    ((modifiedForms library yaml t.getFullTree names).map TreeNode.labelRule).Nodup := by
  have hStored : (((t.getFullTree.filter (Modified library yaml ·)).filterMap
      fun node => foundAt library yaml node.labelRule).map TreeNode.labelRule).Sublist
        (t.getFullTree.map TreeNode.labelRule) := by
    refine (sublist_map_filterMap fun node hNode form hFound => ?_).trans (List.filter_sublist.map _)
    have hHeld := (MemoryTree.mem_getFullTree hFiled).mp (List.mem_filter.mp hNode).1
    rcases h.stored hHeld with ⟨-, -, hRead⟩ | ⟨path, value, other, hAt, hLabel, hForm, -, hRead⟩
    · rw [foundAt_of_read hRead] at hFound
      cases hFound
    · rw [foundAt_of_read hRead, Option.some.injEq] at hFound
      rw [← hLabel, ← hFound, labelRule_of_formOf hAt hForm]
  have hCreated : (((createdNames names t.getFullTree).filterMap (foundAt library yaml)).map TreeNode.labelRule).Sublist
      ((createdNames names t.getFullTree).map id) := by
    refine sublist_map_filterMap fun name hName form hFound => ?_
    rcases h.named hWalk (mem_createdNames.mp hName).1 with hRead | ⟨path, value, other, hAt, hLabel, hForm, hRead⟩
    · rw [foundAt_of_read hRead] at hFound
      cases hFound
    · rw [foundAt_of_read hRead, Option.some.injEq] at hFound
      rw [id, ← hLabel, ← hFound, labelRule_of_formOf hAt hForm]
  rw [List.map_id] at hCreated
  rw [modifiedForms, List.map_append, List.nodup_append]
  refine ⟨(MemoryTree.nodup_labels hFiled).sublist hStored, nodup_createdNames.sublist hCreated, ?_⟩
  intro first hFirst second hSecond hSame
  exact (mem_createdNames.mp (hCreated.subset hSecond)).2 (hSame ▸ hStored.subset hFirst)

theorem Followable.upserts (h : Followable library yaml t) (hFiled : t.FiledUnderOwnLabels)
    (hWalk : walkNames library yaml = .ok names) (form : TreeNode) :
    form ∈ modifiedForms library yaml t.getFullTree names ↔ ∃ path value, NodeAt library.nullString yaml path value ∧
      formOf library path value = .ok form ∧
      ∀ stored, t.getNode (labelOf path) = some stored → stored.equals form = false := by
  rw [mem_modifiedForms]
  constructor
  · rintro (⟨node, hNode, hModified, hFound⟩ | ⟨name, hName, hFound⟩)
    · have hHeld := (MemoryTree.mem_getFullTree hFiled).mp hNode
      rcases h.stored hHeld with ⟨-, -, hRead⟩ | ⟨path, value, other, hAt, hLabel, hForm, hCompared, hRead⟩
      · rw [foundAt_of_read hRead] at hFound
        cases hFound
      · rw [foundAt_of_read hRead, Option.some.injEq] at hFound
        subst hFound
        refine ⟨path, value, hAt, hForm, fun stored hStored => ?_⟩
        rw [hLabel, hHeld, Option.some.injEq] at hStored
        rw [Modified, hCompared, hStored, Except.ok.injEq] at hModified
        simpa using hModified
    · obtain ⟨hIn, hNew⟩ := mem_createdNames.mp hName
      rcases h.named hWalk hIn with hRead | ⟨path, value, other, hAt, rfl, hForm, hRead⟩
      · rw [foundAt_of_read hRead] at hFound
        cases hFound
      · rw [foundAt_of_read hRead, Option.some.injEq] at hFound
        subst hFound
        refine ⟨path, value, hAt, hForm, fun stored hStored => absurd ((mem_names_iff_stored hFiled).mpr ?_) hNew⟩
        rw [hStored]
        exact Option.some_ne_none _
  · rintro ⟨path, value, hAt, hForm, hDiffers⟩
    have hFound : foundAt library yaml (labelOf path) = some form := by
      rw [foundAt_label hAt, hForm]
      rfl
    obtain ⟨_, hForm', hDescribed, -⟩ := h.forms path value hAt
    obtain rfl := Except.ok.inj (hForm.symm.trans hForm')
    cases hStored : t.getNode (labelOf path) with
    | none =>
        refine .inr ⟨labelOf path, mem_createdNames.mpr ⟨(hAt.walked hWalk).1, fun hMem => ?_⟩, hFound⟩
        exact (mem_names_iff_stored hFiled).mp hMem hStored
    | some node =>
        have hLabel := hFiled _ node hStored
        refine .inl ⟨node, (MemoryTree.mem_getFullTree hFiled).mpr (hLabel ▸ hStored), ?_, hLabel ▸ hFound⟩
        rw [Modified, isNodeModified_form hAt hForm hDescribed hLabel, hDiffers node hStored]
        rfl

theorem Followable.deletes (h : Followable library yaml t) (hFiled : t.FiledUnderOwnLabels) (label : Str) :
    label ∈ (absentNodes library yaml t.getFullTree).map TreeNode.labelRule ↔
      t.getNode label ≠ none ∧ ¬Listed library yaml label := by
  constructor
  · intro hMem
    obtain ⟨node, hNode, rfl⟩ := List.mem_map.mp hMem
    obtain ⟨hIn, -, hNone⟩ := mem_absentNodes.mp hNode
    have hHeld := (MemoryTree.mem_getFullTree hFiled).mp hIn
    rcases h.stored hHeld with ⟨hUnlisted, -, -⟩ | ⟨_, _, _, -, -, -, -, hRead⟩
    · exact ⟨hHeld ▸ nofun, hUnlisted⟩
    · rw [foundAt_of_read hRead] at hNone
      cases hNone
  · rintro ⟨hStored, hUnlisted⟩
    obtain ⟨node, hNode⟩ := Option.ne_none_iff_exists'.mp hStored
    obtain rfl := hFiled label node hNode
    rcases h.stored hNode with ⟨-, hModified, hRead⟩ | ⟨path, value, _, hAt, hLabel, -⟩
    · exact List.mem_map.mpr ⟨node, mem_absentNodes.mpr
        ⟨(MemoryTree.mem_getFullTree hFiled).mpr hNode, hModified, foundAt_of_read hRead⟩, rfl⟩
    · exact absurd ⟨path, value, hAt, hLabel⟩ hUnlisted

theorem Followable.changesFrom (h : Followable library yaml t) (hFiled : t.FiledUnderOwnLabels) :
    ∃ modifiedNodes deletedNodes, Wwatp.changesFrom library yaml t.getFullTree = .ok (modifiedNodes, deletedNodes) ∧
      Exact library yaml t modifiedNodes (deletedNodes.map TreeNode.labelRule) := by
  obtain ⟨names, hWalk, -⟩ := h.names
  refine ⟨_, _, changesFrom_eq_ok.mpr ⟨names, hWalk, fun node hNode => ?_, fun label hLabel => ?_, rfl, rfl⟩,
    h.once hFiled hWalk, h.upserts hFiled hWalk, h.deletes hFiled⟩
  · exact h.comparable ((MemoryTree.mem_getFullTree hFiled).mp hNode)
  · rcases h.named hWalk (mem_createdNames.mp hLabel).1 with hRead | ⟨_, _, _, -, -, -, hRead⟩
    · exact ⟨_, hRead⟩
    · exact ⟨_, hRead⟩

end Followed

section Runs

variable {library : YamlCpp} {yaml : Yaml} {t : TreeStore} {modifiedNodes : List TreeNode} {deletedLabels : List Str}

/-- After the changes, a stored node is one of the document, and equals its form. -/
theorem Followable.stored_after (h : Followable library yaml t.tree) (hExact : Exact library yaml t.tree modifiedNodes deletedLabels)
    {node : TreeNode} (hNode : (t.apply modifiedNodes deletedLabels).tree.getNode node.labelRule = some node) :
    ∃ path value form, NodeAt library.nullString yaml path value ∧ labelOf path = node.labelRule ∧
      formOf library path value = .ok form ∧ node.equals form = true := by
  by_cases hListed : Listed library yaml node.labelRule
  · obtain ⟨path, value, hAt, hLabel⟩ := hListed
    obtain ⟨form, hForm, -, hStores⟩ := h.forms path value hAt
    refine ⟨path, value, form, hAt, hLabel, hForm, ?_⟩
    by_cases hMem : form ∈ modifiedNodes
    · rcases hStores with ⟨stored, hStored, hEqual⟩ | hCopied
      · obtain ⟨path', value', hAt', hForm', hDiffers⟩ := (hExact.upserts form).mp hMem
        obtain ⟨rfl, rfl⟩ := hAt.eq_of_label hAt' (by rw [← labelRule_of_formOf hAt hForm, labelRule_of_formOf hAt' hForm'])
        rw [hDiffers stored hStored] at hEqual
        cases hEqual
      · have hWritten := hExact.getNode_form hMem
        rw [labelRule_of_formOf hAt hForm, hLabel, hNode, Option.some.injEq] at hWritten
        rw [hWritten]
        exact hCopied
    · obtain ⟨hKept, stored, hStored, hEqual⟩ := hExact.stored_of_not_mem hAt hForm hMem
      have hSame := hExact.getNode_kept ⟨path, value, hAt, rfl⟩ hKept
      rw [hLabel, hNode, ← hLabel, hStored, Option.some.injEq] at hSame
      rwa [hSame]
  · rw [hExact.getNode_unlisted hListed] at hNode
    cases hNode

/-- Every node of the document is stored after the changes. -/
theorem Exact.stored_of_listed (hExact : Exact library yaml t.tree modifiedNodes deletedLabels) {path : List Str} {value : Yaml}
    {form : TreeNode} (hAt : NodeAt library.nullString yaml path value) (hForm : formOf library path value = .ok form) :
    (t.apply modifiedNodes deletedLabels).tree.getNode (labelOf path) ≠ none := by
  by_cases hMem : form ∈ modifiedNodes
  · rw [← labelRule_of_formOf hAt hForm, hExact.getNode_form hMem]
    nofun
  · obtain ⟨hKept, stored, hStored, -⟩ := hExact.stored_of_not_mem hAt hForm hMem
    rw [hExact.getNode_kept ⟨path, value, hAt, rfl⟩ hKept, hStored]
    nofun

/-- The second time there is nothing to change. -/
theorem Followable.again (h : Followable library yaml t.tree) (hExact : Exact library yaml t.tree modifiedNodes deletedLabels) :
    Wwatp.changesFrom library yaml (t.apply modifiedNodes deletedLabels).tree.getFullTree = .ok ([], []) := by
  obtain ⟨names, hWalk, -⟩ := h.names
  have hFiled := (t.apply modifiedNodes deletedLabels).filed
  have hUnmodified : ∀ node ∈ (t.apply modifiedNodes deletedLabels).tree.getFullTree,
      isNodeModified library node yaml = .ok false := by
    intro node hNode
    obtain ⟨path, value, form, hAt, hLabel, hForm, hEqual⟩ :=
      h.stored_after hExact ((MemoryTree.mem_getFullTree hFiled).mp hNode)
    obtain ⟨_, hForm', hDescribed, -⟩ := h.forms path value hAt
    obtain rfl := Except.ok.inj (hForm.symm.trans hForm')
    rw [isNodeModified_form hAt hForm hDescribed hLabel.symm, hEqual]
    rfl
  have hNothing : ∀ label ∈ createdNames names (t.apply modifiedNodes deletedLabels).tree.getFullTree,
      getNodeFromYAML library label yaml = .ok none := by
    intro label hLabel
    obtain ⟨hIn, hNew⟩ := mem_createdNames.mp hLabel
    rcases h.named hWalk hIn with hRead | ⟨path, value, form, hAt, rfl, hForm, -⟩
    · exact hRead
    · exact absurd ((mem_names_iff_stored hFiled).mpr (hExact.stored_of_listed hAt hForm)) hNew
  refine changesFrom_eq_ok.mpr ⟨names, hWalk, fun node hNode => ⟨false, hUnmodified node hNode, nofun⟩,
    fun label hLabel => ⟨none, hNothing label hLabel⟩, ?_, ?_⟩
  · refine (List.eq_nil_iff_forall_not_mem.mpr fun form hForm => ?_).symm
    rcases mem_modifiedForms.mp hForm with ⟨node, hNode, hModified, -⟩ | ⟨name, hName, hFound⟩
    · rw [Modified, hUnmodified node hNode] at hModified
      cases hModified
    · rw [foundAt_of_read (hNothing name hName)] at hFound
      cases hFound
  · refine (List.eq_nil_iff_forall_not_mem.mpr fun node hNode => ?_).symm
    obtain ⟨hIn, hModified, -⟩ := mem_absentNodes.mp hNode
    rw [Modified, hUnmodified node hIn] at hModified
    cases hModified

end Runs

/-- Elements with different images are not found twice. -/
theorem eq_of_nodup_filterMap {α β γ : Type} {f : α → Option β} {g : β → γ} {l : List α}
    (h : ((l.filterMap f).map g).Nodup) {a b : α} (ha : a ∈ l) (hb : b ∈ l) {x y : β} (hx : f a = some x)
    (hy : f b = some y) (hSame : g x = g y) : a = b := by
  induction l with
  | nil => cases ha
  | cons first l ih =>
      have hOut {c : α} {z : β} (hFirst : f first = some z) (hc : c ∈ l) {w : β} (hw : f c = some w) : g z ≠ g w := by
        rw [List.filterMap_cons_some hFirst, List.map_cons, List.nodup_cons] at h
        exact fun hEq => h.1 (hEq ▸ List.mem_map_of_mem (List.mem_filterMap.mpr ⟨c, hc, hw⟩))
      have hRest : ((l.filterMap f).map g).Nodup := by
        cases hFirst : f first with
        | none => rwa [List.filterMap_cons_none hFirst] at h
        | some z =>
            rw [List.filterMap_cons_some hFirst, List.map_cons, List.nodup_cons] at h
            exact h.2
      rcases List.mem_cons.mp ha with rfl | haRest
      · rcases List.mem_cons.mp hb with rfl | hbRest
        · rfl
        · exact absurd hSame (hOut hx hbRest hy)
      · rcases List.mem_cons.mp hb with rfl | hbRest
        · exact absurd hSame.symm (hOut hy haRest hx)
        · exact ih hRest haRest hbRest

theorem read_present {library : YamlCpp} {yaml : Yaml} {label : Str} (h : nodeAt (split label) yaml ≠ none) :
    getNodeFromYAML library label yaml ≠ .ok none := by
  intro hRead
  unfold getNodeFromYAML at hRead
  dsimp only at hRead
  cases hAt : nodeAt (split label) yaml with
  | none => exact h hAt
  | some value =>
      rw [hAt] at hRead
      dsimp only at hRead
      cases hLast : (split label).getLast? with
      | none =>
          rw [hLast] at hRead
          cases hRead
      | some name =>
          rw [hLast] at hRead
          obtain ⟨form, -, hForm⟩ := Outcome.bind_eq_ok.mp hRead
          cases hForm

section Necessity

variable {library : YamlCpp} {yaml : Yaml} {t : TreeStore} {modifiedNodes deletedNodes : List TreeNode}

/-- What two runs say about the document: the first makes the right changes, the second none. -/
structure Settled (library : YamlCpp) (yaml : Yaml) (t : TreeStore) (modifiedNodes deletedNodes : List TreeNode) : Prop where
  changes : changesFrom library yaml t.tree.getFullTree = .ok (modifiedNodes, deletedNodes)
  exact : Exact library yaml t.tree modifiedNodes (deletedNodes.map TreeNode.labelRule)
  again : changesFrom library yaml (t.apply modifiedNodes (deletedNodes.map TreeNode.labelRule)).tree.getFullTree = .ok ([], [])

namespace Settled

variable (h : Settled library yaml t modifiedNodes deletedNodes) {path : List Str} {value : Yaml}
  (hAt : NodeAt library.nullString yaml path value)

include h hAt

theorem reads : ∃ form, formOf library path value = .ok form := by
  obtain ⟨names, hWalk, hComparable, hReads, -, -⟩ := changesFrom_eq_ok.mp h.changes
  cases hStored : t.tree.getNode (labelOf path) with
  | none =>
      have hCreated : labelOf path ∈ createdNames names t.tree.getFullTree :=
        mem_createdNames.mpr ⟨(hAt.walked hWalk).1, fun hMem => (mem_names_iff_stored t.filed).mp hMem hStored⟩
      obtain ⟨read, hRead⟩ := hReads _ hCreated
      rw [getNodeFromYAML_label hAt] at hRead
      cases hForm : formOf library path value with
      | error e =>
          rw [hForm] at hRead
          cases hRead
      | ok form => exact ⟨form, rfl⟩
  | some node =>
      have hLabel := t.filed _ node hStored
      obtain ⟨modified, hModified, -⟩ := hComparable node ((MemoryTree.mem_getFullTree t.filed).mpr (hLabel ▸ hStored))
      rw [isNodeModified_label hAt hLabel] at hModified
      cases hForm : formOf library path value with
      | error e =>
          rw [hForm] at hModified
          cases hModified
      | ok form => exact ⟨form, rfl⟩

variable {form : TreeNode} (hForm : formOf library path value = .ok form)

include hForm

/-- After the first run, the stored node is not modified. -/
theorem unmodified {node : TreeNode}
    (hNode : (t.apply modifiedNodes (deletedNodes.map TreeNode.labelRule)).tree.getNode (labelOf path) = some node) :
    isNodeModified library node yaml = .ok false := by
  have hFiled := (t.apply modifiedNodes (deletedNodes.map TreeNode.labelRule)).filed
  have hLabel := hFiled _ node hNode
  have hMem := (MemoryTree.mem_getFullTree hFiled).mpr (hLabel ▸ hNode)
  obtain ⟨names, hWalk, hComparable, -, hNone, -⟩ := changesFrom_eq_ok.mp h.again
  obtain ⟨modified, hModified, -⟩ := hComparable node hMem
  cases modified with
  | false => exact hModified
  | true =>
      have hFound : foundAt library yaml node.labelRule = some form := by
        rw [hLabel, foundAt_label hAt, hForm]
        rfl
      have hIn := mem_modifiedForms.mpr (.inl ⟨node, hMem, hModified, hFound⟩ :
        _ ∨ ∃ name ∈ createdNames names _, foundAt library yaml name = some form)
      rw [← hNone] at hIn
      cases hIn

/-- The stored node after the first run: the form as it is assigned, or the equal node that was there. -/
theorem stored : (form ∈ modifiedNodes ∧
      (t.apply modifiedNodes (deletedNodes.map TreeNode.labelRule)).tree.getNode (labelOf path) = some form.assign) ∨
    ∃ node, t.tree.getNode (labelOf path) = some node ∧ node.equals form = true ∧
      (t.apply modifiedNodes (deletedNodes.map TreeNode.labelRule)).tree.getNode (labelOf path) = some node := by
  by_cases hMem : form ∈ modifiedNodes
  · left
    rw [← labelRule_of_formOf hAt hForm]
    exact ⟨hMem, h.exact.getNode_form hMem⟩
  · right
    obtain ⟨hKept, node, hStored, hEqual⟩ := h.exact.stored_of_not_mem hAt hForm hMem
    exact ⟨node, hStored, hEqual, (h.exact.getNode_kept ⟨path, value, hAt, rfl⟩ hKept).trans hStored⟩

theorem described (hNested : path.length ≠ 1) : Described value := by
  by_contra hNone
  have hName := description_of_formOf hForm hNone
  obtain ⟨node, hNode, hDescription⟩ : ∃ node,
      (t.apply modifiedNodes (deletedNodes.map TreeNode.labelRule)).tree.getNode (labelOf path) = some node ∧
        node.description = form.description := by
    rcases h.stored hAt hForm with ⟨-, hNode⟩ | ⟨node, -, hEqual, hNode⟩
    · exact ⟨form.assign, hNode, rfl⟩
    · exact ⟨node, hNode, congrArg (fun fields => fields.2.1) (TreeNode.equals_iff.mp hEqual)⟩
  have hCompared := h.unmodified hAt hForm hNode
  rw [isNodeModified_label hAt ((t.apply _ _).filed _ node hNode), hForm] at hCompared
  simp only [Except.map, if_neg hNone, Except.ok.injEq, Bool.not_eq_false'] at hCompared
  have hWhole : node.description = labelOf path := congrArg (fun fields => fields.2.1) (TreeNode.equals_iff.mp hCompared)
  exact labelOf_ne_name hAt hNested (by rw [← hWhole, hDescription, hName])

theorem stores : (∃ stored, t.tree.getNode (labelOf path) = some stored ∧ stored.equals form = true) ∨
    form.assign.equals form = true := by
  rcases h.stored hAt hForm with ⟨-, hNode⟩ | ⟨node, hStored, hEqual, -⟩
  · right
    have hCompared := h.unmodified hAt hForm hNode
    have hLabel : form.assign.labelRule = labelOf path := form.assign_labelRule.trans (labelRule_of_formOf hAt hForm)
    rw [isNodeModified_form hAt hForm (h.described hAt hForm) hLabel] at hCompared
    simpa using hCompared
  · exact .inl ⟨node, hStored, hEqual⟩

omit hAt hForm in
/-- Nothing is taken for a node that is not one. -/
theorem listed {label : Str} {names : List Str} (hWalk : walkNames library yaml = .ok names)
    (hKnown : label ∈ names ∨ t.tree.getNode label ≠ none) (hLeads : nodeAt (split label) yaml ≠ none) :
    Listed library yaml label := by
  obtain ⟨_, hWalk', hComparable, hReads, hModifiedNodes, hDeletedNodes⟩ := changesFrom_eq_ok.mp h.changes
  obtain rfl := Except.ok.inj (hWalk.symm.trans hWalk')
  by_contra hUnlisted
  by_cases hStored : t.tree.getNode label = none
  · have hCreated : label ∈ createdNames names t.tree.getFullTree := mem_createdNames.mpr
      ⟨hKnown.resolve_right (not_not_intro hStored), fun hMem => (mem_names_iff_stored t.filed).mp hMem hStored⟩
    obtain ⟨read, hRead⟩ := hReads label hCreated
    have hSome : read ≠ none := fun hNone => read_present hLeads (hNone ▸ hRead)
    obtain ⟨form, rfl⟩ := Option.ne_none_iff_exists'.mp hSome
    have hFound := foundAt_of_read hRead
    have hMem : form ∈ modifiedNodes := by
      rw [hModifiedNodes]
      exact mem_modifiedForms.mpr (.inr ⟨label, hCreated, hFound⟩)
    obtain ⟨path, value, hAt, hForm, hDiffers⟩ := (h.exact.upserts form).mp hMem
    have hLabel := labelRule_of_formOf hAt hForm
    have hFound' : foundAt library yaml (labelOf path) = some form := by
      rw [foundAt_label hAt, hForm]
      rfl
    -- the node is upserted for its own label as well
    have hOnce := h.exact.once
    rw [hModifiedNodes, modifiedForms, List.map_append, List.nodup_append] at hOnce
    obtain ⟨-, hOnceCreated, hApart⟩ := hOnce
    cases hOwn : t.tree.getNode (labelOf path) with
    | none =>
        have hOwnCreated : labelOf path ∈ createdNames names t.tree.getFullTree := mem_createdNames.mpr
          ⟨(hAt.walked hWalk).1, fun hMem => (mem_names_iff_stored t.filed).mp hMem hOwn⟩
        exact hUnlisted ⟨path, value, hAt, eq_of_nodup_filterMap hOnceCreated hOwnCreated hCreated hFound' hFound rfl⟩
    | some node =>
        have hNode := t.filed _ node hOwn
        have hModified : Modified library yaml node := by
          rw [Modified, isNodeModified_form hAt hForm (h.described hAt hForm) hNode, hDiffers node hOwn]
          rfl
        refine hApart form.labelRule ?_ form.labelRule ?_ rfl
        · refine List.mem_map_of_mem (List.mem_filterMap.mpr ⟨node, List.mem_filter.mpr ⟨?_, decide_eq_true hModified⟩, ?_⟩)
          · exact (MemoryTree.mem_getFullTree t.filed).mpr (hNode ▸ hOwn)
          · rw [hNode, hFound']
        · exact List.mem_map_of_mem (List.mem_filterMap.mpr ⟨label, hCreated, hFound⟩)
  · obtain ⟨node, hNode, rfl⟩ := List.mem_map.mp ((h.exact.deletes label).mpr ⟨hStored, hUnlisted⟩)
    rw [hDeletedNodes] at hNode
    obtain ⟨hIn, hModified, hNone⟩ := mem_absentNodes.mp hNode
    obtain ⟨modified, hSame, hReads⟩ := hComparable node hIn
    obtain ⟨read, hRead⟩ := hReads (Except.ok.inj (hSame.symm.trans hModified))
    rw [foundAt_of_read hRead] at hNone
    exact read_present hLeads (hNone ▸ hRead)

omit hAt hForm in
theorem followable : Followable library yaml t.tree := by
  obtain ⟨names, hWalk, -⟩ := changesFrom_eq_ok.mp h.changes
  refine ⟨⟨names, hWalk, fun label => h.listed hWalk⟩, fun path value hAt => ?_⟩
  obtain ⟨form, hForm⟩ := h.reads hAt
  exact ⟨form, hForm, h.described hAt hForm, h.stores hAt hForm⟩

end Settled

end Necessity

/-- The writes show which nodes were upserted and which labels deleted. -/
theorem writesOf_injective {modifiedNodes modifiedNodes' : List TreeNode} {deletedLabels deletedLabels' : List Str}
    (h : writesOf modifiedNodes deletedLabels = writesOf modifiedNodes' deletedLabels') :
    modifiedNodes = modifiedNodes' ∧ deletedLabels = deletedLabels' := by
  have hDeletions : Function.Injective (List.map TreeChange.deleteNode) :=
    List.map_injective_iff.mpr fun _ _ hSame => TreeChange.deleteNode.inj hSame
  have hUpsert (nodes : List TreeNode) (first second : List Str) :
      TreeChange.upsertNode nodes :: first.map .deleteNode ≠ second.map .deleteNode := by
    cases second <;> simp
  unfold writesOf at h
  by_cases hNone : modifiedNodes = []
  · by_cases hNone' : modifiedNodes' = []
    · rw [if_neg (not_not_intro hNone), if_neg (not_not_intro hNone')] at h
      exact ⟨hNone.trans hNone'.symm, hDeletions h⟩
    · rw [if_neg (not_not_intro hNone), if_pos hNone'] at h
      exact absurd h.symm (hUpsert _ _ _)
  · by_cases hNone' : modifiedNodes' = []
    · rw [if_pos hNone, if_neg (not_not_intro hNone')] at h
      exact absurd h (hUpsert _ _ _)
    · rw [if_pos hNone, if_pos hNone'] at h
      obtain ⟨hHead, hTail⟩ := List.cons_eq_cons.mp h
      exact ⟨TreeChange.upsertNode.inj hHead, hDeletions hTail⟩

namespace YAMLMediatorState

variable {library : YamlCpp} {specifier : PropertySpecifier} {labelRule : Str} {node : TreeNode} {yaml document : Yaml}
  {t after : TreeStore}

/-- A run that returns has made the changes that were asked for. -/
theorem changesFrom_of_returns (hDocument : loadDocument library specifier node = .ok yaml)
    (hRun : fromYAMLCallback library TreeStore.backend specifier labelRule (some node) ⟨false, false, document, t⟩ =
      (.ok (), ⟨false, false, yaml, after⟩)) :
    ∃ modifiedNodes deletedNodes, changesFrom library yaml t.tree.getFullTree = .ok (modifiedNodes, deletedNodes) ∧
      after = t.apply modifiedNodes (deletedNodes.map TreeNode.labelRule) := by
  cases hChanges : changesFrom library yaml t.tree.getFullTree with
  | error e =>
      have hThrown : (fromYAMLCallback library TreeStore.backend specifier labelRule (some node)
          ⟨false, false, document, t⟩).1 = .error e := fromYAMLCallback_error hDocument hChanges
      rw [hRun] at hThrown
      cases hThrown
  | ok changes =>
      obtain ⟨modifiedNodes, deletedNodes⟩ := changes
      rw [fromYAMLCallback_eq hDocument hChanges, Prod.mk.injEq, YAMLMediatorState.mk.injEq] at hRun
      exact ⟨modifiedNodes, deletedNodes, rfl, hRun.2.2.2.2.symm⟩

variable (library specifier labelRule node yaml document t) in
/-- An idle mediator whose YAML node changes to a document makes the tree follow it, and changes nothing when it
sees the document again. -/
def FollowsTwice : Prop :=
  ∃ after, fromYAMLCallback library TreeStore.backend specifier labelRule (some node) ⟨false, false, document, t⟩ =
      (.ok (), ⟨false, false, yaml, after⟩) ∧
    Follows library yaml t after ∧
    fromYAMLCallback library TreeStore.backend specifier labelRule (some node) ⟨false, false, yaml, after⟩ =
      (.ok (), ⟨false, false, yaml, after⟩)

theorem FollowsTwice.followable (hDocument : loadDocument library specifier node = .ok yaml)
    (h : FollowsTwice library specifier labelRule node yaml document t) : Followable library yaml t.tree := by
  obtain ⟨after, hFirst, hFollows, hSecond⟩ := h
  obtain ⟨modifiedNodes, deletedNodes, hChanges, rfl⟩ := changesFrom_of_returns hDocument hFirst
  obtain ⟨modifiedNodes', deletedLabels, hWrites, hExact⟩ := hFollows.writes
  rw [TreeStore.calls_apply, List.append_cancel_left_eq] at hWrites
  obtain ⟨rfl, rfl⟩ := writesOf_injective hWrites
  obtain ⟨again, gone, hAgain, hSame⟩ := changesFrom_of_returns hDocument hSecond
  have hCalls := congrArg TreeStore.calls hSame
  rw [TreeStore.calls_apply _ again, List.self_eq_append_right] at hCalls
  have hNothing : writesOf again (gone.map TreeNode.labelRule) = writesOf [] [] := hCalls
  obtain ⟨rfl, hGone⟩ := writesOf_injective hNothing
  rw [List.map_eq_nil_iff.mp hGone] at hAgain
  exact (Settled.mk hChanges hExact hAgain).followable

theorem FollowsTwice.of_followable (hDocument : loadDocument library specifier node = .ok yaml)
    (h : Followable library yaml t.tree) : FollowsTwice library specifier labelRule node yaml document t := by
  obtain ⟨modifiedNodes, deletedNodes, hChanges, hExact⟩ := h.changesFrom t.filed
  refine ⟨t.apply modifiedNodes (deletedNodes.map TreeNode.labelRule), fromYAMLCallback_eq hDocument hChanges,
    ⟨⟨_, _, TreeStore.calls_apply _ _ _, hExact⟩, ?_⟩, fromYAMLCallback_eq hDocument (h.again hExact)⟩
  intro path value form stored hAt hForm hStored hEqual
  have hNot : form ∉ modifiedNodes := by
    intro hMem
    obtain ⟨path', value', hAt', hForm', hDiffers⟩ := (hExact.upserts form).mp hMem
    obtain ⟨rfl, rfl⟩ := hAt.eq_of_label hAt' (by rw [← labelRule_of_formOf hAt hForm, labelRule_of_formOf hAt' hForm'])
    rw [hDiffers stored hStored] at hEqual
    cases hEqual
  obtain ⟨hKept, -⟩ := hExact.stored_of_not_mem hAt hForm hNot
  rw [hExact.getNode_kept ⟨path, value, hAt, rfl⟩ hKept, hStored]

/-- The tree follows the document, and a second run changes nothing, exactly when the document can be followed
from the tree. -/
theorem followsTwice_iff (library : YamlCpp) (specifier : PropertySpecifier) (labelRule : Str) (node : TreeNode)
    (yaml document : Yaml) (t : TreeStore) (hDocument : loadDocument library specifier node = .ok yaml) :
    FollowsTwice library specifier labelRule node yaml document t ↔ Followable library yaml t.tree :=
  ⟨FollowsTwice.followable hDocument, FollowsTwice.of_followable hDocument⟩

/-- A property `tree` for documents, and a node that has it. -/
def treeProperty : PropertySpecifier := ⟨str "config", str "tree", str "yaml"⟩

def container : TreeNode where
  labelRule := str "config"
  propertyInfos := [(str "yaml", str "tree")]
  propertyData := .concat [.ofSignal (.payload ⟨0, 0x00, 8⟩) (leBytes 8 3), .ofSignal (.payload ⟨0, 0x00, 3⟩) (str "a: ")]

def emptyStore : TreeStore where
  tree := .empty
  filed := by simp [MemoryTree.FiledUnderOwnLabels]
  calls := []

theorem followsTwice_iff_single :
    FollowsTwice (.parsing (.map [(str "a", .map [])])) treeProperty (str "config") container
        (.map [(str "a", .map [])]) .null emptyStore ↔
      Followable (.parsing (.map [(str "a", .map [])])) (.map [(str "a", .map [])]) emptyStore.tree :=
  followsTwice_iff _ treeProperty (str "config") container _ .null emptyStore (by rfl)

/-- A node below another one, without a description: it is upserted again and again. -/
def nestedDocument : Yaml :=
  .map [(str "a", .map [(str "child_names", .sequence [.scalar (str "b")]), (str "b", .map [])])]

theorem not_followsTwice_nested : loadDocument (.parsing nestedDocument) treeProperty container = .ok nestedDocument ∧
    ¬FollowsTwice (.parsing nestedDocument) treeProperty (str "config") container nestedDocument .null emptyStore := by
  have hDocument : loadDocument (.parsing nestedDocument) treeProperty container = .ok nestedDocument := by rfl
  refine ⟨hDocument, fun hFollows => ?_⟩
  have hTop : NodeAt none nestedDocument [str "a"] _ := .top rfl rfl ⟨by decide, by decide⟩
  have hNested : NodeAt none nestedDocument [str "a", str "b"] (.map []) :=
    .child hTop rfl rfl (List.mem_singleton.mpr rfl) rfl ⟨by decide, by decide⟩
  obtain ⟨_, -, hDescribed, -⟩ := (hFollows.followable hDocument).forms _ _ hNested
  exact hDescribed (by decide) rfl

end YAMLMediatorState

end Wwatp
