import Wwatp.Mediator.DocumentNodes
import Wwatp.Memory.TreeChanges

/-! What `fromYAMLCallback` makes of a document: which nodes it upserts, which it deletes, and what it does
when it sees the document again. -/
namespace Wwatp

open Cxx Cxx.Effectful

/-- A tree backend that files each node under its own label, with the writes that were made to it. Its
listeners are left out: that of the mediator ignores the writes that the callback makes. -/
structure TreeStore where
  tree : MemoryTree
  filed : tree.FiledUnderOwnLabels
  calls : List TreeChange

/-- The writes of one callback in their order. -/
def writesOf (modifiedNodes : List TreeNode) (deletedLabels : List Str) : List TreeChange :=
  (if modifiedNodes ≠ [] then [.upsertNode modifiedNodes] else []) ++ deletedLabels.map .deleteNode

namespace TreeStore

theorem filed_upsertNode {t : MemoryTree} (h : t.FiledUnderOwnLabels) (nodes : List TreeNode) :
    (t.upsertNode nodes).FiledUnderOwnLabels := by
  have hFaithful : (TreeChange.upsertNode nodes).AnnouncedFaithfully t (t.upsertNode nodes) :=
    TreeChange.announcedFaithfully_of_perform trivial rfl
  exact hFaithful.filedUnderOwnLabels h

theorem filed_deleteNode {t : MemoryTree} (h : t.FiledUnderOwnLabels) (label : Str) :
    (t.deleteNode label).1.FiledUnderOwnLabels := by
  have hFaithful : (TreeChange.deleteNode label).AnnouncedFaithfully t (t.deleteNode label).1 :=
    TreeChange.announcedFaithfully_of_perform trivial rfl
  exact hFaithful.filedUnderOwnLabels h

def upsertNode (t : TreeStore) (nodes : List TreeNode) : TreeStore where
  tree := t.tree.upsertNode nodes
  filed := filed_upsertNode t.filed nodes
  calls := t.calls ++ [.upsertNode nodes]

def deleteNode (t : TreeStore) (label : Str) : TreeStore where
  tree := (t.tree.deleteNode label).1
  filed := filed_deleteNode t.filed label
  calls := t.calls ++ [.deleteNode label]

/-- The writes of one callback. -/
def apply (t : TreeStore) (modifiedNodes : List TreeNode) (deletedLabels : List Str) : TreeStore :=
  deletedLabels.foldl deleteNode (if modifiedNodes ≠ [] then t.upsertNode modifiedNodes else t)

/-- The store as a mediator calls it. -/
def backend : MediatedBackend (YAMLMediatorState TreeStore) where
  getNode label := look fun s => s.rest.tree.getNode label
  upsertNode nodes := change fun s => { s with rest := s.rest.upsertNode nodes }
  deleteNode label := change fun s => { s with rest := s.rest.deleteNode label }
  getFullTree := look fun s => s.rest.tree.getFullTree

theorem calls_foldl (t : TreeStore) (labels : List Str) :
    (labels.foldl deleteNode t).calls = t.calls ++ labels.map .deleteNode := by
  induction labels generalizing t with
  | nil => simp
  | cons label labels ih =>
      rw [List.foldl_cons, ih, deleteNode, List.map_cons, List.append_assoc, List.singleton_append]

theorem calls_apply (t : TreeStore) (modifiedNodes : List TreeNode) (deletedLabels : List Str) :
    (t.apply modifiedNodes deletedLabels).calls = t.calls ++ writesOf modifiedNodes deletedLabels := by
  rw [apply, calls_foldl, writesOf, ← List.append_assoc]
  split_ifs
  · rfl
  · rw [List.append_nil]

theorem tree_foldl (t : TreeStore) (labels : List Str) :
    (labels.foldl deleteNode t).tree = labels.foldl (fun tree label => (tree.deleteNode label).1) t.tree := by
  induction labels generalizing t with
  | nil => rfl
  | cons label labels ih => exact ih _

theorem tree_apply (t : TreeStore) (modifiedNodes : List TreeNode) (deletedLabels : List Str) :
    (t.apply modifiedNodes deletedLabels).tree =
      deletedLabels.foldl (fun tree label => (tree.deleteNode label).1) (t.tree.upsertNode modifiedNodes) := by
  rw [apply, tree_foldl]
  by_cases hNone : modifiedNodes = []
  · rw [if_neg (not_not_intro hNone), hNone]
    rfl
  · rw [if_pos hNone]
    rfl

end TreeStore

namespace YAMLMediatorState

variable {library : YamlCpp} {specifier : PropertySpecifier} {labelRule : Str} {node : TreeNode} {yaml document : Yaml}
  {t : TreeStore}

theorem forEach_deleteNode (nodes : List TreeNode) (processingTree processingYAMLTree : Bool) (t : TreeStore) :
    forEach (fun node => TreeStore.backend.deleteNode node.labelRule) nodes ⟨processingTree, processingYAMLTree, yaml, t⟩ =
      (.ok (), ⟨processingTree, processingYAMLTree, yaml, (nodes.map TreeNode.labelRule).foldl .deleteNode t⟩) := by
  induction nodes generalizing t with
  | nil => rfl
  | cons node nodes ih => exact ih _

/-- An idle mediator makes the changes that the document asks for. -/
theorem fromYAMLCallback_eq (hDocument : loadDocument library specifier node = .ok yaml)
    {modifiedNodes deletedNodes : List TreeNode}
    (h : changesFrom library yaml t.tree.getFullTree = .ok (modifiedNodes, deletedNodes)) :
    fromYAMLCallback library TreeStore.backend specifier labelRule (some node) ⟨false, false, document, t⟩ =
      (.ok (), ⟨false, false, yaml, t.apply modifiedNodes (deletedNodes.map TreeNode.labelRule)⟩) := by
  have hFollowed : followDocument library TreeStore.backend specifier node ⟨false, true, document, t⟩ =
      (.ok (), ⟨false, true, yaml, t.apply modifiedNodes (deletedNodes.map TreeNode.labelRule)⟩) := by
    have hTree : TreeStore.backend.getFullTree ⟨false, true, document, t⟩ =
        (.ok t.tree.getFullTree, ⟨false, true, document, t⟩) := rfl
    rw [followDocument, bind_ok hTree, bind_inspect (f := fun _ => loadDocument library specifier node) hDocument, bind_change,
      bind_inspect (f := fun _ => changesFrom library yaml t.tree.getFullTree) h, TreeStore.apply,
      ← forEach_deleteNode deletedNodes false true]
    dsimp only
    split_ifs with hModified
    · exact bind_ok rfl
    · rfl
  unfold fromYAMLCallback
  rw [ProcessingFlags.guarded_of_idle _ _ rfl]
  exact bind_ok hFollowed

theorem fromYAMLCallback_error (hDocument : loadDocument library specifier node = .ok yaml) {e : Fault}
    (h : changesFrom library yaml t.tree.getFullTree = .error e) :
    (fromYAMLCallback library TreeStore.backend specifier labelRule (some node) ⟨false, false, document, t⟩).1 = .error e := by
  have hFollowed : followDocument library TreeStore.backend specifier node ⟨false, true, document, t⟩ =
      (.error e, ⟨false, true, yaml, t⟩) := by
    have hTree : TreeStore.backend.getFullTree ⟨false, true, document, t⟩ =
        (.ok t.tree.getFullTree, ⟨false, true, document, t⟩) := rfl
    rw [followDocument, bind_ok hTree, bind_inspect (f := fun _ => loadDocument library specifier node) hDocument, bind_change]
    exact bind_error (congrArg (·, _) h)
  unfold fromYAMLCallback
  rw [ProcessingFlags.guarded_of_idle _ _ rfl]
  exact congrArg Prod.fst (bind_error hFollowed)

end YAMLMediatorState

section Changes

variable (library : YamlCpp) (yaml : Yaml)

/-- The node that `getNodeFromYAML` returns, if it does. -/
def foundAt (label : Str) : Option TreeNode := (getNodeFromYAML library label yaml).toOption.join

def Modified (node : TreeNode) : Prop := isNodeModified library node yaml = .ok true

instance (node : TreeNode) : Decidable (Modified library yaml node) :=
  inferInstanceAs (Decidable (_ = _))

/-- The comparison of a stored node returns, and so does the call that reads it again. -/
def Comparable (node : TreeNode) : Prop :=
  ∃ modified, isNodeModified library node yaml = .ok modified ∧
    (modified = true → ∃ read, getNodeFromYAML library node.labelRule yaml = .ok read)

variable {library yaml} {nodes modifiedNodes deletedNodes : List TreeNode} {names : List Str}

theorem mem_createdNames {name : Str} :
    name ∈ createdNames names nodes ↔ name ∈ names ∧ name ∉ nodes.map TreeNode.labelRule := by
  simp [createdNames]

theorem nodup_createdNames : (createdNames names nodes).Nodup := by
  rw [createdNames, (List.perm_insertionSort _ _).nodup_iff]
  exact List.nodup_dedup _

/-- What the loop over the stored nodes collects. -/
theorem compareStored_eq_ok : compareStored library yaml nodes = .ok (modifiedNodes, deletedNodes) ↔
    (∀ node ∈ nodes, Comparable library yaml node) ∧
      modifiedNodes = (nodes.filter (Modified library yaml ·)).filterMap (fun node => foundAt library yaml node.labelRule) ∧
      deletedNodes = nodes.filter fun node => Modified library yaml node ∧ foundAt library yaml node.labelRule = none := by
  induction nodes generalizing modifiedNodes deletedNodes with
  | nil => simp [compareStored, eq_comm]
  | cons node rest ih =>
      rw [compareStored, List.forall_mem_cons]
      cases hModified : isNodeModified library node yaml with
      | error e =>
          have hNot : ¬Comparable library yaml node := fun ⟨_, hRead, _⟩ => by rw [hModified] at hRead; cases hRead
          simp [hNot]
      | ok modified =>
          have hIff : Modified library yaml node ↔ modified = true := by
            rw [Modified, hModified, Except.ok.injEq]
          cases modified with
          | false =>
              have hComparable : Comparable library yaml node := ⟨false, hModified, nofun⟩
              simp [hComparable, hIff, ih]
          | true =>
              cases hRead : getNodeFromYAML library node.labelRule yaml with
              | error e =>
                  have hNot : ¬Comparable library yaml node := by
                    rintro ⟨modified, hSame, hReads⟩
                    rw [hModified, Except.ok.injEq] at hSame
                    obtain ⟨read, hRead'⟩ := hReads hSame.symm
                    rw [hRead] at hRead'
                    cases hRead'
                  simp [hNot]
              | ok read =>
                  have hComparable : Comparable library yaml node := ⟨true, hModified, fun _ => ⟨read, hRead⟩⟩
                  have hFound : foundAt library yaml node.labelRule = read := by
                    rw [foundAt, hRead]
                    rfl
                  cases read with
                  | none =>
                      simpa [hComparable, hIff, hFound, Outcome.bind_eq_ok, ih] using fun _ => and_congr eq_comm eq_comm
                  | some form =>
                      simp only [Outcome.pure_eq_ok, Outcome.ok_bind, ↓reduceIte, Outcome.bind_eq_ok, ih, Bool.decide_and,
                        Except.ok.injEq, Prod.mk.injEq, Prod.exists, exists_eq_right_right, ↓existsAndEq, true_and,
                        hComparable, hIff, decide_true, List.filter_cons_of_pos, hFound, Option.some.injEq,
                        List.filterMap_cons_some, reduceCtorEq, decide_false, Bool.and_false, Bool.false_eq_true,
                        not_false_eq_true, List.filter_cons_of_neg]
                      exact ⟨fun ⟨⟨hAll, hDeleted⟩, hModified⟩ => ⟨hAll, hModified.symm, hDeleted⟩,
                        fun ⟨hAll, hModified, hDeleted⟩ => ⟨⟨hAll, hDeleted⟩, hModified.symm⟩⟩

theorem readCreated_eq_ok {labels : List Str} : readCreated library yaml labels = .ok modifiedNodes ↔
    (∀ label ∈ labels, ∃ read, getNodeFromYAML library label yaml = .ok read) ∧
      modifiedNodes = labels.filterMap (foundAt library yaml) := by
  induction labels generalizing modifiedNodes with
  | nil => simp [readCreated, eq_comm]
  | cons label rest ih =>
      rw [readCreated, List.forall_mem_cons]
      cases hRead : getNodeFromYAML library label yaml with
      | error e => simp
      | ok read =>
          have hFound : foundAt library yaml label = read := by
            rw [foundAt, hRead]
            rfl
          cases read with
          | none => simp [hFound, ih]
          | some form =>
              simpa [hFound, Outcome.bind_eq_ok, ih] using fun _ => eq_comm

variable (library yaml nodes) in
/-- The nodes that are upserted: the forms of the modified nodes, and of the created names. -/
def modifiedForms (names : List Str) : List TreeNode :=
  (nodes.filter (Modified library yaml ·)).filterMap (fun node => foundAt library yaml node.labelRule) ++
    (createdNames names nodes).filterMap (foundAt library yaml)

variable (library yaml nodes) in
def absentNodes : List TreeNode :=
  nodes.filter fun node => Modified library yaml node ∧ foundAt library yaml node.labelRule = none

theorem mem_modifiedForms {form : TreeNode} : form ∈ modifiedForms library yaml nodes names ↔
    (∃ node ∈ nodes, Modified library yaml node ∧ foundAt library yaml node.labelRule = some form) ∨
      ∃ name ∈ createdNames names nodes, foundAt library yaml name = some form := by
  simp only [modifiedForms, List.mem_append, List.mem_filterMap, List.mem_filter, decide_eq_true_eq, and_assoc]

theorem mem_absentNodes {node : TreeNode} : node ∈ absentNodes library yaml nodes ↔
    node ∈ nodes ∧ Modified library yaml node ∧ foundAt library yaml node.labelRule = none := by
  simp only [absentNodes, List.mem_filter, decide_eq_true_eq]

/-- The changes are those of the stored nodes and of the created names, if all of them can be read. -/
theorem changesFrom_eq_ok : changesFrom library yaml nodes = .ok (modifiedNodes, deletedNodes) ↔
    ∃ names, walkNames library yaml = .ok names ∧ (∀ node ∈ nodes, Comparable library yaml node) ∧
      (∀ label ∈ createdNames names nodes, ∃ read, getNodeFromYAML library label yaml = .ok read) ∧
      modifiedNodes = modifiedForms library yaml nodes names ∧ deletedNodes = absentNodes library yaml nodes := by
  simp only [changesFrom, Outcome.bind_eq_ok, Prod.exists, compareStored_eq_ok, Outcome.pure_eq_ok, Except.ok.injEq,
    Prod.mk.injEq, readCreated_eq_ok]
  constructor
  · rintro ⟨names, hNames, _, _, ⟨hAll, rfl, rfl⟩, _, ⟨hReads, rfl⟩, rfl, rfl⟩
    exact ⟨names, hNames, hAll, hReads, rfl, rfl⟩
  · rintro ⟨names, hNames, hAll, hReads, rfl, rfl⟩
    exact ⟨names, hNames, _, _, ⟨hAll, rfl, rfl⟩, _, ⟨hReads, rfl⟩, rfl, rfl⟩

end Changes

namespace MemoryTree

variable {t : MemoryTree} {nodes : List TreeNode} {label key : Str}

theorem mem_getFullTree (h : t.FiledUnderOwnLabels) {node : TreeNode} :
    node ∈ t.getFullTree ↔ t.getNode node.labelRule = some node := by
  constructor
  · intro hMem
    obtain ⟨⟨key, node⟩, hEntry, rfl⟩ := List.mem_map.mp hMem
    have hStored : t.getNode key = some node := Std.ExtTreeMap.mem_toList_iff_getElem?_eq_some.mp hEntry
    rw [h key node hStored]
    exact hStored
  · exact fun hStored => List.mem_map.mpr
      ⟨(node.labelRule, node), Std.ExtTreeMap.mem_toList_iff_getElem?_eq_some.mpr hStored, rfl⟩

theorem nodup_labels (h : t.FiledUnderOwnLabels) : (t.getFullTree.map TreeNode.labelRule).Nodup := by
  have hKeys : t.getFullTree.map TreeNode.labelRule = t.tree.keys := by
    rw [← Std.ExtTreeMap.map_fst_toList_eq_keys, getFullTree, List.map_map]
    exact List.map_congr_left fun entry hEntry => h _ _ (Std.ExtTreeMap.mem_toList_iff_getElem?_eq_some.mp hEntry)
  rw [hKeys]
  exact Std.ExtTreeMap.nodup_keys

theorem getNode_upsertNode_of_not_mem (hLabel : label ∉ nodes.map TreeNode.labelRule) :
    (t.upsertNode nodes).getNode label = t.getNode label := by
  induction nodes generalizing t with
  | nil => rfl
  | cons node nodes ih =>
      rw [List.map_cons, List.mem_cons, not_or] at hLabel
      exact (ih hLabel.2).trans (by rw [getNode_set, if_neg (Ne.symm hLabel.1)])

theorem getNode_upsertNode_of_mem (hNodup : (nodes.map TreeNode.labelRule).Nodup) {node : TreeNode} (hMem : node ∈ nodes) :
    (t.upsertNode nodes).getNode node.labelRule = some node.assign := by
  induction nodes generalizing t with
  | nil => cases hMem
  | cons first nodes ih =>
      rw [List.map_cons, List.nodup_cons] at hNodup
      rcases List.mem_cons.mp hMem with rfl | hRest
      · exact (getNode_upsertNode_of_not_mem hNodup.1).trans (by rw [getNode_set, if_pos rfl])
      · exact ih hNodup.2 hRest

/-- Nothing but what is below the label is in the work of a deletion. -/
theorem getNode_deleteLoop_of_not_below (h : t.FiledUnderOwnLabels) (work : List Str)
    (hWork : ∀ current ∈ work, label ++ [chr '/'] <+: current) (hBelow : ¬label ++ [chr '/'] <+: key) :
    (deleteLoop label t work).getNode key = t.getNode key := by
  induction t, work using deleteLoop.induct label with
  | case1 t => rw [deleteLoop]
  | case2 t current rest hNone ih =>
      rw [deleteLoop_of_none hNone]
      exact ih h fun other hOther => hWork other (List.mem_cons_of_mem _ hOther)
  | case3 t current rest node hSome children ih =>
      have hCurrent := hWork current List.mem_cons_self
      have hErased : (t.erase current).FiledUnderOwnLabels := by
        intro other stored hStored
        rw [getNode_erase] at hStored
        split_ifs at hStored
        exact h other stored hStored
      rw [deleteLoop_of_some hSome, ih hErased, getNode_erase, if_neg]
      · exact fun hKey => hBelow (hKey ▸ hCurrent)
      · intro other hOther
        rcases List.mem_append.mp hOther with hChild | hRest
        · obtain ⟨hChild, -⟩ := List.mem_filter.mp (List.mem_reverse.mp hChild)
          obtain ⟨child, -, rfl⟩ := List.mem_map.mp hChild
          rw [h current node hSome, List.append_assoc]
          exact hCurrent.trans (List.prefix_append _ _)
        · exact hWork other (List.mem_cons_of_mem _ hRest)

/-- A deletion takes along only what is below the label. -/
theorem getNode_deleteNode_of_not_below (h : t.FiledUnderOwnLabels) (hLabel : key ≠ label)
    (hBelow : ¬label ++ [chr '/'] <+: key) : (t.deleteNode label).1.getNode key = t.getNode key := by
  unfold deleteNode
  cases hStored : t.getNode label with
  | none => rfl
  | some node =>
      have hErased : (t.erase label).FiledUnderOwnLabels := by
        intro other stored hHeld
        rw [getNode_erase] at hHeld
        split_ifs at hHeld
        exact h other stored hHeld
      dsimp only
      rw [getNode_deleteLoop_of_not_below hErased _ _ hBelow, getNode_erase, if_neg (Ne.symm hLabel)]
      intro other hOther
      obtain ⟨child, -, rfl⟩ := List.mem_map.mp (List.mem_reverse.mp hOther)
      rw [h label node hStored]
      exact List.prefix_append _ _

end MemoryTree
end Wwatp
