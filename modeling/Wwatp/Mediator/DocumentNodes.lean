import Wwatp.Mediator.YAMLCallbacks

/-! The nodes of a document: the entries of the map, and below each node the entries that it lists in
its `child_names`. Their labels join the names on the way to them. -/
namespace Wwatp

open Cxx

/-- A name that can be a part of a label. -/
def NodeName (name : Str) : Prop := name ≠ [] ∧ chr '/' ∉ name

def labelOf (path : List Str) : Str := [chr '/'].intercalate path

section Labels

variable {path : List Str} {name : Str}

theorem labelOf_singleton (name : Str) : labelOf [name] = name := List.intercalate_singleton

theorem labelOf_append (hPath : path ≠ []) (more : List Str) (hMore : more ≠ []) :
    labelOf (path ++ more) = labelOf path ++ chr '/' :: labelOf more := by
  induction path with
  | nil => exact absurd rfl hPath
  | cons part path ih =>
      cases path with
      | nil =>
          rw [labelOf_singleton, List.singleton_append, labelOf, List.intercalate_cons_of_ne_nil hMore, List.append_assoc]
          rfl
      | cons next path =>
          have hNe : next :: path ≠ [] := List.cons_ne_nil _ _
          rw [List.cons_append, labelOf, List.intercalate_cons_of_ne_nil (List.append_ne_nil_of_left_ne_nil hNe _), labelOf,
            List.intercalate_cons_of_ne_nil hNe]
          have hRest := ih hNe
          rw [labelOf, labelOf] at hRest
          rw [hRest]
          simp

theorem labelOf_concat (hPath : path ≠ []) (name : Str) : labelOf (path ++ [name]) = labelOf path ++ str "/" ++ name := by
  rw [labelOf_append hPath _ (List.cons_ne_nil _ _), labelOf_singleton, List.append_assoc]
  rfl

/-- A path of names is what a label is split into. -/
theorem split_labelOf (hPath : path ≠ []) (hNames : ∀ name ∈ path, NodeName name) : split (labelOf path) = path := by
  have hSplit : (labelOf path).splitOn (chr '/') = path :=
    List.splitOn_intercalate _ (fun name hName => (hNames name hName).2) hPath
  unfold split
  dsimp only
  rw [hSplit, if_neg]
  exact fun hLast => (hNames [] (List.mem_of_getLast? hLast)).1 rfl

/-- A label above that of a path belongs to a path above it. -/
theorem labelOf_above {above : Str} (hPath : path ≠ []) (hNames : ∀ name ∈ path, NodeName name)
    (h : above ++ [chr '/'] <+: labelOf path) :
    ∃ front back, path = front ++ back ∧ front ≠ [] ∧ back ≠ [] ∧ labelOf front = above := by
  obtain ⟨rest, hRest⟩ := h
  have hSplit : (labelOf path).splitOn (chr '/') = path :=
    List.splitOn_intercalate _ (fun name hName => (hNames name hName).2) hPath
  rw [← hRest, List.append_assoc, List.singleton_append, List.splitOn_append_cons_self] at hSplit
  exact ⟨_, _, hSplit.symm, List.splitOn_ne_nil _ _, List.splitOn_ne_nil _ _, List.intercalate_splitOn _⟩

end Labels

/-- The node that a document has at the end of a path. -/
inductive NodeAt (nullString : Option Str) (yaml : Yaml) : List Str → Yaml → Prop
  | top {entries : List (Str × Yaml)} {name : Str} {value : Yaml} (hMap : yaml = .map entries)
      (hEntry : Yaml.lookup entries name = some value) (hName : NodeName name) : NodeAt nullString yaml [name] value
  | child {path : List Str} {entries : List (Str × Yaml)} {childNames : Yaml} {listed : List Str} {name : Str} {value : Yaml}
      (hParent : NodeAt nullString yaml path (.map entries))
      (hChildNames : Yaml.lookup entries (str "child_names") = some childNames)
      (hListed : childNames.strings nullString = .ok listed) (hMem : name ∈ listed)
      (hEntry : Yaml.lookup entries name = some value) (hName : NodeName name) :
      NodeAt nullString yaml (path ++ [name]) value

namespace NodeAt

variable {nullString : Option Str} {yaml value : Yaml} {path : List Str}

theorem path_ne_nil (h : NodeAt nullString yaml path value) : path ≠ [] := by
  cases h <;> simp

theorem nodeName (h : NodeAt nullString yaml path value) : ∀ name ∈ path, NodeName name := by
  induction h with
  | top hMap hEntry hName => simpa using hName
  | child hParent hChildNames hListed hMem hEntry hName ih =>
      intro name hIn
      rcases List.mem_append.mp hIn with hOld | hNew
      · exact ih name hOld
      · rwa [List.mem_singleton.mp hNew]

/-- What stands at the beginning of the path is a node as well. -/
theorem front {front back : List Str} (h : NodeAt nullString yaml (front ++ back) value) (hFront : front ≠ []) :
    ∃ above, NodeAt nullString yaml front above := by
  induction back using List.reverseRecOn generalizing value with
  | nil => exact ⟨value, by rwa [List.append_nil] at h⟩
  | append_singleton back name ih =>
      generalize hPath : front ++ (back ++ [name]) = path at h
      cases h with
      | top hMap hEntry hName =>
          have hLength := congrArg List.length hPath
          simp only [List.length_append, List.length_singleton] at hLength
          have hPos := List.length_pos_of_ne_nil hFront
          omega
      | child hParent hChildNames hListed hMem hEntry hName =>
          rw [← List.append_assoc] at hPath
          obtain ⟨hParentPath, -⟩ := List.append_inj' hPath rfl
          exact ih (hParentPath ▸ hParent)

end NodeAt

theorem nodeAt_append (front back : List Str) (yaml : Yaml) :
    nodeAt (front ++ back) yaml = (nodeAt front yaml).bind (nodeAt back) := by
  induction front generalizing yaml with
  | nil => rfl
  | cons part front ih =>
      cases yaml with
      | map entries =>
          rw [List.cons_append, nodeAt, nodeAt, Option.bind_assoc]
          congr 1
          exact funext ih
      | _ => rfl

/-- The path leads there. -/
theorem NodeAt.nodeAt {nullString : Option Str} {yaml value : Yaml} {path : List Str}
    (h : NodeAt nullString yaml path value) : Wwatp.nodeAt path yaml = some value := by
  induction h with
  | top hMap hEntry hName =>
      rw [hMap, Wwatp.nodeAt, hEntry]
      rfl
  | child hParent hChildNames hListed hMem hEntry hName ih =>
      rw [nodeAt_append, ih, Option.bind_some, Wwatp.nodeAt, hEntry]
      rfl

/-- The node has a description of its own. Without one, its description is the name it is read with. -/
def Described : Yaml → Prop
  | .map entries => Yaml.lookup entries (str "description") ≠ none
  | _ => False

instance (yaml : Yaml) : Decidable (Described yaml) := by
  cases yaml <;> unfold Described <;> infer_instance

section Forms

variable (library : YamlCpp)

/-- The tree node that the node at the end of a path stands for. -/
def formOf (path : List Str) (value : Yaml) : Outcome TreeNode :=
  library.fromYAMLNode value (if path.length = 1 then [] else labelOf path.dropLast ++ str "/") (path.getLastD [])

variable {library} {yaml value : Yaml} {path : List Str}

theorem make_eq_ok {n m : TreeNode} (h : n.make = .ok m) :
    m = { n with queryHowTo := n.queryHowTo.filter (· ≠ []), qaSequence := n.qaSequence.filter (· ≠ []) } := by
  unfold TreeNode.make at h
  split_ifs at h
  split at h
  · cases h
  · exact (Except.ok.inj h).symm

theorem map_outcome_bind {α β γ : Type} (x : Outcome α) (f : α → Outcome β) (g : β → γ) :
    (x >>= f).map g = x >>= fun a => (f a).map g := by
  cases x <;> rfl

/-- The constructor does not look at the description. -/
theorem make_describe (n : TreeNode) (description : Str) :
    TreeNode.make { n with description := description } = n.make.map fun m => { m with description := description } := by
  unfold TreeNode.make
  dsimp only
  split_ifs
  · rfl
  · split <;> rfl

theorem labelRule_of_fromYAMLNode {labelPrefix name : Str} {form : TreeNode}
    (h : library.fromYAMLNode yaml labelPrefix name = .ok form) : form.labelRule = labelPrefix ++ name := by
  unfold YamlCpp.fromYAMLNode at h
  cases yaml with
  | map entries =>
      simp only [Outcome.bind_eq_ok] at h
      obtain ⟨_, -, _, -, _, -, _, -, _, -, _, -, hMake⟩ := h
      rw [make_eq_ok hMake]
  | _ => cases h

/-- Two ways to read a node under one label: only the name makes a difference, and only without a
description. -/
theorem fromYAMLNode_rename (yaml : Yaml) {front name front' name' : Str} (hLabel : front ++ name = front' ++ name') :
    library.fromYAMLNode yaml front' name' = (library.fromYAMLNode yaml front name).map fun form =>
      if Described yaml then form else { form with description := name' } := by
  unfold YamlCpp.fromYAMLNode
  cases yaml with
  | map entries =>
      rw [hLabel]
      cases hDescription : Yaml.lookup entries (str "description") with
      | none =>
          have hField : YamlCpp.field (.map entries) (str "description") library.asString = .ok none := by
            rw [YamlCpp.field, Yaml.get, hDescription]
            rfl
          have hNot : ¬Described (.map entries) := fun h => h hDescription
          simp only [hField, if_neg hNot, Outcome.ok_bind, map_outcome_bind]
          refine bind_congr fun version => bind_congr fun children => bind_congr fun queryHowTo => ?_
          refine bind_congr fun qaSequence => bind_congr fun entries => ?_
          rw [← make_describe]
          rfl
      | some description =>
          have hField : YamlCpp.field (.map entries) (str "description") library.asString =
              library.asString description >>= fun text => .ok (some text) := by
            rw [YamlCpp.field, Yaml.get, hDescription]
            rfl
          have hDescribed : Described (.map entries) := by
            rw [Described, hDescription]
            nofun
          simp only [hField, if_pos hDescribed, map_outcome_bind]
          cases library.asString description with
          | error e => rfl
          | ok text =>
              simp only [Outcome.ok_bind]
              refine bind_congr fun version => bind_congr fun children => bind_congr fun queryHowTo => ?_
              refine bind_congr fun qaSequence => bind_congr fun entries => ?_
              rw [Option.getD_some, Option.getD_some]
              exact (congrFun Except.map_id _).symm
  | _ => rfl

section Listed

variable (h : NodeAt library.nullString yaml path value)

include h

/-- Reading with the prefix and the last name is reading under the label. -/
theorem prefix_append_name :
    (if path.length = 1 then [] else labelOf path.dropLast ++ str "/") ++ path.getLastD [] = labelOf path := by
  cases h with
  | top hMap hEntry hName => simp [labelOf_singleton]
  | child hParent hChildNames hListed hMem hEntry hName =>
      have hPos := List.length_pos_of_ne_nil hParent.path_ne_nil
      rw [if_neg (by rw [List.length_append, List.length_singleton]; omega), List.dropLast_concat, labelOf_concat hParent.path_ne_nil]
      simp

theorem labelRule_of_formOf {form : TreeNode} (hForm : formOf library path value = .ok form) :
    form.labelRule = labelOf path := by
  rw [labelRule_of_fromYAMLNode hForm, prefix_append_name h]

/-- `isNodeModified` reads a node under its whole label. -/
theorem fromYAMLNode_label : library.fromYAMLNode value [] (labelOf path) = (formOf library path value).map fun form =>
    if Described value then form else { form with description := labelOf path } :=
  fromYAMLNode_rename value (prefix_append_name h)

theorem nodeAt_split : nodeAt (split (labelOf path)) yaml = some value := by
  rw [split_labelOf h.path_ne_nil h.nodeName]
  exact h.nodeAt

theorem getNodeFromYAML_label :
    getNodeFromYAML library (labelOf path) yaml = (formOf library path value).map some := by
  have hSplit := split_labelOf h.path_ne_nil h.nodeName
  have hAt := h.nodeAt
  unfold getNodeFromYAML
  dsimp only
  rw [hSplit, hAt, formOf]
  cases h with
  | @top entries name _ hMap hEntry hName =>
      simp only [List.getLast?_singleton, List.length_singleton, if_neg (Nat.lt_irrefl 1), if_true, List.getLastD_cons,
        List.getLastD_nil]
      cases library.fromYAMLNode value [] name <;> rfl
  | @child path _ _ _ name _ hParent hChildNames hListed hMem hEntry hName =>
      have hPos := List.length_pos_of_ne_nil hParent.path_ne_nil
      have hLength : (path ++ [name]).length = path.length + 1 := by rw [List.length_append, List.length_singleton]
      have hLast : (labelOf (path ++ [name])).findLast (chr '/') = some (labelOf path).length := by
        rw [labelOf_append hParent.path_ne_nil _ (List.cons_ne_nil _ _), labelOf_singleton]
        exact Str.findLast_eq_some.mpr ⟨_, _, rfl, rfl, hName.2⟩
      have hPrefix : (labelOf (path ++ [name])).take ((labelOf path).length + 1) = labelOf path ++ str "/" := by
        rw [labelOf_concat hParent.path_ne_nil, List.take_left' (by simp [str])]
      simp only [List.getLast?_concat, hLength, List.dropLast_concat, List.getLastD_concat, hLast, Option.elim_some, hPrefix]
      rw [if_pos (by omega), if_neg (by omega)]
      cases library.fromYAMLNode value (labelOf path ++ str "/") name <;> rfl

end Listed

end Forms

section Walk

variable {library : YamlCpp} {yaml value : Yaml} {path names : List Str}

theorem labelOf_ne_nil (h : NodeAt library.nullString yaml path value) : labelOf path ≠ [] := by
  cases h with
  | top hMap hEntry hName => rw [labelOf_singleton]; exact hName.1
  | child hParent hChildNames hListed hMem hEntry hName =>
      rw [labelOf_concat hParent.path_ne_nil]
      exact List.append_ne_nil_of_right_ne_nil _ hName.1

theorem mem_of_lookup {entries : List (Str × Yaml)} {key : Str} (h : Yaml.lookup entries key = some value) :
    (key, value) ∈ entries := by
  obtain ⟨⟨_, _⟩, hFind, rfl⟩ := Option.map_eq_some_iff.mp h
  obtain rfl : _ = key := by simpa using List.find?_some hFind
  exact List.mem_of_find?_eq_some hFind

/-- Each entry is walked like the entry of its key. -/
theorem find_walksOf (entries : List (Str × Yaml)) (child : Str) :
    (walksOf library entries).find? (fun walk => walk.1 = child) =
      (Yaml.lookup entries child).map fun value => (child, walkChildren library value) := by
  induction entries with
  | nil => rfl
  | cons entry entries ih =>
      obtain ⟨key, value⟩ := entry
      rw [walksOf, walkOf, Yaml.lookup, List.find?_cons, List.find?_cons]
      by_cases hKey : key = child
      · simp [hKey]
      · simpa [hKey, Yaml.lookup] using ih

theorem mem_namesOf {walks : List (Str × (Str → Outcome (List Str)))} {labelPrefix child : Str} {listed found : List Str}
    (h : namesOf walks labelPrefix listed = .ok found) (hPrefix : labelPrefix ≠ []) (hChild : child ∈ listed) :
    labelPrefix ++ str "/" ++ child ∈ found ∧
      ∀ walk, walks.find? (fun walk => walk.1 = child) = some walk →
        ∃ below, walk.2 (labelPrefix ++ str "/" ++ child) = .ok below ∧ below ⊆ found := by
  induction listed generalizing found with
  | nil => cases hChild
  | cons first rest ih =>
      rw [namesOf] at h
      simp only [if_neg hPrefix] at h
      obtain ⟨below, hBelow, h⟩ := Outcome.bind_eq_ok.mp h
      obtain ⟨others, hOthers, h⟩ := Outcome.bind_eq_ok.mp h
      obtain rfl := Except.ok.inj h
      rcases List.mem_cons.mp hChild with rfl | hRest
      · refine ⟨List.mem_cons_self, fun walk hWalk => ⟨below, ?_, fun name hName => ?_⟩⟩
        · rwa [hWalk, Option.elim_some] at hBelow
        · exact List.mem_cons_of_mem _ (List.mem_append_left _ hName)
      · obtain ⟨hMem, hWalk⟩ := ih hOthers hRest
        refine ⟨List.mem_cons_of_mem _ (List.mem_append_right _ hMem), fun walk hFind => ?_⟩
        obtain ⟨deeper, hDeeper, hSub⟩ := hWalk walk hFind
        exact ⟨deeper, hDeeper, fun name hName => List.mem_cons_of_mem _ (List.mem_append_right _ (hSub hName))⟩

theorem mem_mapM {α β : Type} {f : α → Outcome β} {l : List α} {results : List β} (h : l.mapM f = .ok results) {a : α}
    (ha : a ∈ l) : ∃ b ∈ results, f a = .ok b := by
  induction l generalizing results with
  | nil => cases ha
  | cons first rest ih =>
      rw [List.mapM_cons] at h
      obtain ⟨b, hFirst, h⟩ := Outcome.bind_eq_ok.mp h
      obtain ⟨others, hOthers, h⟩ := Outcome.bind_eq_ok.mp h
      obtain rfl := Except.ok.inj h
      rcases List.mem_cons.mp ha with rfl | hRest
      · exact ⟨b, List.mem_cons_self, hFirst⟩
      · obtain ⟨c, hMem, hValue⟩ := ih hOthers hRest
        exact ⟨c, List.mem_cons_of_mem _ hMem, hValue⟩

/-- `walk_names` comes to every node. -/
theorem NodeAt.walked (h : NodeAt library.nullString yaml path value) (hNames : walkNames library yaml = .ok names) :
    labelOf path ∈ names ∧ ∃ below, walkChildren library value (labelOf path) = .ok below ∧ below ⊆ names := by
  induction h with
  | @top entries name value hMap hEntry hName =>
      rw [hMap, walkNames] at hNames
      obtain ⟨walked, hWalked, hNames⟩ := Outcome.bind_eq_ok.mp hNames
      obtain rfl := Except.ok.inj hNames
      obtain ⟨found, hFound, hWalk⟩ := mem_mapM hWalked (mem_of_lookup hEntry)
      obtain ⟨below, hBelow, hWalk⟩ := Outcome.bind_eq_ok.mp hWalk
      obtain rfl := Except.ok.inj hWalk
      rw [labelOf_singleton]
      exact ⟨List.mem_flatten.mpr ⟨_, hFound, List.mem_cons_self⟩, below, hBelow,
        fun other hOther => List.mem_flatten.mpr ⟨_, hFound, List.mem_cons_of_mem _ hOther⟩⟩
  | @child path entries childNames listed name value hParent hChildNames hListed hMem hEntry hName ih =>
      obtain ⟨-, below, hBelow, hSub⟩ := ih
      rw [walkChildren, hChildNames] at hBelow
      dsimp only at hBelow
      rw [hListed, Outcome.ok_bind] at hBelow
      obtain ⟨hIn, hWalk⟩ := mem_namesOf hBelow (labelOf_ne_nil hParent) hMem
      rw [find_walksOf, hEntry] at hWalk
      obtain ⟨deeper, hDeeper, hDeep⟩ := hWalk _ rfl
      rw [labelOf_concat hParent.path_ne_nil]
      exact ⟨hSub hIn, deeper, hDeeper, fun other hOther => hSub (hDeep hOther)⟩

end Walk
end Wwatp
