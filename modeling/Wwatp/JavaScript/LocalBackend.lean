import Wwatp.Memory.Deletion

/-! The local backend of the JavaScript client next to the C++ one: what the same calls leave in both. -/
namespace Wwatp

open Cxx

namespace JavaScript

/-- `SimpleBackend`. Nodes are cloned as they are stored and looked up. -/
structure SimpleBackend where
  nodes : Std.ExtTreeMap Str TreeNode

namespace SimpleBackend

def getNode (b : SimpleBackend) (labelRule : Str) : Option TreeNode := b.nodes[labelRule]?

def upsertNode (b : SimpleBackend) (nodes : List TreeNode) : SimpleBackend :=
  nodes.foldl (fun b node => ⟨b.nodes.insert node.getLabelRule node⟩) b

/-- The keys that `deleteNode` collects: the label and all keys below it. -/
def below (label key : Str) : Bool := key = label || (label ++ str "/").isPrefixOf key

def deleteNode (b : SimpleBackend) (labelRule : Str) : SimpleBackend :=
  ⟨b.nodes.filter fun key _ => !below labelRule key⟩

/-- The node that a change stores: under the change's label, and with the version that it replaces. -/
def adjusted (change : NewNodeVersion) (node : TreeNode) : TreeNode :=
  let node := { node with labelRule := change.labelRule }
  match change.priorVersion with
  | none => node
  | some vnum => { node with version := { node.version with versionNumber := vnum } }

def applyNNV (staged : SimpleBackend) (change : NewNodeVersion) : SimpleBackend :=
  match change.node with
  | none => ⟨staged.nodes.erase change.labelRule⟩
  | some node => ⟨staged.nodes.insert change.labelRule (adjusted change node)⟩

/-- `applyTransaction`, which checks nothing about versions and always succeeds. -/
def applyTransaction (b : SimpleBackend) (tx : Transaction) : SimpleBackend :=
  tx.foldl (fun staged st => (st.parent :: st.descendants).foldl applyNNV staged) b

/-- A call that writes. -/
def perform (b : SimpleBackend) : TreeChange → SimpleBackend
  | .upsertNode nodes => b.upsertNode nodes
  | .deleteNode labelRule => b.deleteNode labelRule
  | .applyTransaction tx => b.applyTransaction tx

/-- The same labels hold the same nodes. -/
def Agrees (b : SimpleBackend) (t : MemoryTree) : Prop :=
  ∀ label, Option.Rel TreeNode.SameNode (b.getNode label) (t.getNode label)

/-- Both backends accept every call, which the JavaScript one always does, and agree after each. -/
def StaysEqual (b : SimpleBackend) (t : MemoryTree) : List TreeChange → Prop
  | [] => True
  | change :: rest => ∃ after, change.perform t = .ok after ∧ (b.perform change).Agrees after ∧
      (b.perform change).StaysEqual after rest

end SimpleBackend

/-- What a change stores is its node as it is, in C++ and in JavaScript. -/
structure StoredAlike (change : NewNodeVersion) (node : TreeNode) : Prop where
  label : node.labelRule = change.labelRule
  version : ∀ prior ∈ change.priorVersion, node.version.versionNumber = prior
  copied : TreeNode.SameNode node.assign node

/-- The condition on a call in the tree before it. -/
def DoneAlike (t : MemoryTree) : TreeChange → Prop
  | .upsertNode nodes => ∀ node ∈ nodes, TreeNode.SameNode node.assign node
  | .deleteNode labelRule => ∀ key, t.getNode key ≠ none → key ≠ labelRule →
      (labelRule ++ str "/" <+: key ↔ t.Linked labelRule key)
  | .applyTransaction transaction => ∀ sub ∈ transaction, t.canPerformSubTransaction sub = .ok true ∧
      ∀ change ∈ sub.parent :: sub.descendants, ∀ node ∈ change.node, StoredAlike change node

namespace SimpleBackend

variable {b : SimpleBackend} {t : MemoryTree}

section Lookup

variable (b) (label other : Str)

theorem getNode_insert (node : TreeNode) :
    getNode ⟨b.nodes.insert label node⟩ other = if label = other then some node else b.getNode other := by
  simp [getNode, Std.ExtTreeMap.getElem?_insert]

theorem getNode_erase : getNode ⟨b.nodes.erase label⟩ other = if label = other then none else b.getNode other := by
  simp [getNode, Std.ExtTreeMap.getElem?_erase]

theorem below_iff : below label other = true ↔ other = label ∨ label ++ str "/" <+: other := by
  rw [below, Bool.or_eq_true, decide_eq_true_iff, List.isPrefixOf_iff_prefix]

theorem getNode_deleteNode : (b.deleteNode label).getNode other =
    if below label other then none else b.getNode other := by
  rw [getNode, deleteNode, Std.ExtTreeMap.getElem?_filter', getNode]
  cases b.nodes[other]? <;> cases below label other <;> rfl

end Lookup

theorem Agrees.eq_none_iff (h : b.Agrees t) (label : Str) : b.getNode label = none ↔ t.getNode label = none := by
  have hRel := h label
  generalize b.getNode label = held, t.getNode label = stored at hRel ⊢
  cases hRel <;> simp

theorem agrees_insert (h : b.Agrees t) {label : Str} {node : TreeNode} (hCopied : TreeNode.SameNode node.assign node) :
    Agrees ⟨b.nodes.insert label node⟩ (t.set label node) := by
  intro key
  rw [getNode_insert, MemoryTree.getNode_set]
  split_ifs
  · exact .some hCopied.symm
  · exact h key

theorem agrees_erase (h : b.Agrees t) (label : Str) : Agrees ⟨b.nodes.erase label⟩ (t.erase label) := by
  intro key
  rw [getNode_erase, MemoryTree.getNode_erase]
  split_ifs
  · exact .none
  · exact h key

theorem agrees_upsertNode (h : b.Agrees t) {nodes : List TreeNode}
    (hCopied : ∀ node ∈ nodes, TreeNode.SameNode node.assign node) : (b.upsertNode nodes).Agrees (t.upsertNode nodes) := by
  induction nodes generalizing b t with
  | nil => exact h
  | cons node rest ih =>
    obtain ⟨hNode, hRest⟩ := List.forall_mem_cons.mp hCopied
    exact ih (agrees_insert h hNode) hRest

/-- The two deletions agree exactly when what is linked to the label is what is stored below it. -/
theorem agrees_deleteNode_iff (h : b.Agrees t) (label : Str) :
    (b.deleteNode label).Agrees (t.deleteNode label).1 ↔ DoneAlike t (.deleteNode label) := by
  constructor
  · intro hAfter key hStored hKey
    have hGone := Agrees.eq_none_iff hAfter key
    rw [getNode_deleteNode] at hGone
    constructor
    · intro hBelow
      by_contra hLinked
      rw [if_pos ((below_iff label key).mpr (.inr hBelow)), MemoryTree.getNode_deleteNode_of_not_linked hKey hLinked] at hGone
      exact hStored (hGone.mp rfl)
    · intro hLinked
      by_contra hBelow
      have hKept : ¬below label key = true := fun h => ((below_iff label key).mp h).elim hKey hBelow
      rw [if_neg hKept, MemoryTree.getNode_deleteNode_of_linked (.inr hLinked), h.eq_none_iff] at hGone
      exact hStored (hGone.mpr rfl)
  · intro hDone key
    rw [getNode_deleteNode]
    by_cases hLabel : key = label
    · rw [if_pos ((below_iff label key).mpr (.inl hLabel)), MemoryTree.getNode_deleteNode_of_linked (.inl hLabel)]
      exact .none
    by_cases hStored : t.getNode key = none
    · rw [(h.eq_none_iff key).mpr hStored, ite_self]
      rcases t.getNode_deleteNode label key with hGone | hKept
      · rw [hGone]
        exact .none
      · rw [hKept, hStored]
        exact .none
    have hSame := hDone key hStored hLabel
    by_cases hLinked : t.Linked label key
    · rw [if_pos ((below_iff label key).mpr (.inr (hSame.mpr hLinked))), MemoryTree.getNode_deleteNode_of_linked (.inr hLinked)]
      exact .none
    · have hKept : ¬below label key = true := fun h => ((below_iff label key).mp h).elim hLabel fun h => hLinked (hSame.mp h)
      rw [if_neg hKept, MemoryTree.getNode_deleteNode_of_not_linked hLabel hLinked]
      exact h key

/-- A change that is stored alike. -/
theorem agrees_applyNNV (h : b.Agrees t) {change : NewNodeVersion} (hAlike : ∀ node ∈ change.node, StoredAlike change node) :
    (b.applyNNV change).Agrees (t.put change.labelRule change.node) := by
  cases hNode : change.node with
  | none =>
    rw [applyNNV, hNode]
    exact agrees_erase h change.labelRule
  | some node =>
    obtain ⟨hLabel, hVersion, hCopied⟩ := hAlike node hNode
    have hAdjusted : adjusted change node = node := by
      rw [adjusted, ← hLabel]
      cases hPrior : change.priorVersion with
      | none => rfl
      | some vnum =>
        dsimp only
        rw [← hVersion vnum hPrior]
    rw [applyNNV, hNode]
    dsimp only
    rw [hAdjusted]
    exact agrees_insert h hCopied

theorem agrees_changes (h : b.Agrees t) {changes : List NewNodeVersion}
    (hAlike : ∀ change ∈ changes, ∀ node ∈ change.node, StoredAlike change node) :
    (changes.foldl applyNNV b).Agrees (changes.foldl (fun t change => t.put change.labelRule change.node) t) := by
  induction changes generalizing b t with
  | nil => exact h
  | cons change rest ih =>
    obtain ⟨hChange, hRest⟩ := List.forall_mem_cons.mp hAlike
    exact ih (agrees_applyNNV h hChange) hRest

theorem agrees_applyTransaction (h : b.Agrees t) {transaction : Transaction}
    (hAlike : ∀ sub ∈ transaction, ∀ change ∈ sub.parent :: sub.descendants, ∀ node ∈ change.node, StoredAlike change node) :
    (b.applyTransaction transaction).Agrees (transaction.foldl MemoryTree.performSubTransaction t) := by
  induction transaction generalizing b t with
  | nil => exact h
  | cons sub rest ih =>
    obtain ⟨hSub, hRest⟩ := List.forall_mem_cons.mp hAlike
    have hKey : sub.parentKey = sub.parent.labelRule := by
      rw [SubTransaction.parentKey]
      cases hNode : sub.parent.node with
      | none => rfl
      | some node => exact (hSub sub.parent List.mem_cons_self node hNode).label
    have hPerformed : (sub.parent :: sub.descendants).foldl (fun t change => t.put change.labelRule change.node) t =
        t.performSubTransaction sub := by
      rw [MemoryTree.performSubTransaction, hKey, List.foldl_cons]
    have hNext := agrees_changes h hSub
    rw [hPerformed] at hNext
    exact ih hNext hRest

/-- A call that meets its condition is accepted by both backends and leaves them in agreement. -/
theorem agrees_perform (h : b.Agrees t) {change : TreeChange} (hDone : DoneAlike t change) :
    ∃ after, change.perform t = .ok after ∧ (b.perform change).Agrees after := by
  cases change with
  | upsertNode nodes => exact ⟨_, rfl, agrees_upsertNode h hDone⟩
  | deleteNode labelRule => exact ⟨_, rfl, (agrees_deleteNode_iff h labelRule).mpr hDone⟩
  | applyTransaction transaction =>
    have hAccepted := MemoryTree.applyTransaction_eq_ok.mpr ⟨fun sub hSub => (hDone sub hSub).1, rfl⟩
    exact ⟨_, hAccepted, agrees_applyTransaction h fun sub hSub => (hDone sub hSub).2⟩

end SimpleBackend

/-- Every call of a run meets its condition in the tree before it. -/
def RunDoneAlike (t : MemoryTree) : List TreeChange → Prop
  | [] => True
  | change :: rest => DoneAlike t change ∧ ∀ after, change.perform t = .ok after → RunDoneAlike after rest

namespace SimpleBackend

theorem staysEqual_of_agrees {b : SimpleBackend} {t : MemoryTree} (h : b.Agrees t) {changes : List TreeChange}
    (hDone : RunDoneAlike t changes) : b.StaysEqual t changes := by
  induction changes generalizing b t with
  | nil => trivial
  | cons change rest ih =>
    obtain ⟨after, hPerform, hAfter⟩ := agrees_perform h hDone.1
    exact ⟨after, hPerform, hAfter, ih hAfter (hDone.2 after hPerform)⟩

theorem agrees_empty : Agrees ⟨∅⟩ .empty := by
  intro label
  rw [MemoryTree.getNode_empty]
  simp [getNode]

/-- From empty backends, calls that meet their conditions keep the two backends equal. -/
theorem staysEqual_of_runDoneAlike (changes : List TreeChange) (hDone : RunDoneAlike .empty changes) :
    StaysEqual ⟨∅⟩ .empty changes :=
  staysEqual_of_agrees agrees_empty hDone

theorem staysEqual_of_runDoneAlike_upsert : StaysEqual ⟨∅⟩ .empty [.upsertNode [{ labelRule := str "A" }]] :=
  staysEqual_of_runDoneAlike [.upsertNode [{ labelRule := str "A" }]] 
    ⟨fun _ hNode => List.mem_singleton.mp hNode ▸ ⟨rfl, rfl⟩, fun _ _ => trivial⟩

/-- An update of `A` that expects version 7 where 0 is stored is refused in C++ only. -/
theorem not_staysEqual_stale : ¬∀ changes, StaysEqual ⟨∅⟩ .empty changes := by
  intro hAll
  obtain ⟨t, hUpsert, -, after, hStale, -⟩ := hAll [.upsertNode [{ labelRule := str "A" }],
    .applyTransaction [⟨⟨some 7, str "A", some { labelRule := str "A", version := { versionNumber := 8 } }⟩, []⟩]]
  obtain rfl := Except.ok.inj hUpsert
  have hCan := (MemoryTree.applyTransaction_eq_ok.mp hStale).1 _ List.mem_cons_self
  exact absurd hCan (by decide)

end SimpleBackend
end JavaScript
end Wwatp
