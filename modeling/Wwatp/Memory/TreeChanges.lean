import Wwatp.Cxx.Transitions
import Wwatp.Memory.SimpleBackend
import Wwatp.Memory.Transactions

/-! The calls that write to a memory tree, what a backend announces for each of them, and
when every node stays filed under its own label. -/
namespace Wwatp

open Cxx

namespace MemoryTree

/-- The writes of a transaction in order. -/
def writes (transaction : Transaction) : List (Str × Option TreeNode) :=
  transaction.flatMap fun sub =>
    (sub.parentKey, sub.parent.node) :: sub.descendants.map fun child => (child.labelRule, child.node)

/-- What a key holds after some writes. -/
def lookupAfter (writes : List (Str × Option TreeNode)) (key : Str) (before : Option TreeNode) :
    Option TreeNode :=
  writes.foldl (fun held write => if write.1 = key then write.2.map TreeNode.assign else held) before

theorem getNode_foldl_put (writes : List (Str × Option TreeNode)) (t : MemoryTree) (key : Str) :
    (writes.foldl (fun t write => t.put write.1 write.2) t).getNode key =
      lookupAfter writes key (t.getNode key) := by
  induction writes generalizing t with
  | nil => rfl
  | cons write writes ih => rw [List.foldl_cons, ih, getNode_put, lookupAfter, lookupAfter, List.foldl_cons]

theorem performAll_eq (transaction : Transaction) (t : MemoryTree) :
    transaction.foldl performSubTransaction t =
      (writes transaction).foldl (fun t write => t.put write.1 write.2) t := by
  rw [writes, List.foldl_flatMap]
  congr 1
  funext t sub
  rw [performSubTransaction, List.foldl_cons, List.foldl_map]

theorem getNode_performAll_eq (transaction : Transaction) (t : MemoryTree) (key : Str) :
    (transaction.foldl performSubTransaction t).getNode key =
      lookupAfter (writes transaction) key (t.getNode key) := by
  rw [performAll_eq, getNode_foldl_put]

/-- A recursive deletion only erases. -/
theorem getNode_deleteLoop (label key : Str) (t : MemoryTree) (work : List Str) :
    (deleteLoop label t work).getNode key = none ∨
      (deleteLoop label t work).getNode key = t.getNode key := by
  induction t, work using deleteLoop.induct label with
  | case1 t =>
      rw [deleteLoop]
      exact .inr rfl
  | case2 t current rest hNone ih => rwa [deleteLoop_of_none hNone]
  | case3 t current rest node hSome children ih =>
      rw [deleteLoop_of_some hSome]
      rcases ih with hGone | hKept
      · exact .inl hGone
      · rw [hKept, getNode_erase]
        split_ifs
        · exact .inl rfl
        · exact .inr rfl

theorem getNode_deleteNode (t : MemoryTree) (label key : Str) :
    (t.deleteNode label).1.getNode key = none ∨ (t.deleteNode label).1.getNode key = t.getNode key := by
  unfold deleteNode
  split
  · exact .inr rfl
  · next node hStored =>
      rcases getNode_deleteLoop label key (t.erase label) node.getAbsoluteChildNames.reverse with hGone | hKept
      · exact .inl hGone
      · rw [hKept, getNode_erase]
        split_ifs
        · exact .inl rfl
        · exact .inr rfl

theorem getNode_deleteNode_self (t : MemoryTree) (label : Str) :
    (t.deleteNode label).1.getNode label = none := by
  unfold deleteNode
  split
  · assumption
  · next node hStored =>
      rcases getNode_deleteLoop label label (t.erase label) node.getAbsoluteChildNames.reverse with hGone | hKept
      · exact hGone
      · rw [hKept, getNode_erase, if_pos rfl]

/-- Whatever the loop is given to delete is gone in the end. -/
theorem getNode_deleteLoop_of_mem (label key : Str) (t : MemoryTree) (work : List Str) (h : key ∈ work) :
    (deleteLoop label t work).getNode key = none := by
  induction t, work using deleteLoop.induct label with
  | case1 t => cases h
  | case2 t current rest hNone ih =>
      rw [deleteLoop_of_none hNone]
      rcases List.mem_cons.mp h with rfl | hRest
      · rcases getNode_deleteLoop label key t rest with hGone | hKept
        · exact hGone
        · exact hKept.trans hNone
      · exact ih hRest
  | case3 t current rest node hSome children ih =>
      rw [deleteLoop_of_some hSome]
      rcases List.mem_cons.mp h with rfl | hRest
      · rcases getNode_deleteLoop label key (t.erase key) (children.reverse ++ rest) with hGone | hKept
        · exact hGone
        · rw [hKept, getNode_erase, if_pos rfl]
      · exact ih (List.mem_append_right _ hRest)

/-- A deletion takes the children along, wherever their own labels are. -/
theorem getNode_deleteNode_child {t : MemoryTree} {label child : Str} {node : TreeNode}
    (hStored : t.getNode label = some node) (hChild : child ∈ node.getAbsoluteChildNames) :
    (t.deleteNode label).1.getNode child = none := by
  rw [deleteNode, hStored]
  exact getNode_deleteLoop_of_mem label child _ _ (List.mem_reverse.mpr hChild)

/-- `tree_[key].getLabelRule() == key` for every key. -/
def FiledUnderOwnLabels (t : MemoryTree) : Prop :=
  ∀ key node, t.getNode key = some node → node.labelRule = key

end MemoryTree

/-- A call that writes to a tree. -/
inductive TreeChange
  | upsertNode (nodes : List TreeNode)
  | deleteNode (labelRule : Str)
  | applyTransaction (transaction : Transaction)
  deriving DecidableEq

namespace TreeChange

def perform (t : MemoryTree) : TreeChange → Outcome MemoryTree
  | upsertNode nodes => .ok (t.upsertNode nodes)
  | deleteNode labelRule => .ok (t.deleteNode labelRule).1
  | applyTransaction transaction => t.applyTransaction transaction

/-- The changes that a `SimpleBackend` announces after the call, in order. -/
def announced : TreeChange → List (Str × Option TreeNode)
  | upsertNode nodes => nodes.map fun node => (node.getLabelRule, some node)
  | deleteNode labelRule => [(labelRule, none)]
  | applyTransaction transaction => transaction.flatMap fun sub =>
      (sub.parent :: sub.descendants).map fun change => (change.labelRule, change.node)

/-- The tree after a call. A transaction that is refused throws and leaves it as it is. -/
def step (t : MemoryTree) (change : TreeChange) : Option MemoryTree :=
  match change.perform t with
  | .ok after => some after
  | .error (.undefined _) => none
  | .error _ => some t

/-- Every change of a transaction names the label that its node has itself. -/
def NamesOwnLabels : TreeChange → Prop
  | applyTransaction transaction => ∀ sub ∈ transaction, ∀ change ∈ sub.parent :: sub.descendants,
      ∀ node ∈ change.node, node.labelRule = change.labelRule
  | _ => True

/-- A transaction names own labels, or is refused by a check. -/
def Accurate (t : MemoryTree) (change : TreeChange) : Prop :=
  (∀ transaction, change = applyTransaction transaction →
    ∀ sub ∈ transaction, t.canPerformSubTransaction sub = .ok true) → change.NamesOwnLabels

/-- A change announced for a label is a change of that label and of no other. A deletion is
announced for one label and may take others with it, but changes nothing else. -/
def AnnouncedFaithfully (change : TreeChange) (t u : MemoryTree) : Prop :=
  (∀ told ∈ change.announced, ∀ node ∈ told.2, node.labelRule = told.1) ∧
    match change with
    | deleteNode labelRule => u.getNode labelRule = none ∧
        ∀ key, u.getNode key = none ∨ u.getNode key = t.getNode key
    | _ => ∀ key, u.getNode key = MemoryTree.lookupAfter change.announced key (t.getNode key)

/-- Under own labels the writes of a transaction are what is announced. -/
theorem writes_eq_announced {transaction : Transaction} (h : (applyTransaction transaction).NamesOwnLabels) :
    MemoryTree.writes transaction = (applyTransaction transaction).announced := by
  refine List.flatMap_congr fun sub hSub => ?_
  have hParent : sub.parentKey = sub.parent.labelRule := by
    rw [SubTransaction.parentKey]
    cases hNode : sub.parent.node with
    | none => rfl
    | some node => exact h sub hSub sub.parent List.mem_cons_self node hNode
  rw [hParent, List.map_cons]

theorem mem_announced {change : TreeChange} (h : change.NamesOwnLabels) {told : Str × Option TreeNode}
    (hTold : told ∈ change.announced) {node : TreeNode} (hNode : node ∈ told.2) :
    node.labelRule = told.1 := by
  cases change with
  | upsertNode nodes =>
      obtain ⟨written, -, rfl⟩ := List.mem_map.mp hTold
      obtain rfl := Option.mem_some_iff.mp hNode
      rfl
  | deleteNode labelRule =>
      rw [List.mem_singleton.mp hTold] at hNode
      cases hNode
  | applyTransaction transaction =>
      obtain ⟨sub, hSub, hIn⟩ := List.mem_flatMap.mp hTold
      obtain ⟨entry, hEntry, rfl⟩ := List.mem_map.mp hIn
      exact h sub hSub entry hEntry node hNode

theorem getNode_upsertNode_eq (nodes : List TreeNode) (t : MemoryTree) (key : Str) :
    (t.upsertNode nodes).getNode key =
      MemoryTree.lookupAfter (upsertNode nodes).announced key (t.getNode key) := by
  rw [← MemoryTree.getNode_foldl_put, announced, List.foldl_map]
  rfl

/-- What a call announces is what it does. -/
theorem announcedFaithfully_of_perform {change : TreeChange} {t u : MemoryTree}
    (h : change.NamesOwnLabels) (hPerform : change.perform t = .ok u) : change.AnnouncedFaithfully t u := by
  refine ⟨fun told hTold node hNode => mem_announced h hTold hNode, ?_⟩
  cases change with
  | upsertNode nodes =>
      obtain rfl := Except.ok.inj hPerform
      exact getNode_upsertNode_eq nodes t
  | deleteNode labelRule =>
      obtain rfl := Except.ok.inj hPerform
      exact ⟨t.getNode_deleteNode_self labelRule, t.getNode_deleteNode labelRule⟩
  | applyTransaction transaction =>
      obtain ⟨-, rfl⟩ := MemoryTree.applyTransaction_eq_ok.mp hPerform
      intro key
      rw [MemoryTree.getNode_performAll_eq, writes_eq_announced h]

/-- A key that some writes leave filled holds a node of one of them, or what it held. -/
theorem lookupAfter_eq_some {changes : List (Str × Option TreeNode)} {key : Str} {before : Option TreeNode}
    {node : TreeNode} (h : MemoryTree.lookupAfter changes key before = some node) :
    before = some node ∨ ∃ told ∈ changes, told.1 = key ∧ ∃ written ∈ told.2, node = written.assign := by
  induction changes generalizing before with
  | nil => exact .inl h
  | cons told changes ih =>
      rw [MemoryTree.lookupAfter, List.foldl_cons] at h
      rcases ih h with hHeld | ⟨later, hLater, hFound⟩
      · split_ifs at hHeld with hKey
        · obtain ⟨written, hWritten, rfl⟩ := Option.map_eq_some_iff.mp hHeld
          exact .inr ⟨told, List.mem_cons_self, hKey, written, hWritten, rfl⟩
        · exact .inl hHeld
      · exact .inr ⟨later, List.mem_cons_of_mem _ hLater, hFound⟩

/-- A call announced faithfully keeps every node under its own label. -/
theorem AnnouncedFaithfully.filedUnderOwnLabels {change : TreeChange} {t u : MemoryTree}
    (h : change.AnnouncedFaithfully t u) (hFiled : t.FiledUnderOwnLabels) : u.FiledUnderOwnLabels := by
  obtain ⟨hNames, hDone⟩ := h
  have hWrites (hAll : ∀ key, u.getNode key =
      MemoryTree.lookupAfter change.announced key (t.getNode key)) : u.FiledUnderOwnLabels := by
    intro key node hNode
    rw [hAll] at hNode
    rcases lookupAfter_eq_some hNode with hHeld | ⟨told, hTold, rfl, written, hWritten, rfl⟩
    · exact hFiled key node hHeld
    · exact hNames told hTold written hWritten
  cases change with
  | upsertNode nodes => exact hWrites hDone
  | deleteNode labelRule =>
      intro key node hNode
      rcases hDone.2 key with hGone | hKept
      · rw [hGone] at hNode
        cases hNode
      · exact hFiled key node (hKept ▸ hNode)
  | applyTransaction transaction => exact hWrites hDone

theorem step_eq_some {t u : MemoryTree} {change : TreeChange} (h : step t change = some u) :
    change.perform t = .ok u ∨ u = t := by
  unfold step at h
  split at h
  · next after hPerform => exact .inl (hPerform.trans (congrArg _ (Option.some.inj h)))
  · cases h
  · exact .inr (Option.some.inj h).symm

/-- A call that returns was accepted, and so names own labels if it is accurate. -/
theorem Accurate.namesOwnLabels {t u : MemoryTree} {change : TreeChange} (h : change.Accurate t)
    (hPerform : change.perform t = .ok u) : change.NamesOwnLabels := by
  apply h
  rintro transaction rfl
  exact (MemoryTree.applyTransaction_eq_ok.mp hPerform).1

/-- If every accepted transaction names the own labels of its nodes, then every node is
filed under its own label in every reached state, and what is announced for a label is what
happens to it. -/
theorem filedUnderOwnLabels_of_reaches {t : MemoryTree}
    (h : Reaches step (fun t change => change.Accurate t) .empty t) :
    t.FiledUnderOwnLabels ∧
      ∀ (change : TreeChange) u, change.Accurate t → change.perform t = .ok u →
        change.AnnouncedFaithfully t u := by
  refine ⟨h.invariant (P := MemoryTree.FiledUnderOwnLabels) ?_ ?_, fun change u hAccurate hPerform =>
    announcedFaithfully_of_perform (hAccurate.namesOwnLabels hPerform) hPerform⟩
  · intro key node hNode
    rw [MemoryTree.getNode_empty] at hNode
    cases hNode
  · intro t change u hFiled hAccurate hStep
    rcases step_eq_some hStep with hPerform | rfl
    · exact (announcedFaithfully_of_perform (hAccurate.namesOwnLabels hPerform) hPerform).filedUnderOwnLabels hFiled
    · exact hFiled

/-- A transaction for `A` whose change of a child `child` carries a node of its own label. -/
def childUnder (child label : Str) : TreeChange :=
  applyTransaction [⟨⟨none, str "A", some { labelRule := str "A" }⟩,
    [⟨none, child, some { labelRule := label }⟩]⟩]

theorem filedUnderOwnLabels_of_reaches_child : ∃ t,
    (childUnder (str "A/x") (str "A/x")).step .empty = some t ∧ t.FiledUnderOwnLabels := by
  have hOwn : (childUnder (str "A/x") (str "A/x")).NamesOwnLabels := by
    unfold childUnder NamesOwnLabels
    decide
  exact ⟨_, rfl, (filedUnderOwnLabels_of_reaches (.single (fun _ => hOwn) rfl)).1⟩

/-- The change of `A/x` stores a node that calls itself `A/y`. -/
theorem not_filedUnderOwnLabels_child :
    ∃ t, Reaches step anyStep .empty t ∧ ¬ t.FiledUnderOwnLabels := by
  have hStep : (childUnder (str "A/x") (str "A/y")).step .empty = some _ := rfl
  refine ⟨_, .single trivial hStep, fun hFiled => ?_⟩
  have hLabel := hFiled (str "A/x") { labelRule := str "A/y" } rfl
  revert hLabel
  decide

end TreeChange

namespace SimpleBackend

variable {Callback : Type} (b : SimpleBackend Callback)

/-- A writing call: the tree makes the change, then every part of it is announced. -/
def perform (change : TreeChange) : Outcome (SimpleBackend Callback × List (Notice Callback)) := do
  let tree ← change.perform b.memoryTree
  let after := { b with memoryTree := tree }
  let notices ← after.notifyAll change.announced
  return (after, notices)

/-- A call that returns has made the change of the tree and has told the listeners of it. -/
theorem perform_eq_ok {change : TreeChange} {after : SimpleBackend Callback} {notices : List (Notice Callback)} :
    b.perform change = .ok (after, notices) ↔ ∃ tree, change.perform b.memoryTree = .ok tree ∧
      after = { b with memoryTree := tree } ∧ after.notifyAll change.announced = .ok notices := by
  simp only [perform, Outcome.bind_eq_ok, Outcome.pure_eq_ok, Except.ok.injEq, Prod.mk.injEq]
  constructor
  · rintro ⟨tree, hTree, notices', hNotices, rfl, rfl⟩
    exact ⟨tree, hTree, rfl, hNotices⟩
  · rintro ⟨tree, hTree, rfl, hNotices⟩
    exact ⟨tree, hTree, notices, hNotices, rfl, rfl⟩

theorem perform_upsertNode (nodes : List TreeNode) : b.perform (.upsertNode nodes) = b.upsertNode nodes := rfl

theorem perform_deleteNode (labelRule : Str) : b.perform (.deleteNode labelRule) = b.deleteNode labelRule := by
  simp only [perform, TreeChange.perform, TreeChange.announced, notifyAll, deleteNode, Outcome.ok_bind]
  cases notifyListeners _ labelRule none with
  | error fault => rfl
  | ok notices => simp only [Outcome.ok_bind, Outcome.pure_eq_ok, List.append_nil]

theorem perform_applyTransaction (transaction : Transaction) :
    b.perform (.applyTransaction transaction) = b.applyTransaction transaction := rfl

end SimpleBackend
end Wwatp
