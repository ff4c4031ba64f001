import Wwatp.Memory.OverlayRuns
import Wwatp.Memory.TreeChanges

/-! Queries while layers are open. What the backend underneath returns is replaced by what the layers
hold under the query itself, not under the label of each node that was found. -/
namespace Wwatp

open Cxx

namespace MemoryTree

/-- What the last of some writes to a label puts there, if there is such a write. -/
def lastWrite (label : Str) (writes : List (Str × Option TreeNode)) : Option (Option TreeNode) :=
  (writes.filter fun write => write.1 = label).getLast?.map Prod.snd

section

variable {label : Str}

@[simp] theorem lastWrite_nil : lastWrite label [] = none := rfl

theorem lastWrite_append (earlier later : List (Str × Option TreeNode)) :
    lastWrite label (earlier ++ later) = (lastWrite label later).or (lastWrite label earlier) := by
  simp only [lastWrite, List.filter_append, List.getLast?_append]
  cases (later.filter fun write => decide (write.1 = label)).getLast? <;> simp

theorem lastWrite_singleton (write : Str × Option TreeNode) :
    lastWrite label [write] = if write.1 = label then some write.2 else none := by
  by_cases h : write.1 = label <;> simp [lastWrite, h]

theorem mem_of_lastWrite {writes : List (Str × Option TreeNode)} {node : Option TreeNode}
    (h : lastWrite label writes = some node) : (label, node) ∈ writes := by
  obtain ⟨write, hLast, rfl⟩ := Option.map_eq_some_iff.mp h
  obtain ⟨hMem, hKey⟩ := List.mem_filter.mp (List.mem_of_getLast? hLast)
  rw [decide_eq_true_eq] at hKey
  rwa [← hKey]

theorem lastWrite_eq_none {writes : List (Str × Option TreeNode)} :
    lastWrite label writes = none ↔ label ∉ writes.map Prod.fst := by
  simp only [lastWrite, Option.map_eq_none_iff, List.getLast?_eq_none_iff, List.filter_eq_nil_iff, List.mem_map,
    decide_eq_true_eq, not_exists, not_and]

/-- The last write is what is stored once all are performed. -/
theorem lookupAfter_eq (writes : List (Str × Option TreeNode)) (before : Option TreeNode) :
    lookupAfter writes label before = ((lastWrite label writes).map fun node => node.map TreeNode.assign).getD before := by
  induction writes using List.reverseRecOn with
  | nil => rfl
  | append_singleton earlier write ih =>
      have hLast : lookupAfter (earlier ++ [write]) label before =
          if write.1 = label then write.2.map TreeNode.assign else lookupAfter earlier label before := by
        simp [lookupAfter]
      rw [hLast, ih, lastWrite_append, lastWrite_singleton]
      by_cases h : write.1 = label <;> simp [h]

end

end MemoryTree

namespace TransactionalBackend

open MemoryTree

variable {Callback : Type}

/-- The nodes that the loop over the layers pushes for one node that was found. A layer open on the query
ends the loop; a child change only ends the search of its own layer. -/
def queryHits (labelRule : Str) : Transaction → Outcome (List TreeNode)
  | [] => .ok []
  | sub :: rest =>
      match sub.parent.node with
      | none => queryHits labelRule rest
      | some parent => do
          if ← checkLabelRuleOverlap labelRule parent.getLabelRule then
            if labelRule = parent.getLabelRule then return [parent]
            match sub.descendants.findSome? (childNode labelRule) with
            | some node => do return node :: (← queryHits labelRule rest)
            | none => queryHits labelRule rest
          else queryHits labelRule rest

/-- The loop of `queryNodes` over the nodes that the backend underneath has found. -/
def queryResults (labelRule : Str) (stack : Transaction) : List TreeNode → Outcome (List TreeNode)
  | [] => .ok []
  | node :: rest => do
      let hits ← queryHits labelRule stack
      let results ← queryResults labelRule stack rest
      return (if hits = [] then [node] else hits) ++ results

def queryNodes (b : TransactionalBackend Callback) (labelRule : Str) : Outcome (List TreeNode) :=
  if b.transactionStack = [] then .ok (b.tree.queryNodes labelRule)
  else queryResults labelRule b.transactionStack (b.tree.queryNodes labelRule)

/-- The states of a backend that starts without layers; the backend underneath is written by others too. -/
inductive Reached : TransactionalBackend Callback → Prop
  | fresh (tree : SimpleBackend Callback) : Reached ⟨tree, []⟩
  | underneath {b : TransactionalBackend Callback} (tree : SimpleBackend Callback) (prior : Reached b) :
      Reached { b with tree := tree }
  | step {b after : TransactionalBackend Callback} {action : Action} (prior : Reached b)
      (last : b.step action = .ok after) : Reached after
  | close {b closed : TransactionalBackend Callback} {notices : List (Notice Callback)} (prior : Reached b)
      (last : b.closeTransactionLayers = .ok (closed, notices)) : Reached closed

/-- The version of a node's label in the transaction, or the node itself where no change names the label. -/
def current (stack : Transaction) (node : TreeNode) : Option TreeNode :=
  (lastWrite node.labelRule (writes stack)).getD (some node)

/-- A query returns the current version of each node that the backend underneath finds, and no label twice. -/
def Overlaid (b : TransactionalBackend Callback) (labelRule : Str) : Prop :=
  ∃ results, b.queryNodes labelRule = .ok results ∧
    results = (b.tree.queryNodes labelRule).filterMap (current b.transactionStack) ∧
    (results.map TreeNode.labelRule).Nodup

/-- Nothing is found, or the transaction has no other version of what is found, or what is found is one
node under the label that is asked for; and the overlap tests stay in their strings. -/
def Overlayable (b : TransactionalBackend Callback) (labelRule : Str) : Prop :=
  let found := b.tree.queryNodes labelRule
  found = [] ∨
    LookupInBounds labelRule b.transactionStack ∧
      ((liveNode labelRule b.transactionStack = none ∧ (∀ node ∈ found, current b.transactionStack node = some node) ∧
          (found.map TreeNode.labelRule).Nodup) ∨
        (liveNode labelRule b.transactionStack ≠ none ∧ found.map TreeNode.labelRule = [labelRule]))

/-! ### The stacks of reached states -/

section Stack

variable {stack : Transaction} {labelRule : Str}

/-- An upsert of a label that no layer is open on changes nothing. -/
theorem trackUpsert_eq_none {tree : MemoryTree} {node : TreeNode} {result : Option Transaction}
    (hLayers : ∀ sub ∈ stack, LayerTracked tree sub) (hFree : liveNode node.labelRule stack = none)
    (h : trackUpsert node stack = .ok result) : result = none := by
  induction stack generalizing result with
  | nil => simpa [trackUpsert] using h.symm
  | cons sub rest ih =>
      rw [List.forall_mem_cons] at hLayers
      rw [liveNode_cons, Option.or_eq_none_iff] at hFree
      have hChildren := replaceChild_of_deleted
        (fun child hChild => (hLayers.1.child_deleted child hChild).1) node.labelRule (some node)
      have hSkip : (do return (← trackUpsert node rest).map (sub :: ·)) = Except.ok result → result = none := by
        intro hTail
        simp only [Outcome.bind_eq_ok, Outcome.pure_eq_ok, Except.ok.injEq] at hTail
        obtain ⟨tail, hTail, rfl⟩ := hTail
        rw [ih hLayers.2 hFree.2 hTail]
        rfl
      cases hParent : sub.parent.node with
      | none =>
          simp only [trackUpsert, hParent] at h
          exact hSkip h
      | some parent =>
          simp only [trackUpsert, hParent] at h
          have hNe : node.labelRule ≠ parent.labelRule := (childNode_eq_none.mp hFree.1 parent hParent).symm
          obtain ⟨b, -, h⟩ := Outcome.bind_eq_ok.mp h
          cases b <;> simp only [hNe, hChildren, ↓reduceIte, Bool.false_eq_true] at h <;> exact hSkip h

/-- The invariant of a stack without regard to what is stored underneath. -/
abbrev Tracked (stack : Transaction) : Prop := StackTracked MemoryTree.empty stack

theorem getNode_empty (label : Str) : MemoryTree.empty.getNode label = none := by
  simp [MemoryTree.empty, MemoryTree.getNode]

theorem tracked_nil : Tracked [] := ⟨by simp, .nil⟩

theorem tracked_upsertTracked {nodes : List TreeNode} {after : Transaction} (h : Tracked stack)
    (hStep : upsertTracked nodes stack = .ok after) : Tracked after := by
  induction nodes with
  | nil =>
      cases hStep
      exact h
  | cons node rest ih =>
      rw [upsertTracked] at hStep
      obtain ⟨result, hTrack, hStep⟩ := Outcome.bind_eq_ok.mp hStep
      by_cases hLive : liveNode node.labelRule stack = none
      · rw [trackUpsert_eq_none h.layers hLive hTrack] at hStep
        exact ih hStep
      · rw [trackUpsert_eq h.layers hLive hTrack] at hStep
        cases hStep
        exact stackTracked_setLive (by simp) h (by simp)

theorem tracked_trackDelete {after : Transaction} (h : Tracked stack) (hStep : trackDelete labelRule stack = .ok after) :
    Tracked after := by
  obtain ⟨hSet, hPush⟩ := trackDelete_eq h hStep
  by_cases hLive : liveNode labelRule stack = none
  · exact stackTracked_push h hLive (getNode_empty labelRule) (hPush hLive)
  · rw [hSet hLive]
    exact stackTracked_setLive (by simp) h fun _ => getNode_empty labelRule

theorem tracked_step {b after : TransactionalBackend Callback} {action : Action} (h : Tracked b.transactionStack)
    (hStep : b.step action = .ok after) : Tracked after.transactionStack := by
  cases action with
  | openLayer node =>
      obtain ⟨hApart, prior, rfl⟩ := openTransactionLayer_ok hStep
      exact stackTracked_open h hApart
  | upsert nodes =>
      obtain ⟨⟨next, notices⟩, hUpsert, hStep⟩ := Outcome.bind_eq_ok.mp hStep
      cases hStep
      rw [upsertNode] at hUpsert
      split_ifs at hUpsert with hEmpty
      · obtain ⟨changed, -, hUpsert⟩ := Outcome.bind_eq_ok.mp hUpsert
        cases hUpsert
        exact h
      · obtain ⟨changed, hTracked, hUpsert⟩ := Outcome.bind_eq_ok.mp hUpsert
        cases hUpsert
        exact tracked_upsertTracked h hTracked
  | delete labelRule =>
      obtain ⟨⟨next, notices⟩, hDelete, hStep⟩ := Outcome.bind_eq_ok.mp hStep
      cases hStep
      rw [deleteNode] at hDelete
      split_ifs at hDelete with hEmpty
      · obtain ⟨changed, -, hDelete⟩ := Outcome.bind_eq_ok.mp hDelete
        cases hDelete
        exact h
      · obtain ⟨changed, hTracked, hDelete⟩ := Outcome.bind_eq_ok.mp hDelete
        cases hDelete
        exact tracked_trackDelete h hTracked

theorem Reached.tracked {b : TransactionalBackend Callback} (h : Reached b) : Tracked b.transactionStack := by
  induction h with
  | fresh tree => exact tracked_nil
  | underneath tree prior ih => exact ih
  | step prior last ih => exact tracked_step ih last
  | close prior last ih =>
      rw [closeTransactionLayers] at last
      split_ifs at last with hEmpty
      · cases last
        exact ih
      · obtain ⟨changed, -, last⟩ := Outcome.bind_eq_ok.mp last
        cases last
        exact tracked_nil

end Stack

/-! ### What a query finds in a stack -/

section Query

variable {stack : Transaction} {labelRule label : Str}

theorem queryHits_eq (hTracked : Tracked stack) (hBounds : LookupInBounds labelRule stack) :
    queryHits labelRule stack = .ok (liveNode labelRule stack).toList := by
  obtain ⟨hLayers, -⟩ := hTracked
  induction stack with
  | nil => rfl
  | cons sub rest ih =>
      rw [List.forall_mem_cons] at hLayers
      have hChildren := findSome?_childNode_of_deleted
        (fun child hChild => (hLayers.1.child_deleted child hChild).1) labelRule
      rw [liveNode_cons]
      cases hParent : sub.parent.node with
      | none =>
          simp only [LookupInBounds, hParent] at hBounds
          simp [queryHits, hParent, childNode, ih hBounds hLayers.2]
      | some parent =>
          simp only [LookupInBounds, hParent] at hBounds
          obtain ⟨⟨b, hTest⟩, hRest⟩ := hBounds
          by_cases hEq : labelRule = parent.labelRule
          · subst hEq
            simp [queryHits, hParent, childNode, checkLabelRuleOverlap_self, Option.filter]
          · have hNone : childNode labelRule sub.parent = none := by
              simp [childNode, hParent, Ne.symm hEq]
            have hTail := ih (hRest hEq) hLayers.2
            cases b <;> simp [queryHits, hParent, hTest, hEq, hChildren, hNone, hTail]

/-- The loop fails where one of its overlap tests does. -/
theorem lookupInBounds_of_queryHits {hits : List TreeNode} (hTracked : Tracked stack)
    (h : queryHits labelRule stack = .ok hits) : LookupInBounds labelRule stack := by
  obtain ⟨hLayers, -⟩ := hTracked
  induction stack generalizing hits with
  | nil => trivial
  | cons sub rest ih =>
      rw [List.forall_mem_cons] at hLayers
      have hChildren := findSome?_childNode_of_deleted
        (fun child hChild => (hLayers.1.child_deleted child hChild).1) labelRule
      cases hParent : sub.parent.node with
      | none =>
          simp only [queryHits, hParent] at h
          simpa only [LookupInBounds, hParent] using ih h hLayers.2
      | some parent =>
          simp only [queryHits, hParent] at h
          obtain ⟨b, hTest, h⟩ := Outcome.bind_eq_ok.mp h
          simp only [LookupInBounds, hParent]
          refine ⟨⟨b, hTest⟩, fun hNe => ?_⟩
          cases b <;> simp only [hNe, hChildren, ↓reduceIte, Bool.false_eq_true] at h <;> exact ih h hLayers.2

/-- Every node that was found is replaced by the same hit. -/
theorem queryResults_eq {hits : List TreeNode} (h : queryHits labelRule stack = .ok hits) (found : List TreeNode) :
    queryResults labelRule stack found = .ok (found.flatMap fun node => if hits = [] then [node] else hits) := by
  induction found with
  | nil => rfl
  | cons node rest ih => simp [queryResults, h, ih]

/-- No later change names the label that an earlier layer is open on. -/
theorem lastWrite_of_apart {sub : SubTransaction} {rest : Transaction} (hTracked : Tracked rest)
    (hApart : ∀ later ∈ rest, LayersApart sub later) {node : TreeNode} (hNode : node ∈ sub.parent.node) :
    lastWrite node.labelRule (writes rest) = none := by
  rw [lastWrite_eq_none]
  intro hMem
  obtain ⟨write, hWrite, hKey⟩ := List.mem_map.mp hMem
  obtain ⟨later, hLater, hWrite⟩ := List.mem_flatMap.mp hWrite
  rcases List.mem_cons.mp hWrite with rfl | hChild
  · rw [parentKey_eq (hTracked.layers later hLater)] at hKey
    exact (hApart later hLater).label_ne node hNode hKey
  · obtain ⟨child, hMem, rfl⟩ := List.mem_map.mp hChild
    exact (hApart later hLater).child_ne node hNode child hMem hKey

/-- The version of a label in the transaction is the node of the layer that is open on it. -/
theorem lastWrite_of_live (hTracked : Tracked stack) {node : TreeNode} (hLive : liveNode label stack = some node) :
    lastWrite label (writes stack) = some (some node) := by
  induction stack with
  | nil => simp [liveNode] at hLive
  | cons sub rest ih =>
      obtain ⟨hLayers, hApart⟩ := hTracked
      rw [List.forall_mem_cons] at hLayers
      rw [List.pairwise_cons] at hApart
      have hTail : Tracked rest := ⟨hLayers.2, hApart.2⟩
      have hWrites : writes (sub :: rest) = [(sub.parentKey, sub.parent.node)] ++
          sub.descendants.map (fun child => (child.labelRule, child.node)) ++ writes rest := by
        simp [writes]
      rw [liveNode_cons] at hLive
      rw [hWrites, lastWrite_append]
      cases hHead : childNode label sub.parent with
      | none =>
          rw [hHead, Option.none_or] at hLive
          rw [ih hTail hLive, Option.some_or]
      | some own =>
          rw [hHead, Option.some_or, Option.some.injEq] at hLive
          obtain ⟨hNode, hLabel⟩ := childNode_eq_some.mp hHead
          subst hLive hLabel
          have hChildren : lastWrite own.labelRule (sub.descendants.map fun child => (child.labelRule, child.node)) = none := by
            rw [lastWrite_eq_none, List.map_map, List.mem_map]
            rintro ⟨child, hChild, hKey⟩
            exact hLayers.1.child_ne own hNode child hChild hKey
          have hKey : sub.parentKey = own.labelRule := by
            rw [parentKey_eq hLayers.1, hLayers.1.label_eq own hNode]
          rw [lastWrite_of_apart hTail hApart.1 hNode, Option.none_or, lastWrite_append, hChildren, Option.none_or,
            lastWrite_singleton, if_pos hKey, hNode]

/-- A label that no layer is open on can only be deleted. -/
theorem lastWrite_of_free (hTracked : Tracked stack) (hFree : liveNode label stack = none) {version : Option TreeNode}
    (h : lastWrite label (writes stack) = some version) : version = none := by
  obtain ⟨sub, hSub, hWrite⟩ := List.mem_flatMap.mp (mem_of_lastWrite h)
  have hLayer := hTracked.layers sub hSub
  rcases List.mem_cons.mp hWrite with hParent | hChild
  · obtain ⟨hKey, rfl⟩ := Prod.mk.injEq _ _ _ _ ▸ hParent
    rw [Option.eq_none_iff_forall_not_mem]
    intro node hNode
    apply liveNode_eq_none.mp hFree sub hSub node hNode
    rw [hLayer.label_eq node hNode, hKey, parentKey_eq hLayer]
  · obtain ⟨child, hMem, hEq⟩ := List.mem_map.mp hChild
    obtain ⟨-, rfl⟩ := Prod.mk.injEq _ _ _ _ ▸ hEq
    exact (hLayer.child_deleted child hMem).1

/-- The current version of a node has the label of the node. -/
theorem labelRule_current (hTracked : Tracked stack) {node version : TreeNode} (h : current stack node = some version) :
    version.labelRule = node.labelRule := by
  rw [current] at h
  cases hLast : lastWrite node.labelRule (writes stack) with
  | none =>
      rw [hLast, Option.getD_none, Option.some.injEq] at h
      rw [h]
  | some written =>
      rw [hLast, Option.getD_some] at h
      subst h
      cases hLive : liveNode node.labelRule stack with
      | none => cases lastWrite_of_free hTracked hLive hLast
      | some live =>
          rw [lastWrite_of_live hTracked hLive, Option.some.injEq, Option.some.injEq] at hLast
          obtain ⟨sub, -, hHit⟩ := List.exists_of_findSome?_eq_some hLive
          rw [← hLast]
          exact (childNode_eq_some.mp hHit).2

end Query

/-- A selection is the whole list only if it keeps every element. -/
theorem filterMap_eq_self {α : Type} {f : α → Option α} {l : List α} : l = l.filterMap f ↔ ∀ a ∈ l, f a = some a := by
  induction l with
  | nil => simp
  | cons a l ih =>
      rw [List.forall_mem_cons, List.filterMap_cons]
      cases hf : f a with
      | none =>
          have hLength := List.length_filterMap_le f l
          simp only [reduceCtorEq, false_and, iff_false]
          intro hEq
          have hLonger := congrArg List.length hEq
          simp at hLonger
          omega
      | some b =>
          simp only [List.cons.injEq, Option.some.injEq, ← ih]
          exact ⟨fun ⟨hHead, hTail⟩ => ⟨hHead.symm, hTail⟩, fun ⟨hHead, hTail⟩ => ⟨hHead.symm, hTail⟩⟩

/-- With a layer open on the query, each node that is found becomes the node of that layer. -/
theorem replaced_iff {stack : Transaction} (hTracked : Tracked stack) {labelRule : Str} {live : TreeNode}
    (hLive : liveNode labelRule stack = some live) {found : List TreeNode} (hFound : found ≠ []) :
    (found.flatMap fun _ => [live]) = found.filterMap (current stack) ∧
        ((found.flatMap fun _ => [live]).map TreeNode.labelRule).Nodup ↔ found.map TreeNode.labelRule = [labelRule] := by
  have hLabel : live.labelRule = labelRule := by
    obtain ⟨sub, -, hHit⟩ := List.exists_of_findSome?_eq_some hLive
    exact (childNode_eq_some.mp hHit).2
  cases found with
  | nil => exact absurd rfl hFound
  | cons node rest =>
      cases rest with
      | nil =>
          have hOne : current stack node = some live ↔ node.labelRule = labelRule := by
            constructor
            · intro hCurrent
              rw [← labelRule_current hTracked hCurrent, hLabel]
            · rintro rfl
              rw [current, lastWrite_of_live hTracked hLive, Option.getD_some]
          cases hCurrent : current stack node with
          | none => simpa [hCurrent] using hOne
          | some version => simpa [hCurrent, eq_comm] using hOne
      | cons other rest => simp

/-- A query is overlaid exactly when the transaction has no other version of what is found, or when one node
is found and it has the label that is asked for. -/
theorem overlaid_iff_of_tracked {b : TransactionalBackend Callback} (hTracked : Tracked b.transactionStack)
    (hOpen : b.transactionStack ≠ []) (labelRule : Str) : b.Overlaid labelRule ↔ b.Overlayable labelRule := by
  rw [Overlaid, Overlayable, queryNodes, if_neg hOpen]
  generalize b.tree.queryNodes labelRule = found
  generalize b.transactionStack = stack at hTracked
  by_cases hFound : found = []
  · simp [hFound, queryResults]
  by_cases hBounds : LookupInBounds labelRule stack
  · rw [queryResults_eq (queryHits_eq hTracked hBounds)]
    simp only [Except.ok.injEq, exists_eq_left', hFound, hBounds, true_and, false_or]
    cases hLive : liveNode labelRule stack with
    | none => simp [filterMap_eq_self]
    | some live => simpa using replaced_iff hTracked hLive hFound
  · simp only [hFound, hBounds, false_and, or_false, iff_false]
    rintro ⟨results, hResults, -⟩
    obtain ⟨node, rest, rfl⟩ := List.exists_cons_of_ne_nil hFound
    obtain ⟨hits, hHits, -⟩ := Outcome.bind_eq_ok.mp hResults
    exact hBounds (lookupInBounds_of_queryHits hTracked hHits)

/-- The same in every state with open layers, over whatever is stored underneath. -/
theorem overlaid_iff {b : TransactionalBackend Callback} (h : Reached b) (hOpen : b.transactionStack ≠ [])
    (labelRule : Str) : b.Overlaid labelRule ↔ b.Overlayable labelRule :=
  overlaid_iff_of_tracked h.tracked hOpen labelRule

/-- `A/B` is stored, and a layer is open on it with another description. -/
def redescribed : TransactionalBackend Unit where
  tree := ⟨MemoryTree.empty.set (str "A/B") { labelRule := str "A/B" }, .empty⟩
  transactionStack := [⟨⟨some 1, str "A/B", some { labelRule := str "A/B", description := str "new" }⟩, []⟩]

theorem redescribed_reached : Reached redescribed := by
  have hOpen : step ⟨redescribed.tree, []⟩ (.openLayer { labelRule := str "A/B", description := str "new" }) =
      .ok redescribed := rfl
  exact .step (.fresh redescribed.tree) hOpen

theorem overlaid_iff_redescribed : redescribed.Overlaid (str "A/B") ↔ redescribed.Overlayable (str "A/B") :=
  overlaid_iff redescribed_reached (by simp [redescribed]) (str "A/B")

/-- The query `A` finds `A/B`, and returns it without its new description. -/
theorem not_overlaid_redescribed : Reached redescribed ∧ redescribed.transactionStack ≠ [] ∧ ¬redescribed.Overlaid (str "A") := by
  refine ⟨redescribed_reached, by simp [redescribed], ?_⟩
  have hFound : redescribed.queryNodes (str "A") = .ok [TreeNode.assign { labelRule := str "A/B" }] := rfl
  have hTracked : (redescribed.tree.queryNodes (str "A")).filterMap (current redescribed.transactionStack) =
      [{ labelRule := str "A/B", description := str "new" }] := rfl
  rintro ⟨results, hResults, hCurrent, -⟩
  rw [hFound, Except.ok.injEq] at hResults
  rw [hTracked, ← hResults] at hCurrent
  exact absurd (congrArg (List.map TreeNode.description) hCurrent) (by decide)

end TransactionalBackend

end Wwatp
