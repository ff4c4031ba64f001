import Wwatp.Memory.Overlay

/-! Runs of a `TransactionalBackend` with open layers, and what closing them
leaves in the tree underneath. -/
namespace Wwatp
namespace TransactionalBackend

open Cxx

variable {Callback : Type}

/-- The calls of a transaction before it is closed. -/
inductive Action
  | openLayer (node : TreeNode)
  | upsert (nodes : List TreeNode)
  | delete (labelRule : Str)

def step (b : TransactionalBackend Callback) : Action → Outcome (TransactionalBackend Callback)
  | .openLayer node => b.openTransactionLayer node
  | .upsert nodes => do return (← b.upsertNode nodes).1
  | .delete labelRule => do return (← b.deleteNode labelRule).1

/-- The calls made one after another; the run ends at the first that throws. -/
def run (b : TransactionalBackend Callback) : List Action → Outcome (TransactionalBackend Callback)
  | [] => .ok b
  | action :: rest => do run (← b.step action) rest

/-- What a reader of the transaction is to see: a node or nothing for each label. -/
abbrev View := Str → Option TreeNode

/-- The view after a call: its writes on top of the view before it. -/
def Action.overlay (view : View) : Action → View
  | .openLayer node => Function.update view node.labelRule (some node)
  | .upsert nodes =>
      nodes.foldl (fun view node => Function.update view node.labelRule (some node)) view
  | .delete labelRule => Function.update view labelRule none

/-- A call the stack can record: an upsert of at most one node, whose label a
layer is open on, or the deletion of a label that is not stored underneath. -/
def Recordable (b : TransactionalBackend Callback) : Action → Prop
  | .openLayer _ => True
  | .upsert nodes => nodes = [] ∨
      ∃ node, nodes = [node] ∧ liveNode node.labelRule b.transactionStack ≠ none
  | .delete labelRule => b.tree.getNode labelRule = none

/-- Every call of a run is recordable in the state it is made in. -/
def RunRecordable (b : TransactionalBackend Callback) : List Action → Prop
  | [] => True
  | action :: rest => b.Recordable action ∧ ∀ after, b.step action = .ok after → after.RunRecordable rest

/-- The property data of every open layer's node survives a copying assignment. -/
def CopiesIntact (stack : Transaction) : Prop :=
  ∀ sub ∈ stack, ∀ node ∈ sub.parent.node, TreeNode.SameNode node.assign node

/-- The stack realises a view: it is tracked, and the node of the layer open on a
label, or else the stored node, is the node in view. -/
structure Realises (b : TransactionalBackend Callback) (view : View) : Prop where
  tracked : StackTracked b.tree.memoryTree b.transactionStack
  sees : ∀ label, view label = (liveNode label b.transactionStack).or (b.tree.getNode label)
  layered : b.transactionStack ≠ []

section Steps

variable {b after : TransactionalBackend Callback} {view : View}

theorem checkNoOverlap_ok {labelRule : Str} {stack : Transaction}
    (h : checkNoOverlap labelRule stack = .ok ()) :
    ∀ sub ∈ stack, ∀ node ∈ sub.parent.node,
      checkLabelRuleOverlap labelRule node.labelRule = .ok false := by
  induction stack with
  | nil => simp
  | cons sub rest ih =>
      rw [List.forall_mem_cons]
      cases hParent : sub.parent.node with
      | none =>
          simp only [checkNoOverlap, hParent] at h
          exact ⟨by simp, ih h⟩
      | some parent =>
          simp only [checkNoOverlap, hParent, Outcome.bind_eq_ok] at h
          obtain ⟨b, hTest, h⟩ := h
          cases b with
          | true => cases h
          | false => exact ⟨by simpa using hTest, ih h⟩

/-- What opening a layer does: the new layer comes last and overlaps no open one. -/
theorem openTransactionLayer_ok {node : TreeNode} (h : b.openTransactionLayer node = .ok after) :
    (∀ sub ∈ b.transactionStack, ∀ old ∈ sub.parent.node,
      checkLabelRuleOverlap node.labelRule old.labelRule = .ok false) ∧
    ∃ prior, after =
      { b with transactionStack := b.transactionStack ++ [⟨⟨prior, node.labelRule, some node⟩, []⟩] } := by
  simp only [openTransactionLayer, Outcome.bind_eq_ok, Outcome.pure_eq_ok, Except.ok.injEq] at h
  obtain ⟨_, hCheck, prior, -, rfl⟩ := h
  exact ⟨checkNoOverlap_ok hCheck, prior, rfl⟩

theorem stackTracked_open {tree : MemoryTree} {stack : Transaction} {node : TreeNode}
    {prior : Option UInt16} (h : StackTracked tree stack)
    (hApart : ∀ sub ∈ stack, ∀ old ∈ sub.parent.node,
      checkLabelRuleOverlap node.labelRule old.labelRule = .ok false) :
    StackTracked tree (stack ++ [⟨⟨prior, node.labelRule, some node⟩, []⟩]) := by
  constructor
  · intro sub hSub
    rcases List.mem_append.mp hSub with hOld | hNew
    · exact h.layers sub hOld
    · rw [List.mem_singleton] at hNew
      subst hNew
      exact ⟨by simp, by simp, by simp, by simp⟩
  · rw [List.pairwise_append]
    refine ⟨h.apart, List.pairwise_singleton _ _, fun earlier hEarlier later hLater => ?_⟩
    rw [List.mem_singleton] at hLater
    subst hLater
    refine ⟨fun old hOld hEq => ?_, by simp, fun old hOld other hOther => ?_⟩
    · have hFalse := hApart earlier hEarlier old hOld
      rw [show node.labelRule = old.labelRule from hEq, checkLabelRuleOverlap_self] at hFalse
      cases hFalse
    · rw [Option.mem_def, Option.some.injEq] at hOther
      rw [← hOther]
      exact hApart earlier hEarlier old hOld

theorem realises_open {node : TreeNode} (h : b.Realises view ∨ (b.transactionStack = [] ∧ view = b.tree.getNode))
    (hStep : b.openTransactionLayer node = .ok after) :
    after.Realises (Function.update view node.labelRule (some node)) ∧ after.tree = b.tree := by
  obtain ⟨hApart, prior, rfl⟩ := openTransactionLayer_ok hStep
  have hTracked : StackTracked b.tree.memoryTree b.transactionStack := by
    rcases h with h | ⟨hEmpty, -⟩
    · exact h.tracked
    · rw [hEmpty]
      exact ⟨by simp, .nil⟩
  have hSees : ∀ label, view label = (liveNode label b.transactionStack).or (b.tree.getNode label) := by
    rcases h with h | ⟨hEmpty, rfl⟩
    · exact h.sees
    · simp [hEmpty, liveNode]
  have hFree : liveNode node.labelRule b.transactionStack = none := by
    rw [liveNode_eq_none]
    intro sub hSub old hOld hEq
    have hFalse := hApart sub hSub old hOld
    rw [hEq, checkLabelRuleOverlap_self] at hFalse
    cases hFalse
  refine ⟨⟨stackTracked_open hTracked hApart, fun label => ?_, by simp⟩, rfl⟩
  rw [liveNode_append]
  by_cases hEq : label = node.labelRule
  · subst hEq
    simp [hFree, childNode, Option.filter]
  · rw [Function.update_of_ne hEq, hSees]
    simp [childNode, Option.filter, Ne.symm hEq]

theorem realises_setLive {labelRule : Str} {node : Option TreeNode} (h : b.Realises view)
    (hLabel : ∀ n ∈ node, n.labelRule = labelRule)
    (hAbsent : node = none → b.tree.getNode labelRule = none)
    (hLive : liveNode labelRule b.transactionStack ≠ none) :
    ({ b with transactionStack := setLive labelRule node b.transactionStack } :
      TransactionalBackend Callback).Realises (Function.update view labelRule node) := by
  have hKeys : ∀ sub ∈ b.transactionStack, ∀ n ∈ sub.parent.node, n.labelRule = sub.parent.labelRule :=
    fun sub hSub => (h.tracked.layers sub hSub).label_eq
  refine ⟨stackTracked_setLive hLabel h.tracked hAbsent, fun label => ?_, ?_⟩
  · rw [liveNode_setLive hLabel label hLive h.tracked.apart hKeys]
    by_cases hEq : labelRule = label
    · subst hEq
      cases node with
      | none => simp [hAbsent rfl]
      | some n => simp
    · rw [if_neg hEq, Function.update_of_ne (Ne.symm hEq), h.sees]
  · cases hStack : b.transactionStack with
    | nil => exact absurd hStack h.layered
    | cons sub rest => simp only [setLive]; split_ifs <;> simp

theorem realises_upsert {nodes : List TreeNode} (h : b.Realises view)
    (hRecordable : b.Recordable (.upsert nodes)) (hStep : b.step (.upsert nodes) = .ok after) :
    after.Realises (Action.overlay view (.upsert nodes)) ∧ after.tree = b.tree := by
  simp only [step, upsertNode, h.layered, ↓reduceIte, bind_assoc, Outcome.bind_eq_ok,
    Outcome.pure_eq_ok, Outcome.ok_bind, Except.ok.injEq] at hStep
  obtain ⟨stack, hStack, rfl⟩ := hStep
  refine ⟨?_, rfl⟩
  rcases hRecordable with rfl | ⟨node, rfl, hLive⟩
  · cases hStack
    exact h
  · simp only [upsertTracked, Outcome.bind_eq_ok] at hStack
    obtain ⟨result, hTrack, hStack⟩ := hStack
    rw [trackUpsert_eq h.tracked.layers hLive hTrack] at hStack
    cases hStack
    exact realises_setLive h (by simp) (by simp) hLive

theorem realises_delete {labelRule : Str} (h : b.Realises view)
    (hRecordable : b.Recordable (.delete labelRule)) (hStep : b.step (.delete labelRule) = .ok after) :
    after.Realises (Action.overlay view (.delete labelRule)) ∧ after.tree = b.tree := by
  simp only [step, deleteNode, h.layered, ↓reduceIte, bind_assoc, Outcome.bind_eq_ok,
    Outcome.pure_eq_ok, Outcome.ok_bind, Except.ok.injEq] at hStep
  obtain ⟨stack, hStack, rfl⟩ := hStep
  refine ⟨?_, rfl⟩
  obtain ⟨hSet, hPush⟩ := trackDelete_eq h.tracked hStack
  by_cases hLive : liveNode labelRule b.transactionStack = none
  · have hPushed := hPush hLive
    refine ⟨stackTracked_push h.tracked hLive hRecordable hPushed, fun label => ?_, ?_⟩
    · rw [liveNode_push hPushed, Action.overlay]
      by_cases hEq : label = labelRule
      · subst hEq
        have hStored : b.tree.getNode label = none := hRecordable
        simp [hLive, hStored]
      · rw [Function.update_of_ne hEq, h.sees]
    · obtain ⟨before, sub, rest, -, rfl⟩ := hPushed
      simp
  · rw [hSet hLive]
    exact realises_setLive h (by simp) (fun _ => hRecordable) hLive

/-- One recordable call takes a realised view to the view with its writes on top,
and leaves the backend underneath alone. -/
theorem realises_step {action : Action} (h : b.Realises view) (hRecordable : b.Recordable action)
    (hStep : b.step action = .ok after) :
    after.Realises (action.overlay view) ∧ after.tree = b.tree := by
  cases action with
  | openLayer node => exact realises_open (.inl h) hStep
  | upsert nodes => exact realises_upsert h hRecordable hStep
  | delete labelRule => exact realises_delete h hRecordable hStep

theorem realises_run {actions : List Action} (h : b.Realises view)
    (hRecordable : b.RunRecordable actions) (hRun : b.run actions = .ok after) :
    after.Realises (actions.foldl Action.overlay view) ∧ after.tree = b.tree := by
  induction actions generalizing b view with
  | nil =>
      cases hRun
      exact ⟨h, rfl⟩
  | cons action rest ih =>
      simp only [run, Outcome.bind_eq_ok] at hRun
      obtain ⟨next, hStep, hRun⟩ := hRun
      obtain ⟨hNext, hTree⟩ := realises_step h hRecordable.1 hStep
      obtain ⟨hAfter, hSame⟩ := ih hNext (hRecordable.2 next hStep) hRun
      exact ⟨hAfter, hSame.trans hTree⟩

end Steps

section Close

variable {tree : MemoryTree} {stack : Transaction}

theorem getNode_eraseAll (t : MemoryTree) {changes : List NewNodeVersion}
    (h : ∀ child ∈ changes, child.node = none) (label : Str) :
    (changes.foldl (fun t child => t.put child.labelRule child.node) t).getNode label =
      if label ∈ changes.map NewNodeVersion.labelRule then none else t.getNode label := by
  induction changes generalizing t with
  | nil => simp
  | cons child rest ih =>
      rw [List.forall_mem_cons] at h
      rw [List.foldl_cons, ih _ h.2, MemoryTree.getNode_put, h.1]
      by_cases hRest : label ∈ rest.map NewNodeVersion.labelRule
      · simp [hRest]
      · by_cases hEq : child.labelRule = label
        · simp [hEq]
        · simp [hRest, hEq, Ne.symm hEq]

/-- The writes of one tracked layer. -/
theorem getNode_performLayer (t : MemoryTree) {sub : SubTransaction} (h : LayerTracked tree sub)
    (label : Str) :
    (t.performSubTransaction sub).getNode label =
      if label ∈ sub.descendants.map NewNodeVersion.labelRule then none
      else if sub.parentKey = label then sub.parent.node.map TreeNode.assign else t.getNode label := by
  rw [MemoryTree.performSubTransaction,
    getNode_eraseAll _ fun child hChild => (h.child_deleted child hChild).1, MemoryTree.getNode_put]

theorem parentKey_eq {sub : SubTransaction} (h : LayerTracked tree sub) :
    sub.parentKey = sub.parent.labelRule := by
  unfold SubTransaction.parentKey
  cases hNode : sub.parent.node with
  | none => rfl
  | some node => exact h.label_eq node hNode

/-- Without a layer open on a label, performing the stack erases the label if any
change names it, and leaves it alone otherwise. -/
theorem getNode_perform_of_free (hTracked : StackTracked tree stack) (t : MemoryTree) {label : Str}
    (hFree : liveNode label stack = none) :
    (stack.foldl MemoryTree.performSubTransaction t).getNode label =
      if label ∈ stack.flatMap MemoryTree.writtenLabels then none else t.getNode label := by
  induction stack generalizing t with
  | nil => simp
  | cons sub rest ih =>
      obtain ⟨hLayers, hApart⟩ := hTracked
      rw [List.forall_mem_cons] at hLayers
      rw [liveNode_cons, Option.or_eq_none_iff] at hFree
      rw [List.foldl_cons, ih ⟨hLayers.2, (List.pairwise_cons.mp hApart).2⟩ _ hFree.2,
        getNode_performLayer t hLayers.1, List.flatMap_cons, MemoryTree.writtenLabels]
      have hErased : sub.parentKey = label → sub.parent.node = none := by
        intro hKey
        rw [Option.eq_none_iff_forall_not_mem]
        intro node hNode
        apply childNode_eq_none.mp hFree.1 node hNode
        rw [hLayers.1.label_eq node hNode, ← parentKey_eq hLayers.1, hKey]
      by_cases hRest : label ∈ rest.flatMap MemoryTree.writtenLabels
      · simp [hRest]
      · by_cases hChild : label ∈ sub.descendants.map NewNodeVersion.labelRule
        · rw [if_neg hRest, if_pos hChild, if_pos (by simp [hChild])]
        · by_cases hKey : sub.parentKey = label
          · rw [if_neg hRest, if_neg hChild, if_pos hKey, hErased hKey, if_pos (by simp [hKey])]
            rfl
          · rw [if_neg hRest, if_neg hChild, if_neg hKey, if_neg]
            simp only [List.mem_append, List.mem_cons, not_or]
            exact ⟨⟨Ne.symm hKey, hChild⟩, hRest⟩

/-- The node of the layer open on a label is what performing the stack stores there. -/
theorem getNode_perform_of_live (hTracked : StackTracked tree stack) (t : MemoryTree) {label : Str}
    {node : TreeNode} (hLive : liveNode label stack = some node) :
    (stack.foldl MemoryTree.performSubTransaction t).getNode label = some node.assign := by
  induction stack generalizing t with
  | nil => simp [liveNode] at hLive
  | cons sub rest ih =>
      obtain ⟨hLayers, hApart⟩ := hTracked
      rw [List.forall_mem_cons] at hLayers
      rw [List.pairwise_cons] at hApart
      have hTail : StackTracked tree rest := ⟨hLayers.2, hApart.2⟩
      rw [liveNode_cons] at hLive
      rw [List.foldl_cons]
      cases hHead : childNode label sub.parent with
      | none =>
          rw [hHead, Option.none_or] at hLive
          exact ih hTail _ hLive
      | some own =>
          rw [hHead, Option.some_or, Option.some.injEq] at hLive
          obtain ⟨hNode, hLabel⟩ := childNode_eq_some.mp hHead
          subst hLive hLabel
          -- no later layer writes this label again
          have hFree : liveNode own.labelRule rest = none := by
            rw [liveNode_eq_none]
            intro later hLater n hn
            rw [(hLayers.2 later hLater).label_eq n hn]
            exact (hApart.1 later hLater).label_ne own hNode
          have hUnwritten : own.labelRule ∉ rest.flatMap MemoryTree.writtenLabels := by
            simp only [List.mem_flatMap, MemoryTree.writtenLabels, List.mem_cons, List.mem_map]
            rintro ⟨later, hLater, hKey | ⟨child, hChild, hEq⟩⟩
            · rw [parentKey_eq (hLayers.2 later hLater)] at hKey
              exact (hApart.1 later hLater).label_ne own hNode hKey.symm
            · exact (hApart.1 later hLater).child_ne own hNode child hChild hEq
          have hNotChild : own.labelRule ∉ sub.descendants.map NewNodeVersion.labelRule := by
            rw [List.mem_map]
            rintro ⟨child, hChild, hEq⟩
            exact hLayers.1.child_ne own hNode child hChild hEq
          have hKey : sub.parentKey = own.labelRule := by
            rw [parentKey_eq hLayers.1, hLayers.1.label_eq own hNode]
          rw [getNode_perform_of_free hTail _ hFree, if_neg hUnwritten,
            getNode_performLayer t hLayers.1, if_neg hNotChild, if_pos hKey, hNode]
          rfl

/-- A label some change erases, and no layer is open on, is not stored underneath. -/
theorem absent_of_written (hTracked : StackTracked tree stack) {label : Str}
    (hFree : liveNode label stack = none) (hWritten : label ∈ stack.flatMap MemoryTree.writtenLabels) :
    tree.getNode label = none := by
  obtain ⟨sub, hSub, hMem⟩ := List.mem_flatMap.mp hWritten
  have hLayer := hTracked.layers sub hSub
  rcases List.mem_cons.mp hMem with hKey | hErased
  · rw [parentKey_eq hLayer] at hKey
    rw [hKey]
    apply hLayer.absent
    rw [Option.eq_none_iff_forall_not_mem]
    intro node hNode
    apply liveNode_eq_none.mp hFree sub hSub node hNode
    rw [hLayer.label_eq node hNode, hKey]
  · obtain ⟨child, hChild, rfl⟩ := List.mem_map.mp hErased
    exact (hLayer.child_deleted child hChild).2

/-- Closing the layers stores exactly the view. -/
theorem realises_close {b closed : TransactionalBackend Callback} {notices : List (Notice Callback)}
    {view : View} (h : b.Realises view) (hIntact : CopiesIntact b.transactionStack)
    (hClose : b.closeTransactionLayers = .ok (closed, notices)) (label : Str) :
    Option.Rel TreeNode.SameNode (closed.tree.getNode label) (view label) := by
  simp only [closeTransactionLayers, h.layered, ↓reduceIte, Outcome.bind_eq_ok, Outcome.pure_eq_ok,
    Except.ok.injEq, Prod.mk.injEq, Prod.exists] at hClose
  obtain ⟨tree, _, hApply, rfl, -⟩ := hClose
  have hTree := (MemoryTree.applyTransaction_eq_ok.mp (SimpleBackend.applyTransaction_tree hApply)).2
  rw [SimpleBackend.getNode, ← hTree, h.sees]
  cases hLive : liveNode label b.transactionStack with
  | some node =>
      rw [getNode_perform_of_live h.tracked _ hLive, Option.some_or]
      obtain ⟨sub, hSub, hNode⟩ := List.exists_of_findSome?_eq_some hLive
      exact .some (hIntact sub hSub node (childNode_eq_some.mp hNode).1)
  | none =>
      rw [getNode_perform_of_free h.tracked _ hLive, Option.none_or]
      have hSame : (if label ∈ b.transactionStack.flatMap MemoryTree.writtenLabels then none
          else b.tree.memoryTree.getNode label) = b.tree.getNode label := by
        split_ifs with hWritten
        · exact (absent_of_written h.tracked hLive hWritten).symm
        · rfl
      rw [hSame]
      cases b.tree.getNode label with
      | none => exact .none
      | some node => exact .some (.refl node)

end Close

theorem realises_getNode {b : TransactionalBackend Callback} {view : View} (h : b.Realises view)
    {label : Str} (hBounds : LookupInBounds label b.transactionStack) :
    b.getNode label = .ok (view label) := by
  rw [getNode, findTracked_eq h.tracked.layers hBounds, Outcome.ok_bind, h.sees]
  cases liveNode label b.transactionStack <;> rfl

/-- A transaction whose calls are all recordable reads back its last writes over
the nodes underneath, leaves the backend underneath alone until it is closed, and
stores on closing what it read before. -/
theorem run_reads_last_writes (tree : SimpleBackend Callback) (first : TreeNode)
    (actions : List Action) (opened b : TransactionalBackend Callback)
    (hOpen : openTransactionLayer ⟨tree, []⟩ first = .ok opened)
    (hRecordable : opened.RunRecordable actions) (hRun : opened.run actions = .ok b) (label : Str)
    (hBounds : LookupInBounds label b.transactionStack) :
    b.tree = tree ∧
      b.getNode label = .ok ((Action.openLayer first :: actions).foldl Action.overlay tree.getNode label) ∧
      (CopiesIntact b.transactionStack → ∀ closed notices,
        b.closeTransactionLayers = .ok (closed, notices) →
        ∃ before, b.getNode label = .ok before ∧
          Option.Rel TreeNode.SameNode (closed.tree.getNode label) before) := by
  obtain ⟨hOpened, hUnder⟩ := realises_open (.inr ⟨rfl, rfl⟩) hOpen
  obtain ⟨hRealises, hTree⟩ := realises_run hOpened hRecordable hRun
  have hGet := realises_getNode hRealises hBounds
  exact ⟨hTree.trans hUnder, hGet, fun hIntact closed notices hClose =>
    ⟨_, hGet, realises_close hRealises hIntact hClose label⟩⟩

/-- The empty backend with one layer open, whose node is then replaced. -/
theorem run_reads_last_writes_one_layer :
    let tree : SimpleBackend Unit := ⟨.empty, .empty⟩
    let changed : TreeNode := { labelRule := str "A", description := str "new" }
    let b : TransactionalBackend Unit := ⟨tree, [⟨⟨none, str "A", some changed⟩, []⟩]⟩
    b.tree = tree ∧
      b.getNode (str "A") = .ok ([Action.openLayer { labelRule := str "A" }, .upsert [changed]].foldl
        Action.overlay tree.getNode (str "A")) ∧
      (CopiesIntact b.transactionStack → ∀ closed notices,
        b.closeTransactionLayers = .ok (closed, notices) →
        ∃ before, b.getNode (str "A") = .ok before ∧
          Option.Rel TreeNode.SameNode (closed.tree.getNode (str "A")) before) := by
  intro tree changed b
  refine run_reads_last_writes tree { labelRule := str "A" } [.upsert [changed]] _ b rfl ?_ rfl _ ?_
  · refine ⟨.inr ⟨changed, rfl, ?_⟩, fun _ _ => trivial⟩
    decide
  · exact ⟨⟨true, rfl⟩, fun h => absurd rfl h⟩

/-- An upsert below an open layer is accepted and dropped: `A/B` is open, and the
new node `A/B/C` cannot be read back. -/
theorem upsert_below_layer_dropped :
    let node : TreeNode := { labelRule := str "A/B/C" }
    ∃ opened b : TransactionalBackend Unit,
      openTransactionLayer ⟨⟨.empty, .empty⟩, []⟩ { labelRule := str "A/B" } = .ok opened ∧
      opened.run [.upsert [node]] = .ok b ∧
      b.getNode node.labelRule = .ok none ∧
      [Action.openLayer { labelRule := str "A/B" }, .upsert [node]].foldl Action.overlay
        (fun _ => none) node.labelRule = some node :=
  ⟨_, _, rfl, rfl, rfl, rfl⟩

end TransactionalBackend
end Wwatp
