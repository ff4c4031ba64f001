import Wwatp.Memory.TransactionalBackend
import Wwatp.Memory.Transactions

/-! The transaction stack as an overlay. Abstractly a transaction is the map of
its last writes over the nodes underneath; the stack realises it as long as every
write names one label a layer tracks and every deletion names a label that is not
stored underneath. -/
namespace Wwatp
namespace TransactionalBackend

open Cxx

/-! ### Looking at a stack -/

/-- The node of the first layer that is open on exactly this label. -/
def liveNode (labelRule : Str) (stack : Transaction) : Option TreeNode :=
  stack.findSome? fun sub => childNode labelRule sub.parent

/-- Replace the node of that layer. -/
def setLive (labelRule : Str) (node : Option TreeNode) : Transaction → Transaction
  | [] => []
  | sub :: rest =>
      if (childNode labelRule sub.parent).isSome then
        { sub with parent := { sub.parent with node := node } } :: rest
      else sub :: setLive labelRule node rest

/-- What holds of one layer: its child changes are deletions of labels that are
not stored underneath, none of them its own; its node keeps its label, and a layer
whose node was deleted has nothing stored under its label. -/
structure LayerTracked (tree : MemoryTree) (sub : SubTransaction) : Prop where
  child_deleted : ∀ child ∈ sub.descendants,
    child.node = none ∧ tree.getNode child.labelRule = none
  label_eq : ∀ node ∈ sub.parent.node, node.labelRule = sub.parent.labelRule
  child_ne : ∀ node ∈ sub.parent.node, ∀ child ∈ sub.descendants, child.labelRule ≠ node.labelRule
  absent : sub.parent.node = none → tree.getNode sub.parent.labelRule = none

/-- What holds of a layer and one opened after it: while the earlier one is
open, the later one neither tracks nor deletes its label. -/
structure LayersApart (earlier later : SubTransaction) : Prop where
  label_ne : ∀ node ∈ earlier.parent.node, later.parent.labelRule ≠ node.labelRule
  child_ne : ∀ node ∈ earlier.parent.node, ∀ child ∈ later.descendants,
    child.labelRule ≠ node.labelRule
  no_overlap : ∀ node ∈ earlier.parent.node, ∀ other ∈ later.parent.node,
    checkLabelRuleOverlap other.labelRule node.labelRule = .ok false

/-- The invariant of the stack over the tree underneath. -/
structure StackTracked (tree : MemoryTree) (stack : Transaction) : Prop where
  layers : ∀ sub ∈ stack, LayerTracked tree sub
  apart : stack.Pairwise LayersApart

theorem childNode_eq_some {labelRule : Str} {change : NewNodeVersion} {node : TreeNode} :
    childNode labelRule change = some node ↔ change.node = some node ∧ node.labelRule = labelRule := by
  simp [childNode]

theorem childNode_eq_none {labelRule : Str} {change : NewNodeVersion} :
    childNode labelRule change = none ↔ ∀ node ∈ change.node, node.labelRule ≠ labelRule := by
  cases h : change.node <;> simp [childNode, h]

theorem liveNode_eq_none {labelRule : Str} {stack : Transaction} :
    liveNode labelRule stack = none ↔
      ∀ sub ∈ stack, ∀ node ∈ sub.parent.node, node.labelRule ≠ labelRule := by
  simp only [liveNode, List.findSome?_eq_none_iff, childNode_eq_none]

theorem liveNode_cons (labelRule : Str) (sub : SubTransaction) (rest : Transaction) :
    liveNode labelRule (sub :: rest) = (childNode labelRule sub.parent).or (liveNode labelRule rest) := by
  cases h : childNode labelRule sub.parent <;> simp [liveNode, h]

theorem liveNode_append (labelRule : Str) (stack : Transaction) (sub : SubTransaction) :
    liveNode labelRule (stack ++ [sub]) = (liveNode labelRule stack).or (childNode labelRule sub.parent) := by
  cases h : childNode labelRule sub.parent <;> simp [liveNode, h]

theorem checkLabelRuleOverlap_self (labelRule : Str) :
    checkLabelRuleOverlap labelRule labelRule = .ok true := by
  simp [checkLabelRuleOverlap]

section Deletions

/-! Child changes that are all deletions never match a label. -/

variable {children : List NewNodeVersion} (hDeleted : ∀ child ∈ children, child.node = none)

include hDeleted

theorem findSome?_childNode_of_deleted (labelRule : Str) :
    children.findSome? (childNode labelRule) = none := by
  rw [List.findSome?_eq_none_iff]
  intro child hChild
  simp [childNode, hDeleted child hChild]

theorem replaceChild_of_deleted (labelRule : Str) (node : Option TreeNode) :
    replaceChild labelRule node children = none := by
  induction children with
  | nil => rfl
  | cons child rest ih =>
      simp only [List.forall_mem_cons] at hDeleted
      simp [replaceChild, childNode, hDeleted.1, ih hDeleted.2]

end Deletions

/-! ### What each operation does to a tracked stack -/

/-- Every overlap test a lookup of the label makes stays within its strings. -/
def LookupInBounds (labelRule : Str) : Transaction → Prop
  | [] => True
  | sub :: rest =>
      match sub.parent.node with
      | none => LookupInBounds labelRule rest
      | some parent =>
          (∃ b, checkLabelRuleOverlap labelRule parent.labelRule = .ok b) ∧
            (labelRule ≠ parent.labelRule → LookupInBounds labelRule rest)

/-- A lookup finds the layer open on the label, and nothing else. -/
theorem findTracked_eq {tree : MemoryTree} {labelRule : Str} {stack : Transaction}
    (hLayers : ∀ sub ∈ stack, LayerTracked tree sub) (hBounds : LookupInBounds labelRule stack) :
    findTracked labelRule stack = .ok (liveNode labelRule stack) := by
  induction stack with
  | nil => rfl
  | cons sub rest ih =>
      rw [List.forall_mem_cons] at hLayers
      have hChildren := findSome?_childNode_of_deleted
        (fun child hChild => (hLayers.1.child_deleted child hChild).1) labelRule
      rw [liveNode_cons]
      cases hParent : sub.parent.node with
      | none =>
          simp only [LookupInBounds, hParent] at hBounds
          simp [findTracked, hParent, childNode, ih hLayers.2 hBounds]
      | some parent =>
          simp only [LookupInBounds, hParent] at hBounds
          obtain ⟨⟨b, hTest⟩, hRest⟩ := hBounds
          by_cases hEq : labelRule = parent.labelRule
          · subst hEq
            simp [findTracked, hParent, childNode, checkLabelRuleOverlap_self, Option.filter]
          · have hNone : childNode labelRule sub.parent = none := by
              simp [childNode, hParent, Ne.symm hEq]
            have hTail := ih hLayers.2 (hRest hEq)
            cases b <;>
              simp [findTracked, hParent, hTest, hEq, hChildren, hNone, hTail]

/-- An upsert of a tracked label replaces that layer's node. -/
theorem trackUpsert_eq {tree : MemoryTree} {node : TreeNode} {stack : Transaction}
    {result : Option Transaction} (hLayers : ∀ sub ∈ stack, LayerTracked tree sub)
    (hLive : liveNode node.labelRule stack ≠ none) (h : trackUpsert node stack = .ok result) :
    result = some (setLive node.labelRule (some node) stack) := by
  induction stack generalizing result with
  | nil => simp [liveNode] at hLive
  | cons sub rest ih =>
      rw [List.forall_mem_cons] at hLayers
      have hChildren := replaceChild_of_deleted
        (fun child hChild => (hLayers.1.child_deleted child hChild).1) node.labelRule (some node)
      -- skipping this layer leaves the rest of the stack to the induction hypothesis
      have hSkip : childNode node.labelRule sub.parent = none →
          (do return (← trackUpsert node rest).map (sub :: ·)) = Except.ok result →
          result = some (setLive node.labelRule (some node) (sub :: rest)) := by
        intro hNone hTail
        rw [liveNode_cons, hNone, Option.none_or] at hLive
        simp only [Outcome.bind_eq_ok, Outcome.pure_eq_ok, Except.ok.injEq] at hTail
        obtain ⟨tail, hTail, rfl⟩ := hTail
        rw [ih hLayers.2 hLive hTail]
        simp [setLive, hNone]
      cases hParent : sub.parent.node with
      | none =>
          simp only [trackUpsert, hParent] at h
          exact hSkip (by simp [childNode, hParent]) h
      | some parent =>
          simp only [trackUpsert, hParent] at h
          by_cases hEq : node.labelRule = parent.labelRule
          · simp only [hEq, checkLabelRuleOverlap_self, Outcome.ok_bind, ↓reduceIte,
              Outcome.pure_eq_ok, Except.ok.injEq] at h
            simp [← h, setLive, childNode, hParent, hEq, Option.filter]
          · obtain ⟨b, hTest, h⟩ := Outcome.bind_eq_ok.mp h
            have hNone : childNode node.labelRule sub.parent = none := by
              simp [childNode, hParent, Ne.symm hEq]
            cases b <;> simp only [hEq, hChildren, ↓reduceIte, Bool.false_eq_true] at h <;>
              exact hSkip hNone h

/-- The stack after a deletion that no layer was open on: one layer got a new
child change. -/
def PushedDeletion (labelRule : Str) (stack after : Transaction) : Prop :=
  ∃ before sub rest, stack = before ++ sub :: rest ∧
    after = before ++ { sub with descendants := sub.descendants ++ [⟨none, labelRule, none⟩] } :: rest

/-- A deletion empties the layer that is open on the label, or adds a child change. -/
theorem trackDelete_eq {tree : MemoryTree} {labelRule : Str} {stack after : Transaction}
    (hTracked : StackTracked tree stack) (h : trackDelete labelRule stack = .ok after) :
    (liveNode labelRule stack ≠ none → after = setLive labelRule none stack) ∧
      (liveNode labelRule stack = none → PushedDeletion labelRule stack after) := by
  induction stack generalizing after with
  | nil => cases h
  | cons sub rest ih =>
      obtain ⟨hLayers, hApart⟩ := hTracked
      rw [List.forall_mem_cons] at hLayers
      rw [List.pairwise_cons] at hApart
      have hChildren := replaceChild_of_deleted
        (fun child hChild => (hLayers.1.child_deleted child hChild).1) labelRule none
      -- skipping this layer leaves the rest of the stack to the induction hypothesis
      have hSkip : childNode labelRule sub.parent = none →
          (do return sub :: (← trackDelete labelRule rest)) = Except.ok after →
          (liveNode labelRule (sub :: rest) ≠ none → after = setLive labelRule none (sub :: rest)) ∧
            (liveNode labelRule (sub :: rest) = none → PushedDeletion labelRule (sub :: rest) after) := by
        intro hNone hTail
        simp only [Outcome.bind_eq_ok, Outcome.pure_eq_ok, Except.ok.injEq] at hTail
        obtain ⟨tail, hTail, rfl⟩ := hTail
        obtain ⟨hLive, hPush⟩ := ih ⟨hLayers.2, hApart.2⟩ hTail
        rw [liveNode_cons, hNone, Option.none_or]
        refine ⟨fun hSome => by simp [setLive, hNone, hLive hSome], fun hFree => ?_⟩
        obtain ⟨before, changed, after, rfl, rfl⟩ := hPush hFree
        exact ⟨sub :: before, changed, after, rfl, rfl⟩
      cases hParent : sub.parent.node with
      | none =>
          simp only [trackDelete, hParent] at h
          exact hSkip (by simp [childNode, hParent]) h
      | some parent =>
          simp only [trackDelete, hParent] at h
          by_cases hEq : labelRule = parent.labelRule
          · simp only [hEq, checkLabelRuleOverlap_self, Outcome.ok_bind, ↓reduceIte,
              Outcome.pure_eq_ok, Except.ok.injEq] at h
            have hHit : (childNode labelRule sub.parent).isSome := by
              simp [childNode, hParent, hEq, Option.filter]
            refine ⟨fun _ => by simp [← h, setLive, hHit], fun hFree => ?_⟩
            rw [liveNode_cons, Option.or_eq_none_iff] at hFree
            simp [hFree.1] at hHit
          · obtain ⟨b, hTest, h⟩ := Outcome.bind_eq_ok.mp h
            have hNone : childNode labelRule sub.parent = none := by
              simp [childNode, hParent, Ne.symm hEq]
            cases b with
            | false => exact hSkip hNone (by simpa using h)
            | true =>
                simp only [hEq, hChildren, ↓reduceIte, Outcome.pure_eq_ok, Except.ok.injEq] at h
                refine ⟨fun hSome => ?_, fun _ => ⟨[], sub, rest, rfl, h.symm⟩⟩
                -- a later layer open on the label would not overlap this one
                exfalso
                rw [liveNode_cons, hNone, Option.none_or, Ne, liveNode_eq_none] at hSome
                push Not at hSome
                obtain ⟨later, hLater, node, hNode, rfl⟩ := hSome
                have hFalse := (hApart.1 later hLater).no_overlap parent hParent node hNode
                rw [hFalse] at hTest
                cases hTest

/-! ### The invariant is kept -/

/-- A layer after its node was replaced by one with the same label, or deleted. -/
structure Shrinks (after before : SubTransaction) : Prop where
  label : after.parent.labelRule = before.parent.labelRule
  children : after.descendants = before.descendants
  node : ∀ new ∈ after.parent.node, ∃ old ∈ before.parent.node, old.labelRule = new.labelRule

theorem LayersApart.shrink {a a' b b' : SubTransaction} (h : LayersApart a b)
    (ha : Shrinks a' a) (hb : Shrinks b' b) : LayersApart a' b' := by
  constructor
  · intro node hNode
    obtain ⟨old, hOld, hEq⟩ := ha.node node hNode
    rw [hb.label, ← hEq]
    exact h.label_ne old hOld
  · intro node hNode
    obtain ⟨old, hOld, hEq⟩ := ha.node node hNode
    rw [hb.children, ← hEq]
    exact h.child_ne old hOld
  · intro node hNode other hOther
    obtain ⟨old, hOld, hEq⟩ := ha.node node hNode
    obtain ⟨oldOther, hOldOther, hEqOther⟩ := hb.node other hOther
    rw [← hEq, ← hEqOther]
    exact h.no_overlap old hOld oldOther hOldOther

theorem Shrinks.refl (sub : SubTransaction) : Shrinks sub sub :=
  ⟨rfl, rfl, fun node hNode => ⟨node, hNode, rfl⟩⟩

theorem mem_setLive {labelRule : Str} {node : Option TreeNode} {stack : Transaction}
    {sub : SubTransaction} (h : sub ∈ setLive labelRule node stack) :
    sub ∈ stack ∨ ∃ old ∈ stack, ∃ oldNode, childNode labelRule old.parent = some oldNode ∧
      sub = { old with parent := { old.parent with node := node } } := by
  induction stack with
  | nil => cases h
  | cons first rest ih =>
      rw [setLive] at h
      split_ifs at h with hHit
      · obtain ⟨oldNode, hOld⟩ := Option.isSome_iff_exists.mp hHit
        rcases List.mem_cons.mp h with rfl | hMem
        · exact .inr ⟨first, by simp, oldNode, hOld, rfl⟩
        · exact .inl (by simp [hMem])
      · rcases List.mem_cons.mp h with rfl | hMem
        · exact .inl (by simp)
        · rcases ih hMem with hMem | ⟨old, hOld, hRest⟩
          · exact .inl (by simp [hMem])
          · exact .inr ⟨old, by simp [hOld], hRest⟩

section SetLive

variable {labelRule : Str} {node : Option TreeNode} (hLabel : ∀ n ∈ node, n.labelRule = labelRule)

include hLabel

theorem shrinks_of_hit {old : SubTransaction} {oldNode : TreeNode}
    (h : childNode labelRule old.parent = some oldNode) :
    Shrinks { old with parent := { old.parent with node := node } } old := by
  obtain ⟨hNode, hEq⟩ := childNode_eq_some.mp h
  exact ⟨rfl, rfl, fun new hNew => ⟨oldNode, hNode, hEq.trans (hLabel new hNew).symm⟩⟩

theorem shrinks_of_mem_setLive {stack : Transaction} {sub : SubTransaction}
    (h : sub ∈ setLive labelRule node stack) : ∃ old ∈ stack, Shrinks sub old := by
  rcases mem_setLive h with hMem | ⟨old, hOld, oldNode, hHit, rfl⟩
  · exact ⟨sub, hMem, .refl sub⟩
  · exact ⟨old, hOld, shrinks_of_hit hLabel hHit⟩

theorem pairwise_setLive {stack : Transaction} (h : stack.Pairwise LayersApart) :
    (setLive labelRule node stack).Pairwise LayersApart := by
  induction stack with
  | nil => exact h
  | cons sub rest ih =>
      obtain ⟨hFirst, hRest⟩ := List.pairwise_cons.mp h
      rw [setLive]
      split_ifs with hHit
      · obtain ⟨oldNode, hOld⟩ := Option.isSome_iff_exists.mp hHit
        exact .cons (fun later hLater => (hFirst later hLater).shrink (shrinks_of_hit hLabel hOld)
          (.refl later)) hRest
      · refine .cons (fun later hLater => ?_) (ih hRest)
        obtain ⟨old, hMem, hShrinks⟩ := shrinks_of_mem_setLive hLabel hLater
        exact (hFirst old hMem).shrink (.refl sub) hShrinks

/-- Replacing or deleting the node of an open layer keeps the invariant, if a
deleted label is not stored underneath. -/
theorem stackTracked_setLive {tree : MemoryTree} {stack : Transaction}
    (h : StackTracked tree stack) (hAbsent : node = none → tree.getNode labelRule = none) :
    StackTracked tree (setLive labelRule node stack) := by
  refine ⟨fun sub hSub => ?_, pairwise_setLive hLabel h.apart⟩
  rcases mem_setLive hSub with hMem | ⟨old, hOld, oldNode, hHit, rfl⟩
  · exact h.layers sub hMem
  · obtain ⟨hNode, hEq⟩ := childNode_eq_some.mp hHit
    have hLayer := h.layers old hOld
    have hSame : old.parent.labelRule = labelRule := by rw [← hLayer.label_eq oldNode hNode, hEq]
    constructor
    · exact hLayer.child_deleted
    · exact fun new hNew => (hLabel new hNew).trans hSame.symm
    · intro new hNew child hChild
      rw [hLabel new hNew, ← hEq]
      exact hLayer.child_ne oldNode hNode child hChild
    · intro hNone
      rw [hSame]
      exact hAbsent hNone

theorem liveNode_setLive {stack : Transaction} (other : Str) (hLive : liveNode labelRule stack ≠ none)
    (hApart : stack.Pairwise LayersApart) (hLayers : ∀ sub ∈ stack, ∀ n ∈ sub.parent.node,
      n.labelRule = sub.parent.labelRule) :
    liveNode other (setLive labelRule node stack) =
      if labelRule = other then node else liveNode other stack := by
  induction stack with
  | nil => simp [liveNode] at hLive
  | cons sub rest ih =>
      obtain ⟨hFirst, hRest⟩ := List.pairwise_cons.mp hApart
      rw [List.forall_mem_cons] at hLayers
      rw [setLive]
      split_ifs with hHit hEq hEq
      · -- the layer that was hit is the only one open on the label
        subst hEq
        obtain ⟨oldNode, hOld⟩ := Option.isSome_iff_exists.mp hHit
        obtain ⟨hNode, hOldLabel⟩ := childNode_eq_some.mp hOld
        have hOthers : liveNode labelRule rest = none := by
          rw [liveNode_eq_none]
          intro later hLater n hn
          rw [hLayers.2 later hLater n hn, ← hOldLabel]
          exact (hFirst later hLater).label_ne oldNode hNode
        rw [liveNode_cons, hOthers, Option.or_none]
        cases node with
        | none => rfl
        | some n => simpa [childNode, Option.filter] using hLabel n rfl
      · obtain ⟨oldNode, hOld⟩ := Option.isSome_iff_exists.mp hHit
        obtain ⟨hNode, hOldLabel⟩ := childNode_eq_some.mp hOld
        have hBefore : childNode other sub.parent = none := by
          rw [childNode_eq_none]
          intro n hn
          rw [Option.mem_def, hNode, Option.some.injEq] at hn
          rw [← hn, hOldLabel]
          exact hEq
        have hAfter : childNode other { sub.parent with node := node } = none := by
          rw [childNode_eq_none]
          intro n hn
          rw [hLabel n hn]
          exact hEq
        rw [liveNode_cons, liveNode_cons, hBefore, hAfter]
      · subst hEq
        have hMiss : childNode labelRule sub.parent = none := by simpa using hHit
        rw [liveNode_cons, hMiss, Option.none_or] at hLive ⊢
        simpa using ih hLive hRest hLayers.2
      · have hMiss : childNode labelRule sub.parent = none := by simpa using hHit
        rw [liveNode_cons, hMiss, Option.none_or] at hLive
        rw [liveNode_cons, liveNode_cons, ih hLive hRest hLayers.2, if_neg hEq]

end SetLive

/-- A new child deletion keeps the invariant, if no layer is open on its label
and the label is not stored underneath. -/
theorem stackTracked_push {tree : MemoryTree} {labelRule : Str} {stack after : Transaction}
    (h : StackTracked tree stack) (hFree : liveNode labelRule stack = none)
    (hAbsent : tree.getNode labelRule = none) (hPush : PushedDeletion labelRule stack after) :
    StackTracked tree after := by
  obtain ⟨before, sub, rest, rfl, rfl⟩ := hPush
  obtain ⟨hLayers, hApart⟩ := h
  rw [liveNode_eq_none] at hFree
  rw [List.pairwise_append, List.pairwise_cons] at hApart
  obtain ⟨hBefore, ⟨hSub, hRest⟩, hCross⟩ := hApart
  have hLayer := hLayers sub (by simp)
  constructor
  · intro layer hMem
    rw [List.mem_append, List.mem_cons] at hMem
    rcases hMem with hMem | rfl | hMem
    · exact hLayers layer (by simp [hMem])
    · constructor
      · intro child hChild
        rcases List.mem_append.mp hChild with hOld | hNew
        · exact hLayer.child_deleted child hOld
        · rw [List.mem_singleton] at hNew
          exact ⟨by rw [hNew], by rw [hNew]; exact hAbsent⟩
      · exact hLayer.label_eq
      · intro node hNode child hChild
        rcases List.mem_append.mp hChild with hOld | hNew
        · exact hLayer.child_ne node hNode child hOld
        · rw [List.mem_singleton] at hNew
          rw [hNew]
          exact (hFree sub (by simp) node hNode).symm
      · exact hLayer.absent
    · exact hLayers layer (by simp [hMem])
  · rw [List.pairwise_append, List.pairwise_cons]
    refine ⟨hBefore, ⟨fun later hLater => ?_, hRest⟩, fun earlier hEarlier later hLater => ?_⟩
    · obtain ⟨hLabel, hChild, hTest⟩ := hSub later hLater
      exact ⟨hLabel, hChild, hTest⟩
    · rcases List.mem_cons.mp hLater with rfl | hLater
      · obtain ⟨hLabel, hOld, hTest⟩ := hCross earlier hEarlier sub (by simp)
        refine ⟨hLabel, fun node hNode child hChild => ?_, hTest⟩
        rcases List.mem_append.mp hChild with hMem | hNew
        · exact hOld node hNode child hMem
        · rw [List.mem_singleton] at hNew
          rw [hNew]
          exact (hFree earlier (by simp [hEarlier]) node hNode).symm
      · exact hCross earlier hEarlier later (by simp [hLater])

theorem liveNode_push {labelRule : Str} {stack after : Transaction}
    (hPush : PushedDeletion labelRule stack after) (other : Str) :
    liveNode other after = liveNode other stack := by
  obtain ⟨before, sub, rest, rfl, rfl⟩ := hPush
  simp [liveNode, List.findSome?_append, List.findSome?_cons]

end TransactionalBackend
end Wwatp
