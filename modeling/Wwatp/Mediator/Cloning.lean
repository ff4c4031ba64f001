import Wwatp.Mediator.EqualTrees
import Wwatp.Mediator.NoEcho

/-! Two backends that one mediator keeps equal. The mediator repeats the announced changes one
by one, by `upsertNode` and by the recursive `deleteNode`. -/
namespace Wwatp

open Cxx Cxx.Effectful

namespace TreeChange

/-- The announced changes, each after the key under which the tree makes it. -/
def keyed : TreeChange → List (Str × Str × Option TreeNode)
  | upsertNode nodes => nodes.map fun node => (node.getLabelRule, node.getLabelRule, some node)
  | deleteNode labelRule => [(labelRule, labelRule, none)]
  | applyTransaction transaction => transaction.flatMap fun sub =>
      (sub.parentKey, sub.parent.labelRule, sub.parent.node) ::
        sub.descendants.map fun child => (child.labelRule, child.labelRule, child.node)

/-- One announced change by a call of its own. -/
def alone (t : MemoryTree) (entry : Str × Str × Option TreeNode) : MemoryTree :=
  match entry.2.2 with
  | some node => t.set entry.1 node
  | none => (t.deleteNode entry.2.1).1

theorem alone_some {t : MemoryTree} {entry : Str × Str × Option TreeNode} {node : TreeNode}
    (h : entry.2.2 = some node) : alone t entry = t.set entry.1 node := by
  rw [alone, h]

theorem alone_none {t : MemoryTree} {entry : Str × Str × Option TreeNode} (h : entry.2.2 = none) :
    alone t entry = (t.deleteNode entry.2.1).1 := by
  rw [alone, h]

/-- The announced changes come to the same when each is made by a call of its own. A node goes
to its own label, unless an equal node is there already that the written one equals as well. A
deletion takes nothing along that is not changed later. -/
def Repeats (t : MemoryTree) : List (Str × Str × Option TreeNode) → Prop
  | [] => True
  | entry :: later =>
      (match entry.2.2 with
        | some node =>
            if equalNodes (some node) (t.getNode entry.2.1) then equalNodes (some node.assign) (t.getNode entry.1) = true
            else entry.1 = node.labelRule
        | none => ∀ taken, t.getNode taken ≠ none → (t.deleteNode entry.2.1).1.getNode taken = none →
            taken = entry.2.1 ∨ ∃ change ∈ later, change.1 = taken) ∧
        Repeats (alone t entry) later

/-- The mediator repeats the call on an equal tree. -/
def Repeatable (t : MemoryTree) : TreeChange → Prop
  | upsertNode nodes => Repeats t (upsertNode nodes).keyed
  | deleteNode _ => True
  | applyTransaction transaction => (∀ sub ∈ transaction, t.canPerformSubTransaction sub = .ok true) →
      Repeats t (applyTransaction transaction).keyed

theorem announced_eq_keyed (change : TreeChange) : change.announced = change.keyed.map Prod.snd := by
  cases change with
  | upsertNode nodes =>
      rw [keyed, announced, List.map_map]
      rfl
  | deleteNode labelRule => rfl
  | applyTransaction transaction =>
      rw [keyed, announced, List.map_flatMap]
      refine List.flatMap_congr fun sub _ => ?_
      rw [List.map_cons, List.map_cons, List.map_map]
      rfl

/-- Only a node is written under another key than the announced label. -/
theorem keyed_none {change : TreeChange} {entry : Str × Str × Option TreeNode} (hEntry : entry ∈ change.keyed)
    (hNone : entry.2.2 = none) : entry.1 = entry.2.1 := by
  cases change with
  | upsertNode nodes =>
      obtain ⟨node, -, rfl⟩ := List.mem_map.mp hEntry
      cases hNone
  | deleteNode labelRule =>
      rw [List.mem_singleton.mp hEntry]
  | applyTransaction transaction =>
      obtain ⟨sub, -, hSub⟩ := List.mem_flatMap.mp hEntry
      rcases List.mem_cons.mp hSub with rfl | hChild
      · have hNode : sub.parent.node = none := hNone
        show sub.parentKey = sub.parent.labelRule
        rw [SubTransaction.parentKey, hNode]
      · obtain ⟨child, -, rfl⟩ := List.mem_map.mp hChild
        rfl

/-- A call but `deleteNode` makes its changes one after another. -/
theorem perform_eq_keyed {change : TreeChange} {t u : MemoryTree} (h : change.perform t = .ok u)
    (hWrites : ∀ labelRule, change ≠ deleteNode labelRule) :
    u = change.keyed.foldl (fun t entry => t.put entry.1 entry.2.2) t := by
  cases change with
  | upsertNode nodes =>
      obtain rfl := Except.ok.inj h
      rw [keyed, List.foldl_map]
      rfl
  | deleteNode labelRule => exact absurd rfl (hWrites labelRule)
  | applyTransaction transaction =>
      obtain ⟨-, rfl⟩ := MemoryTree.applyTransaction_eq_ok.mp h
      rw [keyed, List.foldl_flatMap]
      congr 1
      funext t sub
      rw [MemoryTree.performSubTransaction, List.foldl_cons, List.foldl_map]

/-- A key that some entry writes to is that of the first entry, or of a later one. -/
theorem later_of_ne {entry : Str × Str × Option TreeNode} {later : List (Str × Str × Option TreeNode)} {key : Str}
    (h : ∃ change ∈ entry :: later, change.1 = key) (hKey : key ≠ entry.1) : ∃ change ∈ later, change.1 = key := by
  obtain ⟨change, hMem, rfl⟩ := h
  rcases List.mem_cons.mp hMem with rfl | hLater
  · exact absurd rfl hKey
  · exact ⟨change, hLater, rfl⟩

/-- One after another or alone, the changes come to the same. The keys that differ on the way
are changed later. -/
theorem getNode_foldl_alone (entries : List (Str × Str × Option TreeNode)) {t v : MemoryTree}
    (hRepeats : Repeats t entries) (hKeys : ∀ entry ∈ entries, entry.2.2 = none → entry.1 = entry.2.1)
    (hSame : ∀ key, v.getNode key = t.getNode key ∨ ∃ entry ∈ entries, entry.1 = key) (key : Str) :
    (entries.foldl (fun t entry => t.put entry.1 entry.2.2) v).getNode key = (entries.foldl alone t).getNode key := by
  induction entries generalizing t v with
  | nil => exact (hSame key).resolve_right fun ⟨_, hEntry, _⟩ => nomatch hEntry
  | cons entry entries ih =>
      rw [Repeats] at hRepeats
      obtain ⟨hEntry, hLater⟩ := hRepeats
      rw [List.foldl_cons, List.foldl_cons]
      refine ih hLater (fun later hMem => hKeys later (List.mem_cons_of_mem _ hMem)) fun key => ?_
      rw [MemoryTree.getNode_put]
      cases hNode : entry.2.2 with
      | some node =>
          rw [alone_some hNode, MemoryTree.getNode_set]
          split_ifs with hKey
          · exact .inl rfl
          · exact (hSame key).imp_right fun h => later_of_ne h (Ne.symm hKey)
      | none =>
          rw [hNode] at hEntry
          have hLabel := hKeys entry List.mem_cons_self hNode
          rw [alone_none hNode]
          split_ifs with hKey
          · left
            rw [← hKey, hLabel, MemoryTree.getNode_deleteNode_self]
            rfl
          · rcases t.getNode_deleteNode entry.2.1 key with hGone | hKept
            · by_cases hStored : t.getNode key = none
              · rw [hGone, ← hStored]
                exact (hSame key).imp_right fun h => later_of_ne h (Ne.symm hKey)
              · exact .inr ((hEntry key hStored hGone).resolve_left fun h => hKey (hLabel.trans h.symm))
            · rw [hKept]
              exact (hSame key).imp_right fun h => later_of_ne h (Ne.symm hKey)

end TreeChange

namespace MediatorNet

open MemoryTree TreeChange

variable {ι κ : Type} [DecidableEq ι] [DecidableEq κ] {mediator : κ → CloningMediator ι}
  {k : κ} {s t : MediatorNet ι κ} {side : Side}

/-- What the mediator writes to an equal tree is the change made alone. -/
theorem same_replyTree {t u : MemoryTree} (h : Same t u) {entry : Str × Str × Option TreeNode}
    (hEntry : ∀ node, entry.2.2 = some node →
      if equalNodes (some node) (t.getNode entry.2.1) then equalNodes (some node.assign) (t.getNode entry.1) = true
      else entry.1 = node.labelRule) :
    Same (alone t entry) (replyTree u (answer false entry.2.1 entry.2.2 (u.getNode entry.2.1))) := by
  obtain ⟨key, label, told⟩ := entry
  have hAnswer : equalNodes told (u.getNode label) = equalNodes told (t.getNode label) :=
    (equalNodes_congr (h label)).symm
  unfold answer
  dsimp only at hEntry ⊢
  rw [hAnswer]
  cases told with
  | some node =>
      have hNode := hEntry node rfl
      rw [alone_some rfl]
      split_ifs at hNode ⊢ with hHeld
      · intro other
        rw [getNode_set]
        split_ifs with hKey
        · exact hKey ▸ equalNodes_trans hNode (h key)
        · exact h other
      · subst hNode
        exact h.put node.labelRule (some node)
  | none =>
      rw [alone_none rfl]
      split_ifs with hHeld
      · have hNone := equalNodes_none_iff.mp hHeld
        rw [MemoryTree.deleteNode, hNone]
        exact h
      · exact h.deleteNode label

/-- What the mediator writes to an equal tree, for changes that come to the same alone. -/
theorem same_foldl_replyTree (entries : List (Str × Str × Option TreeNode)) {t u : MemoryTree} (h : Same t u)
    (hRepeats : Repeats t entries) : Same (entries.foldl alone t) (entries.foldl (fun u entry =>
      replyTree u (answer false entry.2.1 entry.2.2 (u.getNode entry.2.1))) u) := by
  induction entries generalizing t u with
  | nil => exact h
  | cons entry entries ih =>
      rw [Repeats] at hRepeats
      obtain ⟨hEntry, hLater⟩ := hRepeats
      refine ih (same_replyTree h fun node hNode => ?_) hLater
      rwa [hNode] at hEntry

omit [DecidableEq κ] in
theorem answeredAll_memoryTree (h : Joined mediator k s) (side : Side) (announced : List (Str × Option TreeNode)) :
    ((announced.foldl (answered mediator k side) s).backend ((mediator k).backend side)).memoryTree =
        (s.backend ((mediator k).backend side)).memoryTree ∧
      ((announced.foldl (answered mediator k side) s).backend ((mediator k).backend side.other)).memoryTree =
        announced.foldl (fun t told => replyTree t (answer (mediator k).versioned told.1 told.2 (t.getNode told.1)))
          (s.backend ((mediator k).backend side.other)).memoryTree := by
  induction announced generalizing s with
  | nil => exact ⟨rfl, rfl⟩
  | cons told announced ih =>
      obtain ⟨hHere, hThere⟩ := ih (h.answered side told)
      have hBackend (j : ι) : ((answered mediator k side s told).backend j).memoryTree =
          if j = (mediator k).backend side.other then replyTree (s.backend ((mediator k).backend side.other)).memoryTree
            (replyOf mediator k side s told) else (s.backend j).memoryTree :=
        setTree_memoryTree s _ j _
      rw [List.foldl_cons, List.foldl_cons, hHere, hThere, hBackend, hBackend, if_neg (h.backend_ne side), if_pos rfl]
      exact ⟨rfl, rfl⟩

/-- A call of a joined backend that is made to its end is refused, or leaves its own tree
changed and the other as the mediator's replies leave it. -/
theorem Joined.of_step (h : Joined mediator k s) {fuel : ℕ} {operation : BackendOperation}
    (hStep : step mediator s (.operate fuel ((mediator k).backend side) operation) = some t) :
    t = s ∨ ∃ tree, operation.perform (s.backend ((mediator k).backend side)).memoryTree = .ok tree ∧
      Joined mediator k t ∧ (t.backend ((mediator k).backend side)).memoryTree = tree ∧
      (t.backend ((mediator k).backend side.other)).memoryTree = operation.announced.foldl (fun t told =>
        replyTree t (answer (mediator k).versioned told.1 told.2 (t.getNode told.1)))
          (s.backend ((mediator k).backend side.other)).memoryTree := by
  obtain ⟨result, hCall, hDefined⟩ := operate_of_step hStep
  cases hPerform : operation.perform (s.backend ((mediator k).backend side)).memoryTree with
  | error e =>
      cases fuel with
      | zero => exact absurd (Prod.mk.inj hCall).1.symm (hDefined .nonTermination)
      | succ fuel =>
          rw [operate_throws hPerform] at hCall
          exact .inl (Prod.mk.inj hCall).2.symm
  | ok tree =>
      refine .inr ⟨tree, rfl, ?_⟩
      have hStored := h.setTree ((mediator k).backend side) tree
      obtain ⟨hHere, hThere⟩ := answeredAll_memoryTree hStored side operation.announced
      rw [setTree_memoryTree, if_pos rfl] at hHere
      rw [setTree_memoryTree, if_neg (h.backend_ne side).symm] at hThere
      rcases @operate_approximates _ _ _ _ mediator _ _ (Nat.le_add_right fuel 2) ((mediator k).backend side)
        operation s with hOut | hMore
      · rw [hCall] at hOut
        exact absurd hOut (hDefined .nonTermination)
      · rw [h.operate hPerform, hCall] at hMore
        obtain rfl := (Prod.mk.inj hMore).2
        exact ⟨hStored.answeredAll side _, hHere, hThere⟩

/-- What a call does to one of two equal trees, and the mediator to the other. -/
theorem same_of_perform {t u tree : MemoryTree} (h : Same t u) {change : TreeChange}
    (hRepeatable : change.Repeatable t) (hPerform : change.perform t = .ok tree) :
    Same tree (change.announced.foldl (fun u told => replyTree u (answer false told.1 told.2 (u.getNode told.1))) u) := by
  rw [announced_eq_keyed, List.foldl_map]
  have hWrites (hNotDelete : ∀ labelRule, change ≠ .deleteNode labelRule) (hRepeats : Repeats t change.keyed) :
      tree = change.keyed.foldl alone t := by
    rw [perform_eq_keyed hPerform hNotDelete]
    exact ext_getNode (getNode_foldl_alone _ hRepeats (fun _ hEntry => keyed_none hEntry) fun _ => .inl rfl)
  cases change with
  | upsertNode nodes =>
      rw [hWrites nofun hRepeatable]
      exact same_foldl_replyTree _ h hRepeatable
  | deleteNode labelRule =>
      obtain rfl := Except.ok.inj hPerform
      exact @same_replyTree _ _ h (labelRule, labelRule, none) nofun
  | applyTransaction transaction =>
      have hRepeats := hRepeatable (applyTransaction_eq_ok.mp hPerform).1
      rw [hWrites nofun hRepeats]
      exact same_foldl_replyTree _ h hRepeats

/-- A call on one side of the pair. Everything else a net can do is left out here. -/
def ClonedCall (mediator : κ → CloningMediator ι) (k : κ) (s : MediatorNet ι κ) (action : Action ι κ) : Prop :=
  ∃ fuel side change, action = .operate fuel ((mediator k).backend side) (.change change) ∧
    change.Repeatable (s.backend ((mediator k).backend side)).memoryTree

/-- The mediator is idle and alone on both backends, and their trees are equal. -/
def Twins (mediator : κ → CloningMediator ι) (k : κ) (s : MediatorNet ι κ) : Prop :=
  Joined mediator k s ∧ ∀ side : Side, Same (s.backend ((mediator k).backend side)).memoryTree
    (s.backend ((mediator k).backend side.other)).memoryTree

/-- A call that the mediator repeats keeps the two backends equal. -/
theorem Twins.step (h : Twins mediator k s) (hUnversioned : (mediator k).versioned = false) {action : Action ι κ}
    (hCall : ClonedCall mediator k s action) (hStep : step mediator s action = some t) : Twins mediator k t := by
  obtain ⟨fuel, side, change, rfl, hRepeatable⟩ := hCall
  obtain ⟨hJoined, hSame⟩ := h
  rcases hJoined.of_step hStep with rfl | ⟨tree, hPerform, hAfter, hHere, hThere⟩
  · exact ⟨hJoined, hSame⟩
  · rw [hUnversioned] at hThere
    have hTrees := same_of_perform (hSame side) hRepeatable hPerform
    refine ⟨hAfter, fun which => ?_⟩
    rcases side.eq_or_eq_other which with rfl | rfl
    · rw [hHere, hThere]
      exact hTrees
    · rw [Side.other_other, hHere, hThere]
      exact hTrees.symm

/-- Two backends with equal trees and no listeners, joined by one unversioned mediator, stay
equal in every run of calls that the mediator repeats. -/
theorem same_of_reaches {s₀ : MediatorNet ι κ} (hDistinct : (mediator k).backendA ≠ (mediator k).backendB)
    (hUnversioned : (mediator k).versioned = false)
    (hEmpty : ∀ side rule, (s₀.backend ((mediator k).backend side)).nodeListeners.under rule = [])
    (hEqual : Same (s₀.backend (mediator k).backendA).memoryTree (s₀.backend (mediator k).backendB).memoryTree)
    (hRun : Reaches (step mediator) (ClonedCall mediator k) (s₀.create mediator k) s) :
    Same (s.backend (mediator k).backendA).memoryTree (s.backend (mediator k).backendB).memoryTree ∧
      ∀ side change, (∃ tree, TreeChange.perform (s.backend ((mediator k).backend side)).memoryTree change = .ok tree) →
        ∃ t, step mediator s (.operate 2 ((mediator k).backend side) (.change change)) = some t := by
  have hStart : Twins mediator k (s₀.create mediator k) := by
    refine ⟨Joined.create hDistinct hEmpty, fun side => ?_⟩
    rw [memoryTree_create, memoryTree_create]
    cases side
    · exact hEqual
    · exact hEqual.symm
  obtain ⟨hJoined, hSame⟩ := hRun.invariant hStart fun _ _ _ hTwins hCall hStep => hTwins.step hUnversioned hCall hStep
  refine ⟨hSame .a, fun side change ⟨tree, hPerform⟩ => ?_⟩
  have hPerform' : (BackendOperation.change change).perform
      (s.backend ((mediator k).backend side)).memoryTree = .ok tree := hPerform
  exact ⟨_, step_of_operate (hJoined.operate hPerform' 0)⟩

theorem same_of_reaches_upsert : ∃ s, step (pair false) (emptyPair.create (pair false) ()) (.operate 2 .a upsertA) =
    some s ∧ Same (s.backend .a).memoryTree (s.backend .b).memoryTree := by
  have hAccepted : upsertA.perform ((emptyPair.create (pair false) ()).backend
      ((pair false ()).backend .a)).memoryTree = .ok _ := rfl
  have hStep := step_of_operate ((joined_emptyPair false).operate hAccepted 0)
  have hCall : ClonedCall (pair false) () (emptyPair.create (pair false) ()) (.operate 2 .a upsertA) :=
    ⟨2, .a, _, rfl, rfl, trivial⟩
  exact ⟨_, hStep, (same_of_reaches (by nofun) rfl (fun _ _ => ListenerTable.under_empty _) (Same.refl _)
    (.single hCall hStep)).1⟩

/-- `A` with a child `A/b`, which has a child `A/b/c` itself. -/
def nestedTree : MemoryTree :=
  ((MemoryTree.empty.set (str "A") { labelRule := str "A", childNames := [str "b"] }).set (str "A/b")
    { labelRule := str "A/b", childNames := [str "c"] }).set (str "A/b/c") { labelRule := str "A/b/c" }

def nestedPair : MediatorNet Side Unit := ⟨fun _ => ⟨nestedTree, .empty⟩, fun _ => false, fun _ => false, []⟩

def nextA : TreeNode := { labelRule := str "A", version := { versionNumber := 1 } }

/-- A transaction that changes `A` and deletes `A/b`. -/
def deleteNested : TreeChange := .applyTransaction [⟨⟨some 0, str "A", some nextA⟩, [⟨some 0, str "A/b", none⟩]⟩]

/-- The transaction leaves `A/b/c` where it is made, and the mediator deletes it with `A/b`. -/
theorem not_same_nested : ¬ ∀ s, Reaches (step (pair false))
    (fun _ action => ∃ fuel side change, action = .operate fuel side (.change change))
    (nestedPair.create (pair false) ()) s → Same (s.backend .a).memoryTree (s.backend .b).memoryTree := by
  intro h
  have hJoined : Joined (pair false) () (nestedPair.create (pair false) ()) :=
    Joined.create nofun fun _ _ => ListenerTable.under_empty _
  have hAccepted : (BackendOperation.change deleteNested).perform ((nestedPair.create (pair false) ()).backend
      ((pair false ()).backend .a)).memoryTree = .ok ((nestedTree.set (str "A") nextA).erase (str "A/b")) := rfl
  have hSame := h _ (.single ⟨2, .a, _, rfl⟩ (step_of_operate (hJoined.operate hAccepted 0))) (str "A/b/c")
  obtain ⟨hHere, hThere⟩ := answeredAll_memoryTree (hJoined.setTree .a ((nestedTree.set (str "A") nextA).erase
    (str "A/b"))) .a deleteNested.announced
  have hPeer : (nestedTree.set (str "A") nextA).getNode (str "A/b") = some _ := rfl
  have hGone := @getNode_deleteNode_child _ _ (str "A/b/c") _ hPeer (by decide)
  have hThere' : ((deleteNested.announced.foldl (answered (pair false) () .a) ((nestedPair.create (pair false) ()).setTree
      .a ((nestedTree.set (str "A") nextA).erase (str "A/b")))).backend .b).memoryTree =
      ((nestedTree.set (str "A") nextA).deleteNode (str "A/b")).1 := hThere
  have hKept : (((deleteNested.announced.foldl (answered (pair false) () .a) ((nestedPair.create (pair false)
      ()).setTree .a ((nestedTree.set (str "A") nextA).erase (str "A/b")))).backend .a).memoryTree).getNode
      (str "A/b/c") = some { labelRule := str "A/b/c" } := hHere ▸ rfl
  have hUnequal : equalNodes (some { labelRule := str "A/b/c" }) none = true := by
    rw [← hKept, ← hGone, ← hThere']
    exact hSame
  cases hUnequal

end MediatorNet
end Wwatp
