import Wwatp.Structure.MountRouting
import Wwatp.Tree.Labels

/-! Reading and writing through a `CompositeBackend`. A write takes the mount's label off
the node's names, a read puts it back. -/
namespace Wwatp

open Cxx

namespace CompositeBackend

/-- Routing looks at the mounted labels only. -/
theorem getRelevantBackend_congr {V W : Type} {first : Std.ExtTreeMap Str V} {second : Std.ExtTreeMap Str W}
    (h : ∀ mount, mount ∈ first ↔ mount ∈ second) (labelRule : Str) :
    getRelevantBackend first labelRule = getRelevantBackend second labelRule := by
  have hKey {V W : Type} {first : Std.ExtTreeMap Str V} {second : Std.ExtTreeMap Str W}
      (h : ∀ mount, mount ∈ first ↔ mount ∈ second) {entry : Str × V}
      (hHead : (entriesUpTo first labelRule).head? = some entry) :
      ∃ backend, (entriesUpTo second labelRule).head? = some (entry.1, backend) := by
    obtain ⟨hStored, hLe, hLast⟩ := head?_entriesUpTo.mp hHead
    have hMem : entry.1 ∈ second := (h _).mp
      (Std.ExtTreeMap.mem_iff_isSome_getElem?.mpr (Option.isSome_of_eq_some hStored))
    exact ⟨second[entry.1], head?_entriesUpTo.mpr ⟨Std.ExtTreeMap.getElem?_eq_some_getElem hMem, hLe,
      fun other hOther => hLast other ((h other).mpr hOther)⟩⟩
  rw [getRelevantBackend_eq, getRelevantBackend_eq]
  cases hFirst : (entriesUpTo first labelRule).head? with
  | some entry =>
      obtain ⟨backend, hSecond⟩ := hKey h hFirst
      rw [hSecond]
  | none =>
      cases hSecond : (entriesUpTo second labelRule).head? with
      | none => rfl
      | some entry =>
          obtain ⟨backend, hNot⟩ := hKey (fun mount => (h mount).symm) hSecond
          rw [hFirst] at hNot
          cases hNot

variable {Callback : Type}

/-- The backend behind a route. A selected mount is always mounted. -/
def backendAt (c : CompositeBackend Callback) : Route → SimpleBackend Callback
  | .root => c.rootBackend
  | .mount label => c.mountedBackends.getD label c.rootBackend

/-- The composite after a change of the backend behind a route. -/
def setBackend (c : CompositeBackend Callback) (route : Route) (backend : SimpleBackend Callback) :
    CompositeBackend Callback :=
  match route with
  | .root => { c with rootBackend := backend }
  | .mount label => { c with mountedBackends := c.mountedBackends.insert label backend }

def getNode (c : CompositeBackend Callback) (labelRule : Str) : Outcome (Option TreeNode) :=
  let (offset, route) := getRelevantBackend c.mountedBackends labelRule
  match (c.backendAt route).getNode (labelRule.drop offset) with
  | none => .ok none
  | some node =>
      if offset = 0 then .ok (some node)
      else do return some (← node.prefixLabels (labelRule.take offset))

/-- The loop body of `upsertNode`. -/
def upsertOne (c : CompositeBackend Callback) (node : TreeNode) :
    Outcome (CompositeBackend Callback × List (Notice Callback)) := do
  let (offset, route) := getRelevantBackend c.mountedBackends node.getLabelRule
  let newNode := node.shortenLabels (node.getLabelRule.take offset)
  let (backend, notices) ← (c.backendAt route).upsertNode [newNode]
  return (c.setBackend route backend, notices)

def upsertNode (c : CompositeBackend Callback) :
    List TreeNode → Outcome (CompositeBackend Callback × List (Notice Callback))
  | [] => .ok (c, [])
  | node :: rest => do
      let (next, notices) ← c.upsertOne node
      let (after, more) ← next.upsertNode rest
      return (after, notices ++ more)

/-- Several calls of `upsertNode` in turn. -/
def upsertCalls (c : CompositeBackend Callback) : List (List TreeNode) → Outcome (CompositeBackend Callback)
  | [] => .ok c
  | nodes :: calls => do
      let (next, _) ← c.upsertNode nodes
      next.upsertCalls calls

section Backends

variable (c : CompositeBackend Callback)

/-- A route that `getRelevantBackend` can return: the root, or a mounted label. -/
def Mounted (c : CompositeBackend Callback) : Route → Prop
  | .root => True
  | .mount label => label ∈ c.mountedBackends

theorem mounted_route (labelRule : Str) :
    c.Mounted (getRelevantBackend c.mountedBackends labelRule).2 := by
  cases hRoute : (getRelevantBackend c.mountedBackends labelRule).2 with
  | root => trivial
  | mount label => exact (owns_of_route (Prod.ext rfl hRoute)).1

theorem mem_setBackend {route : Route} (h : c.Mounted route) (backend : SimpleBackend Callback)
    (mount : Str) : mount ∈ (c.setBackend route backend).mountedBackends ↔ mount ∈ c.mountedBackends := by
  cases route with
  | root => rfl
  | mount label =>
      change mount ∈ c.mountedBackends.insert label backend ↔ _
      rw [Std.ExtTreeMap.mem_insert, Std.LawfulEqCmp.compare_eq_iff_eq]
      refine ⟨?_, .inr⟩
      rintro (rfl | hMem)
      · exact h
      · exact hMem

/-- A change of one backend leaves the others alone. -/
theorem backendAt_setBackend (route other : Route) (backend : SimpleBackend Callback)
    (hOther : c.Mounted other) : (c.setBackend route backend).backendAt other =
      if route = other then backend else c.backendAt other := by
  cases route with
  | root =>
      cases other with
      | root => rfl
      | mount label =>
          obtain ⟨backend', hStored⟩ : ∃ b, c.mountedBackends[label]? = some b :=
            ⟨_, Std.ExtTreeMap.getElem?_eq_some_getElem hOther⟩
          rw [if_neg (by simp)]
          change c.mountedBackends.getD label backend = c.mountedBackends.getD label c.rootBackend
          rw [Std.ExtTreeMap.getD_eq_getD_getElem?, Std.ExtTreeMap.getD_eq_getD_getElem?, hStored]
          rfl
  | mount label =>
      cases other with
      | root => rfl
      | mount label' =>
          change (c.mountedBackends.insert label backend).getD label' c.rootBackend = _
          rw [Std.ExtTreeMap.getD_insert]
          simp only [Std.LawfulEqCmp.compare_eq_iff_eq, Route.mount.injEq]
          rfl

/-- What is read under a label, given what its backend holds under the rest of it. -/
def readNode (offset : Nat) (labelRule : Str) : Option TreeNode → Outcome (Option TreeNode)
  | none => .ok none
  | some node =>
      if offset = 0 then .ok (some node)
      else do return some (← node.prefixLabels (labelRule.take offset))

/-- What is read under a label, given the tree behind its route. -/
def readAt (offset : Nat) (labelRule : Str) (tree : MemoryTree) : Outcome (Option TreeNode) :=
  readNode offset labelRule (tree.getNode (labelRule.drop offset))

theorem getNode_eq {labelRule : Str} {offset : Nat} {route : Route}
    (h : getRelevantBackend c.mountedBackends labelRule = (offset, route)) :
    c.getNode labelRule = readAt offset labelRule (c.backendAt route).memoryTree := by
  rw [getNode, h, readAt]
  change (match (c.backendAt route).memoryTree.getNode (labelRule.drop offset) with
    | none => _
    | some node => _) = _
  cases (c.backendAt route).memoryTree.getNode (labelRule.drop offset) <;> rfl

/-- A route to the root has offset 0. -/
theorem offset_of_root {V : Type} {mountedBackends : Std.ExtTreeMap Str V} {labelRule : Str} {offset : Nat}
    (h : getRelevantBackend mountedBackends labelRule = (offset, .root)) : offset = 0 := by
  rw [getRelevantBackend_eq] at h
  split at h
  · exact (Prod.mk.inj h).1.symm
  · split_ifs at h
    · cases (Prod.mk.inj h).2
    · exact (Prod.mk.inj h).1.symm

variable {c}

/-- One write, with the tree it leaves behind its route. -/
theorem upsertOne_ok {node : TreeNode} {offset : Nat} {route : Route} {after : CompositeBackend Callback}
    {notices : List (Notice Callback)}
    (hRoute : getRelevantBackend c.mountedBackends node.labelRule = (offset, route))
    (h : c.upsertOne node = .ok (after, notices)) :
    ∃ backend, after = c.setBackend route backend ∧ backend.memoryTree =
      (c.backendAt route).memoryTree.upsertNode [node.shortenLabels (node.labelRule.take offset)] := by
  rw [upsertOne, hRoute] at h
  obtain ⟨⟨backend, told⟩, hBackend, hAfter⟩ := Outcome.bind_eq_ok.mp h
  obtain ⟨rfl, -⟩ := Prod.mk.inj (Except.ok.inj hAfter)
  obtain ⟨more, -, hPair⟩ := Outcome.bind_eq_ok.mp hBackend
  obtain ⟨rfl, -⟩ := Prod.mk.inj (Except.ok.inj hPair)
  exact ⟨_, rfl, rfl⟩

/-- A read after one write reads the tree behind its own route, changed if it is the
written one. -/
theorem getNode_upsertOne {node : TreeNode} {offset : Nat} {route : Route}
    {after : CompositeBackend Callback} {notices : List (Notice Callback)}
    (hRoute : getRelevantBackend c.mountedBackends node.labelRule = (offset, route))
    (h : c.upsertOne node = .ok (after, notices)) {labelRule : Str} {offset' : Nat} {route' : Route}
    (hRoute' : getRelevantBackend c.mountedBackends labelRule = (offset', route')) :
    after.getNode labelRule = readAt offset' labelRule
      (if route = route' then
        (c.backendAt route).memoryTree.upsertNode [node.shortenLabels (node.labelRule.take offset)]
      else (c.backendAt route').memoryTree) := by
  obtain ⟨backend, rfl, hTree⟩ := upsertOne_ok hRoute h
  have hMounted : c.Mounted route := by
    have hThere := c.mounted_route node.labelRule
    rwa [hRoute] at hThere
  have hMounted' : c.Mounted route' := by
    have hThere := c.mounted_route labelRule
    rwa [hRoute'] at hThere
  have hSame := getRelevantBackend_congr (c.mem_setBackend hMounted backend) labelRule
  rw [getNode_eq _ (hSame.trans hRoute'), backendAt_setBackend c route route' backend hMounted']
  split_ifs with hEq
  · rw [hTree]
  · rfl

end Backends

/-- A node that a write through the composite stores as it is: its property data
survives a copying assignment, and if it goes to a mounted backend, it lies strictly
below the mount's label and every name in it carries the mount's label exactly once. -/
structure Transparent {V : Type} (mountedBackends : Std.ExtTreeMap Str V) (node : TreeNode) : Prop where
  copied : TreeNode.SameNode node.assign node
  below : ∀ mount, (getRelevantBackend mountedBackends node.labelRule).2 = .mount mount →
    node.labelRule ≠ mount ∧ node.labelRule ≠ mount ++ [slash]
  names : ∀ mount, (getRelevantBackend mountedBackends node.labelRule).2 = .mount mount →
    ∀ name ∈ node.labelRule :: node.childNames, CarriesOnce (mount ++ [slash]) name

section ReadBack

variable {c after : CompositeBackend Callback} {node : TreeNode} {notices : List (Notice Callback)}

/-- Where a transparent node below a mount is stored. -/
theorem Transparent.stored (hNode : Transparent c.mountedBackends node) {mount : Str}
    (hRoute : (getRelevantBackend c.mountedBackends node.labelRule).2 = .mount mount) :
    ∃ rest, rest ≠ [] ∧ node.labelRule = mount ++ [slash] ++ rest ∧
      getRelevantBackend c.mountedBackends node.labelRule =
        ((mount ++ [slash]).length, .mount mount) ∧
      (node.shortenLabels (mount ++ [slash])).labelRule = rest := by
  obtain ⟨rest, hLabel, hOnce⟩ := hNode.names mount hRoute _ List.mem_cons_self
  refine ⟨rest, ?_, hLabel, ?_, ?_⟩
  · rintro rfl
    exact (hNode.below mount hRoute).2 (hLabel.trans (List.append_nil _))
  · have hOffset := (owns_of_route (Prod.ext rfl hRoute)).2.2
    have hNe : mount ≠ node.labelRule := Ne.symm (hNode.below mount hRoute).1
    rw [mountOffset, if_neg hNe] at hOffset
    exact Prod.ext (hOffset.trans (by simp)) hRoute
  · rw [TreeNode.shortenLabels_of_ne (by simp)]
    exact hLabel ▸ shortenName_append _ _

/-- A transparent node is read back as it was written. -/
theorem getNode_upsertOne_self (hNode : Transparent c.mountedBackends node)
    (h : c.upsertOne node = .ok (after, notices)) : after.getNode node.labelRule = .ok (some node.assign) := by
  cases hRoute : (getRelevantBackend c.mountedBackends node.labelRule).2 with
  | root =>
      have hZero := offset_of_root (Prod.ext rfl hRoute)
      have hPair : getRelevantBackend c.mountedBackends node.labelRule = (0, .root) := Prod.ext hZero hRoute
      rw [getNode_upsertOne hPair h hPair, if_pos rfl, readAt, List.take_zero, List.drop_zero,
        TreeNode.shortenLabels_nil]
      simp [MemoryTree.upsertNode, readNode]
  | mount mount =>
      obtain ⟨rest, -, hLabel, hPair, hShort⟩ := hNode.stored hRoute
      have hDrop : node.labelRule.drop (mount ++ [slash]).length = rest := by
        rw [hLabel, List.drop_left]
      have hTake : node.labelRule.take (mount ++ [slash]).length = mount ++ [slash] := by
        rw [hLabel, List.take_left]
      have hStored : (((c.backendAt (.mount mount)).memoryTree.upsertNode
          [node.shortenLabels (mount ++ [slash])]).getNode rest) =
            some (node.shortenLabels (mount ++ [slash])).assign := by
        simp [MemoryTree.upsertNode, hShort]
      have hBack := TreeNode.prefixLabels_shortenLabels (hNode.names mount hRoute _ List.mem_cons_self)
        fun child hChild => hNode.names mount hRoute child (List.mem_cons_of_mem _ hChild)
      rw [getNode_upsertOne hPair h hPair, if_pos rfl, hTake, readAt, hDrop, hStored, readNode, hTake,
        if_neg (by simp), hBack]
      rfl

theorem readAt_upsert_ne {offset : Nat} {labelRule : Str} {tree : MemoryTree} {node : TreeNode}
    (h : node.labelRule ≠ labelRule.drop offset) :
    readAt offset labelRule (tree.upsertNode [node]) = readAt offset labelRule tree := by
  have hSame : (tree.upsertNode [node]).getNode (labelRule.drop offset) =
      tree.getNode (labelRule.drop offset) := by
    simp [MemoryTree.upsertNode, h]
  rw [readAt, readAt, hSame]

/-- No other label is read differently. -/
theorem getNode_upsertOne_ne (hNode : Transparent c.mountedBackends node)
    (h : c.upsertOne node = .ok (after, notices)) {labelRule : Str} (hNe : labelRule ≠ node.labelRule) :
    after.getNode labelRule = c.getNode labelRule := by
  obtain ⟨offset, route, hRoute⟩ : ∃ offset route,
    getRelevantBackend c.mountedBackends labelRule = (offset, route) := ⟨_, _, rfl⟩
  cases hWritten : (getRelevantBackend c.mountedBackends node.labelRule).2 with
  | root =>
      have hPair : getRelevantBackend c.mountedBackends node.labelRule = (0, .root) :=
        Prod.ext (offset_of_root (Prod.ext rfl hWritten)) hWritten
      rw [getNode_upsertOne hPair h hRoute, getNode_eq c hRoute]
      split_ifs with hSame
      · subst hSame
        rw [List.take_zero, TreeNode.shortenLabels_nil]
        obtain rfl := offset_of_root hRoute
        exact readAt_upsert_ne hNe.symm
      · rfl
  | mount mount =>
      obtain ⟨rest, hRest, hLabel, hPair, hShort⟩ := hNode.stored hWritten
      rw [getNode_upsertOne hPair h hRoute, getNode_eq c hRoute]
      split_ifs with hSame
      · subst hSame
        obtain ⟨-, hOwns, rfl⟩ := owns_of_route hRoute
        rw [hLabel, List.take_left]
        apply readAt_upsert_ne
        rw [hShort]
        -- the mount's own label is stored under the empty key, all others behind its slash
        rcases hOwns with rfl | ⟨rest', rfl⟩
        · rw [mountOffset, if_pos rfl, List.drop_length]
          exact hRest
        · have hLonger : mount ≠ mount ++ [slash] ++ rest' := by simp
          have hDrop : (mount ++ [slash] ++ rest').drop (mount.length + 1) = rest' := by
            rw [List.drop_append_of_le_length (by simp), List.drop_eq_nil_of_le (by simp), List.nil_append]
          rw [mountOffset, if_neg hLonger, hDrop]
          rintro rfl
          exact hNe hLabel.symm
      · rfl

end ReadBack

/-- The last node of a label in a sequence of writes. -/
def lastWritten (nodes : List TreeNode) (labelRule : Str) : Option TreeNode :=
  nodes.reverse.find? fun node => node.labelRule = labelRule

theorem lastWritten_cons (node : TreeNode) (rest : List TreeNode) (labelRule : Str) :
    lastWritten (node :: rest) labelRule =
      (lastWritten rest labelRule).or (if node.labelRule = labelRule then some node else none) := by
  rw [lastWritten, List.reverse_cons, List.find?_append, lastWritten]
  by_cases h : node.labelRule = labelRule <;> simp [h]

/-- The state `c'` reads under every label the last node written to it, and what `c` reads
where nothing was written. -/
def ReadsLast (c c' : CompositeBackend Callback) (nodes : List TreeNode) : Prop :=
  ∀ labelRule, match lastWritten nodes labelRule with
    | some node => ∃ read, c'.getNode labelRule = .ok (some read) ∧ TreeNode.SameNode read node
    | none => c'.getNode labelRule = c.getNode labelRule

section Run

variable {c after : CompositeBackend Callback}

theorem mem_upsertOne {node : TreeNode} {notices : List (Notice Callback)}
    (h : c.upsertOne node = .ok (after, notices)) (mount : Str) :
    mount ∈ after.mountedBackends ↔ mount ∈ c.mountedBackends := by
  obtain ⟨backend, rfl, -⟩ := upsertOne_ok (Prod.ext rfl rfl) h
  exact mem_setBackend c (c.mounted_route _) backend mount

theorem Transparent.congr {V W : Type} {first : Std.ExtTreeMap Str V} {second : Std.ExtTreeMap Str W}
    (h : ∀ mount, mount ∈ first ↔ mount ∈ second) {node : TreeNode} (hNode : Transparent first node) :
    Transparent second node := by
  have hRoute := getRelevantBackend_congr h node.labelRule
  exact ⟨hNode.copied, hRoute ▸ hNode.below, hRoute ▸ hNode.names⟩

/-- One write and the writes after it. -/
theorem ReadsLast.cons {node : TreeNode} {rest : List TreeNode} {next : CompositeBackend Callback}
    {notices : List (Notice Callback)} (hNode : Transparent c.mountedBackends node)
    (hFirst : c.upsertOne node = .ok (next, notices)) (hRest : ReadsLast next after rest) :
    ReadsLast c after (node :: rest) := by
  intro labelRule
  have hLater := hRest labelRule
  rw [lastWritten_cons]
  cases hLast : lastWritten rest labelRule with
  | some last =>
      rw [hLast] at hLater
      exact hLater
  | none =>
      rw [hLast] at hLater
      dsimp only at hLater
      by_cases hLabel : node.labelRule = labelRule
      · subst hLabel
        rw [if_pos rfl]
        exact ⟨node.assign, hLater.trans (getNode_upsertOne_self hNode hFirst), hNode.copied⟩
      · rw [if_neg hLabel]
        exact hLater.trans (getNode_upsertOne_ne hNode hFirst (Ne.symm hLabel))

theorem upsertNode_readsLast {nodes rest : List TreeNode} {next : CompositeBackend Callback}
    {notices : List (Notice Callback)} (hNodes : ∀ node ∈ nodes, Transparent c.mountedBackends node)
    (hFirst : c.upsertNode nodes = .ok (next, notices)) (hRest : ReadsLast next after rest) :
    ReadsLast c after (nodes ++ rest) ∧
      ∀ mount, mount ∈ next.mountedBackends ↔ mount ∈ c.mountedBackends := by
  induction nodes generalizing c notices with
  | nil =>
      obtain ⟨rfl, -⟩ := Prod.mk.inj (Except.ok.inj hFirst)
      exact ⟨hRest, fun mount => Iff.rfl⟩
  | cons node nodes ih =>
      obtain ⟨⟨middle, told⟩, hOne, hMore⟩ := Outcome.bind_eq_ok.mp hFirst
      obtain ⟨⟨last, more⟩, hAll, hPair⟩ := Outcome.bind_eq_ok.mp hMore
      obtain ⟨rfl, -⟩ := Prod.mk.inj (Except.ok.inj hPair)
      obtain ⟨hNode, hOthers⟩ := List.forall_mem_cons.mp hNodes
      have hMounts := mem_upsertOne hOne
      obtain ⟨hReads, hSame⟩ := ih (fun other hOther =>
        (hOthers other hOther).congr fun mount => (hMounts mount).symm) hAll
      exact ⟨ReadsLast.cons hNode hOne hReads, fun mount => (hSame mount).trans (hMounts mount)⟩

end Run

/-- After any sequence of `upsertNode` calls with transparent nodes, every label reads the
last node written to it, and every other label reads as before. -/
theorem upsertCalls_readsLast {c after : CompositeBackend Callback} {calls : List (List TreeNode)}
    (hNodes : ∀ node ∈ calls.flatten, Transparent c.mountedBackends node)
    (h : c.upsertCalls calls = .ok after) : ReadsLast c after calls.flatten := by
  induction calls generalizing c with
  | nil =>
      obtain rfl := Except.ok.inj h
      exact fun labelRule => rfl
  | cons nodes calls ih =>
      obtain ⟨⟨next, notices⟩, hFirst, hRest⟩ := Outcome.bind_eq_ok.mp h
      rw [List.flatten_cons] at hNodes ⊢
      have hNothing : ReadsLast next next [] := fun _ => rfl
      have hMounts := (upsertNode_readsLast
        (fun node hNode => hNodes node (List.mem_append_left _ hNode)) hFirst hNothing).2
      exact (upsertNode_readsLast (fun node hNode => hNodes node (List.mem_append_left _ hNode)) hFirst
        (ih (fun node hNode => (hNodes node (List.mem_append_right _ hNode)).congr
          fun mount => (hMounts mount).symm) hRest)).1

/-- A composite backend with an empty backend mounted under `zoo`. -/
def zoo : CompositeBackend Unit := ⟨emptyBackend, (∅ : Std.ExtTreeMap Str _).insert (str "zoo") emptyBackend⟩

/-- Two writes below the mount: a node, and a new version of it with a child. -/
theorem upsertCalls_readsLast_zoo :
    ∃ (calls : List (List TreeNode)) (after : CompositeBackend Unit),
      calls = [[{ labelRule := str "zoo/lion" }],
        [{ labelRule := str "zoo/lion", childNames := [str "zoo/Simba"] }]] ∧
      zoo.upsertCalls calls = .ok after ∧ ReadsLast zoo after calls.flatten := by
  refine ⟨_, _, rfl, rfl, upsertCalls_readsLast (fun node hNode => ?_) rfl⟩
  have hLion : (getRelevantBackend zoo.mountedBackends (str "zoo/lion")).2 = .mount (str "zoo") := by decide
  simp only [List.flatten_cons, List.flatten_nil, List.cons_append, List.nil_append, List.mem_cons,
    List.not_mem_nil, or_false] at hNode
  rcases hNode with rfl | rfl
  all_goals
    refine ⟨TreeNode.SameNode.refl _, fun mount hMount => ?_, fun mount hMount => ?_⟩ <;>
      obtain rfl := Route.mount.inj (hLion.symm.trans hMount) <;> decide

/-- A node written at the mount point itself cannot be read back. -/
theorem not_readsLast_mountPoint :
    ∃ (node : TreeNode) (c after : CompositeBackend Unit),
      (ofRoot emptyBackend).mountBackend (str "zoo") emptyBackend = .ok c ∧
      node = { labelRule := str "zoo" } ∧
      c.upsertCalls [[node]] = .ok after ∧
      after.getNode (str "zoo") = .error (.runtimeError (str "Prefix must end with a '/'")) ∧
      ¬ ReadsLast c after [node] := by
  refine ⟨_, _, _, rfl, rfl, rfl, rfl, fun h => ?_⟩
  obtain ⟨read, hRead, -⟩ := h (str "zoo")
  cases hRead

end CompositeBackend
end Wwatp
