import Wwatp.Memory.Atomicity
import Wwatp.Memory.TreeChanges
import Wwatp.Structure.Composite

/-! Transactions through a `CompositeBackend`. The whole transaction goes to the backend of
its first parent, once every other parent has been found under the same prefix. -/
namespace Wwatp

open Cxx Cxx.Effectful

namespace CompositeBackend

section Apply

variable {Callback : Type}

/-- The loop of `applyTransaction`: the transaction as the mounted backend gets it. -/
def mountTransaction {V : Type} (mountedBackends : Std.ExtTreeMap Str V) (labelPrefix : Str) :
    Transaction → Outcome Transaction
  | [] => .ok []
  | sub :: rest => do
      let offset := (getRelevantBackend mountedBackends sub.parent.labelRule).1
      let subPrefix := sub.parent.labelRule.take offset
      if subPrefix ≠ labelPrefix then
        throw (.runtimeError (str "Transaction contains SubTransactions for different backends"))
      let more ← mountTransaction mountedBackends labelPrefix rest
      return shortenSubTransactionLabels subPrefix sub :: more

/-- A call on the backend behind a route. -/
def onBackend {α : Type} (route : Route) (x : ListenerTable Callback → Effectful Effects α) :
    Effectful (CompositeBackend Callback) α := fun c =>
  let backend := c.backendAt route
  let called := x backend.nodeListeners ⟨backend.memoryTree, []⟩
  (called.1, c.setBackend route { backend with memoryTree := called.2.memoryTree })

/-- `applyTransaction`. The first element of an empty transaction is read all the same. -/
def applyTransaction (run : Effects.Callbacks Callback) :
    Transaction → Effectful (CompositeBackend Callback) Bool
  | [] => raise (.undefined .index)
  | first :: rest => do
      let indexBackend ← inspect fun c =>
        .ok (getRelevantBackend c.mountedBackends first.parent.labelRule)
      let labelPrefix := first.parent.labelRule.take indexBackend.1
      let mounted ← inspect fun c => mountTransaction c.mountedBackends labelPrefix (first :: rest)
      onBackend indexBackend.2 fun listeners => Effects.applyTransaction listeners run mounted

/-- A read finds this node, or finds none where there is none. -/
def Shows (read : Outcome (Option TreeNode)) : Option TreeNode → Prop
  | some node => ∃ found, read = .ok (some found) ∧ TreeNode.SameNode found node
  | none => read = .ok none

/-- The call throws and no backend has changed, or it returns and every change that the
transaction names can be read at its label. -/
def AppliesWhole (c : CompositeBackend Callback) (run : Effects.Callbacks Callback)
    (transaction : Transaction) : Prop :=
  (∃ fault, applyTransaction run transaction c = (.error fault, c) ∧ ∀ kind, fault ≠ .undefined kind) ∨
    ∃ applied after, applyTransaction run transaction c = (.ok applied, after) ∧
      ∀ change ∈ Effects.changes transaction, Shows (after.getNode change.labelRule) change.node

/-- The owner of the change's label will show the change: after the writes if it is the
backend that makes them, as it stands otherwise. -/
def ReadsChange (c : CompositeBackend Callback) (route : Route) (writes : List (Str × Option TreeNode))
    (change : NewNodeVersion) : Prop :=
  let (offset, owner) := getRelevantBackend c.mountedBackends change.labelRule
  let key := change.labelRule.drop offset
  let held := (c.backendAt owner).getNode key
  Shows (readNode offset change.labelRule
    (if route = owner then MemoryTree.lookupAfter writes key held else held)) change.node

/-- The transaction is refused before a write, or every change lands where it is read. -/
def LandsWhole (c : CompositeBackend Callback) : Transaction → Prop
  | [] => False
  | first :: rest =>
      let (offset, route) := getRelevantBackend c.mountedBackends first.parent.labelRule
      match mountTransaction c.mountedBackends (first.parent.labelRule.take offset) (first :: rest) with
      | .error _ => True
      | .ok mounted =>
          match (c.backendAt route).memoryTree.checkSubTransactions mounted with
          | .error fault => ∀ kind, fault ≠ .undefined kind
          | .ok () => Effects.Notifiable (c.backendAt route).nodeListeners (Effects.changes mounted) ∧
              ∀ change ∈ Effects.changes (first :: rest),
                ReadsChange c route (MemoryTree.writes mounted) change

/-- The composite after the writes of a transaction in the backend behind a route. -/
def performAt (c : CompositeBackend Callback) (route : Route) (mounted : Transaction) :
    CompositeBackend Callback :=
  let backend := c.backendAt route
  c.setBackend route
    { backend with memoryTree := mounted.foldl MemoryTree.performSubTransaction backend.memoryTree }

section Outcome

variable {c : CompositeBackend Callback} {run : Effects.Callbacks Callback} {transaction : Transaction}

theorem appliesWhole_of_error {fault : Fault} (h : applyTransaction run transaction c = (.error fault, c)) :
    AppliesWhole c run transaction ↔ ∀ kind, fault ≠ .undefined kind := by
  constructor
  · rintro (⟨fault', hFault, hThrown⟩ | ⟨applied, after, hReturned, -⟩)
    · obtain rfl := Except.error.inj (Prod.mk.inj (h.symm.trans hFault)).1
      exact hThrown
    · cases (Prod.mk.inj (h.symm.trans hReturned)).1
  · exact fun hThrown => .inl ⟨fault, h, hThrown⟩

theorem appliesWhole_of_ok {applied : Bool} {after : CompositeBackend Callback}
    (h : applyTransaction run transaction c = (.ok applied, after)) : AppliesWhole c run transaction ↔
      ∀ change ∈ Effects.changes transaction, Shows (after.getNode change.labelRule) change.node := by
  constructor
  · rintro (⟨fault, hFault, -⟩ | ⟨applied', after', hAfter, hAll⟩)
    · cases (Prod.mk.inj (h.symm.trans hFault)).1
    · obtain rfl := (Prod.mk.inj (h.symm.trans hAfter)).2
      exact hAll
  · exact fun hAll => .inr ⟨applied, after, h, hAll⟩

theorem not_appliesWhole_of_undefined {kind : Undefined}
    (h : (applyTransaction run transaction c).1 = .error (.undefined kind)) :
    ¬ AppliesWhole c run transaction := by
  rintro (⟨fault, hFault, hThrown⟩ | ⟨applied, after, hAfter, -⟩)
  · rw [hFault] at h
    exact hThrown kind (Except.error.inj h)
  · rw [hAfter] at h
    cases h

end Outcome

/-- The loop over the parents fails only by throwing. -/
theorem mountTransaction_error {V : Type} {mountedBackends : Std.ExtTreeMap Str V} {labelPrefix : Str}
    {transaction : Transaction} {fault : Fault}
    (h : mountTransaction mountedBackends labelPrefix transaction = .error fault) :
    fault = .runtimeError (str "Transaction contains SubTransactions for different backends") := by
  induction transaction with
  | nil => cases h
  | cons sub rest ih =>
      rw [mountTransaction] at h
      dsimp only at h
      split_ifs at h
      · exact (Except.error.inj h).symm
      · rcases Outcome.bind_eq_error.mp h with hRest | ⟨more, -, hPair⟩
        · exact ih hRest
        · cases hPair

theorem setBackend_self (c : CompositeBackend Callback) {route : Route} (h : c.Mounted route) :
    c.setBackend route (c.backendAt route) = c := by
  cases route with
  | root => rfl
  | mount label =>
      have hStored : c.mountedBackends[label]? = some (c.backendAt (.mount label)) := by
        rw [backendAt, Std.ExtTreeMap.getD_eq_getD_getElem?, Std.ExtTreeMap.getElem?_eq_some_getElem h]
        rfl
      obtain ⟨root, mounted⟩ := c
      rw [setBackend, CompositeBackend.mk.injEq]
      refine ⟨rfl, Std.ExtTreeMap.ext_getElem? fun other => ?_⟩
      rw [Std.ExtTreeMap.getElem?_insert]
      split_ifs with hEq
      · obtain rfl := Std.LawfulEqCmp.eq_of_compare hEq
        exact hStored.symm
      · rfl

section Route

variable {c : CompositeBackend Callback} {run : Effects.Callbacks Callback} {first : SubTransaction}
  {rest : Transaction} {offset : Nat} {route : Route}
  (hRoute : getRelevantBackend c.mountedBackends first.parent.labelRule = (offset, route))

include hRoute

theorem applyTransaction_of_mixed {fault : Fault}
    (h : mountTransaction c.mountedBackends (first.parent.labelRule.take offset) (first :: rest) =
      .error fault) : applyTransaction run (first :: rest) c = (.error fault, c) := by
  rw [applyTransaction, bind_ok (show inspect _ c = (.ok (offset, route), c) from
    congrArg (fun r => (Except.ok r, c)) hRoute)]
  exact bind_error (congrArg (fun r => (r, c)) h)

theorem applyTransaction_of_mounted {mounted : Transaction}
    (h : mountTransaction c.mountedBackends (first.parent.labelRule.take offset) (first :: rest) =
      .ok mounted) : applyTransaction run (first :: rest) c =
      onBackend route (fun listeners => Effects.applyTransaction listeners run mounted) c := by
  rw [applyTransaction, bind_ok (show inspect _ c = (.ok (offset, route), c) from
    congrArg (fun r => (Except.ok r, c)) hRoute)]
  exact bind_ok (congrArg (fun r => (r, c)) h)

/-- A call on a backend that leaves it as it is leaves the composite as it is. -/
theorem onBackend_of_unchanged {α : Type} {x : ListenerTable Callback → Effectful Effects α}
    {result : Outcome α}
    (h : x (c.backendAt route).nodeListeners ⟨(c.backendAt route).memoryTree, []⟩ =
      (result, ⟨(c.backendAt route).memoryTree, []⟩)) : onBackend route x c = (result, c) := by
  have hMounted := c.mounted_route first.parent.labelRule
  rw [hRoute] at hMounted
  rw [onBackend, h]
  exact Prod.ext rfl (c.setBackend_self hMounted)

/-- What is read after the backend behind the route has made its writes. -/
theorem getNode_performAt (change : NewNodeVersion) (mounted : Transaction) :
    Shows ((c.performAt route mounted).getNode change.labelRule) change.node ↔
      ReadsChange c route (MemoryTree.writes mounted) change := by
  have hMounted := c.mounted_route first.parent.labelRule
  rw [hRoute] at hMounted
  obtain ⟨offset', owner, hOwner⟩ : ∃ offset' owner,
    getRelevantBackend c.mountedBackends change.labelRule = (offset', owner) := ⟨_, _, rfl⟩
  have hMounted' := c.mounted_route change.labelRule
  rw [hOwner] at hMounted'
  have hSame := getRelevantBackend_congr (c.mem_setBackend hMounted { c.backendAt route with
    memoryTree := mounted.foldl MemoryTree.performSubTransaction (c.backendAt route).memoryTree })
    change.labelRule
  rw [performAt, getNode_eq _ (hSame.trans hOwner), backendAt_setBackend c route owner _ hMounted',
    ReadsChange, hOwner, readAt]
  dsimp only
  by_cases hEq : route = owner
  · subst hEq
    rw [if_pos rfl, if_pos rfl, MemoryTree.getNode_performAll_eq]
    rfl
  · rw [if_neg hEq, if_neg hEq]
    rfl

end Route

/-- Where the listeners' callbacks return and leave the backends alone: a transaction is
refused as a whole or can be read as a whole exactly when it is refused before a write
or every change lands where it is read. -/
theorem appliesWhole_iff (c : CompositeBackend Callback) {run : Effects.Callbacks Callback}
    (hPassive : run.Passive) (transaction : Transaction) :
    AppliesWhole c run transaction ↔ LandsWhole c transaction := by
  cases transaction with
  | nil => exact iff_of_false (not_appliesWhole_of_undefined rfl) not_false
  | cons first rest =>
      obtain ⟨offset, route, hRoute⟩ : ∃ offset route,
        getRelevantBackend c.mountedBackends first.parent.labelRule = (offset, route) := ⟨_, _, rfl⟩
      rw [LandsWhole, hRoute]
      dsimp only
      cases hMounted : mountTransaction c.mountedBackends (first.parent.labelRule.take offset) (first :: rest) with
      | error fault =>
          obtain rfl := mountTransaction_error hMounted
          rw [appliesWhole_of_error (applyTransaction_of_mixed hRoute hMounted)]
          exact iff_of_true (fun kind h => by cases h) trivial
      | ok mounted =>
          have hCall : applyTransaction run (first :: rest) c = _ :=
            applyTransaction_of_mounted hRoute hMounted
          dsimp only
          cases hCheck : (c.backendAt route).memoryTree.checkSubTransactions mounted with
          | error fault =>
              have hTree : (c.backendAt route).memoryTree.applyTransaction mounted = .error fault := by
                rw [MemoryTree.applyTransaction, hCheck]
                rfl
              exact appliesWhole_of_error (hCall.trans (onBackend_of_unchanged hRoute
                (Effects.applyTransaction_of_error (c.backendAt route).nodeListeners run
                  (s := ⟨(c.backendAt route).memoryTree, []⟩) hTree)))
          | ok =>
              have hTree : (c.backendAt route).memoryTree.applyTransaction mounted =
                  .ok (mounted.foldl MemoryTree.performSubTransaction (c.backendAt route).memoryTree) := by
                rw [MemoryTree.applyTransaction, hCheck]
                rfl
              have hPerformed := Effects.applyTransaction_of_ok (c.backendAt route).nodeListeners run
                (s := ⟨(c.backendAt route).memoryTree, []⟩) hTree
              by_cases hNotifiable :
                Effects.Notifiable (c.backendAt route).nodeListeners (Effects.changes mounted)
              · rw [bind_ok (Effects.notifyAll_of_notifiable _ hPassive hNotifiable _)] at hPerformed
                have hReturns : applyTransaction run (first :: rest) c =
                    (.ok true, c.performAt route mounted) := by
                  rw [hCall, onBackend, hPerformed]
                  rfl
                rw [appliesWhole_of_ok hReturns]
                simp only [getNode_performAt hRoute, hNotifiable, true_and]
              · -- the writes are made, and a notification runs past the end of a label
                rw [bind_error (Prod.ext (Effects.notifyAll_of_not_notifiable _ hPassive hNotifiable _) rfl)]
                  at hPerformed
                have hLost : (applyTransaction run (first :: rest) c).1 = .error (.undefined .index) := by
                  rw [hCall, onBackend, hPerformed]
                exact iff_of_false (not_appliesWhole_of_undefined hLost) fun hLands => hNotifiable hLands.1

/-- A new node below a mount, with a child below the mount. -/
theorem appliesWhole_iff_zoo :
    ∃ transaction : Transaction,
      transaction = [⟨⟨none, str "zoo/lion", some { labelRule := str "zoo/lion" }⟩,
        [⟨none, str "zoo/lion/Simba", some { labelRule := str "zoo/lion/Simba" }⟩]⟩] ∧
      (AppliesWhole zoo (fun _ _ _ => pure ()) transaction ↔ LandsWhole zoo transaction) :=
  ⟨_, rfl, appliesWhole_iff _ (fun _ _ _ _ => rfl) _⟩

/-- A child of the root in a transaction below the mount is written where no read of its
label looks. -/
theorem not_appliesWhole_foreign_child :
    ∃ (c : CompositeBackend Unit) (transaction : Transaction),
      (ofRoot emptyBackend).mountBackend (str "zoo") emptyBackend = .ok c ∧
      transaction = [⟨⟨none, str "zoo/lion", some { labelRule := str "zoo/lion" }⟩,
        [⟨none, str "news", some { labelRule := str "news" }⟩]⟩] ∧
      ¬ AppliesWhole c (fun _ _ _ => pure ()) transaction := by
  refine ⟨_, _, rfl, rfl, ?_⟩
  rw [appliesWhole_of_ok rfl]
  intro h
  obtain ⟨found, hFound, -⟩ := h ⟨none, str "news", some { labelRule := str "news" }⟩ (by decide)
  cases hFound

end Apply

end CompositeBackend
end Wwatp
