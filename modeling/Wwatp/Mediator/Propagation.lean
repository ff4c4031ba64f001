import Wwatp.Cxx.Flooding
import Wwatp.Mediator.EqualTrees

/-! Nets of unversioned mediators. A write floods the net along the registered callbacks: a
backend that gets the node passes it on, and one that has it already does not. Two mediators
on the same side of one backend share one registration, so that a flood need not reach every
backend that mediators connect. -/
namespace Wwatp
namespace MediatorNet

open Cxx Cxx.Effectful

variable {ι κ : Type} [DecidableEq ι] [DecidableEq κ]

section Definitions

variable (mediator : κ → CloningMediator ι) (s : MediatorNet ι κ)

/-- The backend has a node that compares equal. -/
def Holds (node : TreeNode) (j : ι) : Prop :=
  equalNodes (some node) ((s.backend j).getNode node.labelRule) = true

instance (node : TreeNode) (j : ι) : Decidable (Holds s node j) := inferInstanceAs (Decidable (_ = true))

/-- A callback that is registered with the first backend writes to the second. -/
def PassesTo (x y : ι) : Prop := ∃ endpoint ∈ s.endpoints x, target mediator endpoint = y

instance (x y : ι) : Decidable (PassesTo mediator s x y) :=
  inferInstanceAs (Decidable (∃ endpoint ∈ s.endpoints x, target mediator endpoint = y))

/-- A mediator was created between the two backends and is not destroyed. -/
def Links (x y : ι) : Prop :=
  ∃ k side, s.alive k = true ∧ (mediator k).backend side = x ∧ (mediator k).backend side.other = y

def Connected (x y : ι) : Prop := Relation.ReflTransGen (Links mediator s) x y

/-- The write of one node to a backend returns, and leaves the node in all that are connected to it. -/
def Propagates (i : ι) (node : TreeNode) : Prop :=
  ∃ fuel t, operate mediator fuel i (.change (.upsertNode [node])) s = (.ok (), t) ∧
    ∀ j, Connected mediator s i j → Holds t node j

/-- Nothing is registered, and no mediator is there. -/
structure Unconnected : Prop where
  under_eq_nil : ∀ i rule, (s.backend i).nodeListeners.under rule = []
  dead : ∀ k, s.alive k = false
  idle : ∀ endpoint, s.processing endpoint = false

/-- The registrations are those of mediators with their own backends. -/
structure Wired : Prop where
  rootOnly : ∀ i, (s.backend i).nodeListeners.RootOnly
  backend_eq : ∀ i, ∀ endpoint ∈ s.endpoints i, (mediator endpoint.1).backend endpoint.2 = i

/-- A mediator is busy only with a change of a backend that has the node. -/
def BusyWhereHeld (node : TreeNode) : Prop :=
  ∀ endpoint, s.processing endpoint = true → Holds s node ((mediator endpoint.1).backend endpoint.2)

end Definitions

variable {mediator : κ → CloningMediator ι} {s t u : MediatorNet ι κ} {node : TreeNode}

section Wired

omit [DecidableEq ι] [DecidableEq κ]

theorem SameListeners.refl (s : MediatorNet ι κ) : SameListeners s s := ⟨fun _ => rfl, rfl⟩

theorem SameListeners.trans (hFirst : SameListeners s t) (hSecond : SameListeners t u) : SameListeners s u :=
  ⟨fun i => (hSecond.1 i).trans (hFirst.1 i), hSecond.2.trans hFirst.2⟩

theorem SameListeners.endpoints_eq (h : SameListeners s t) (i : ι) : t.endpoints i = s.endpoints i := by
  rw [endpoints, endpoints, h.1]

theorem SameListeners.passesTo (h : SameListeners s t) : PassesTo mediator t = PassesTo mediator s := by
  funext x y
  simp only [PassesTo, h.endpoints_eq]

theorem Wired.of_sameListeners (hWired : Wired mediator s) (h : SameListeners s t) : Wired mediator t where
  rootOnly i := h.1 i ▸ hWired.rootOnly i
  backend_eq i := h.endpoints_eq i ▸ hWired.backend_eq i

end Wired

/-- What a write of the node and its notifications do to a net. -/
structure Spreads (mediator : κ → CloningMediator ι) (node : TreeNode) (s t : MediatorNet ι κ) : Prop where
  listeners : SameListeners s t
  processing : ∀ endpoint, t.processing endpoint = true → s.processing endpoint = true
  passedOn : PassedOn (PassesTo mediator s) (Holds s node) (Holds t node)

namespace Spreads

omit [DecidableEq ι] [DecidableEq κ]

theorem refl (s : MediatorNet ι κ) : Spreads mediator node s s where
  listeners := .refl s
  processing _ h := h
  passedOn := .refl _ _

theorem trans (hFirst : Spreads mediator node s t) (hSecond : Spreads mediator node t u) :
    Spreads mediator node s u where
  listeners := hFirst.listeners.trans hSecond.listeners
  processing endpoint h := hFirst.processing endpoint (hSecond.processing endpoint h)
  passedOn := hFirst.passedOn.trans (hFirst.listeners.passesTo ▸ hSecond.passedOn)

theorem busyWhereHeld (h : Spreads mediator node s t) (hBusy : BusyWhereHeld mediator s node) :
    BusyWhereHeld mediator t node :=
  fun endpoint hSet => h.passedOn.kept _ (hBusy endpoint (h.processing endpoint hSet))

end Spreads

section Write

omit [DecidableEq κ]

omit [DecidableEq ι] in
theorem perform_upsert (s : MediatorNet ι κ) (i : ι) (node : TreeNode) :
    (BackendOperation.change (.upsertNode [node])).perform (s.backend i).memoryTree =
      .ok ((s.backend i).memoryTree.upsertNode [node]) := rfl

/-- The tree of a backend after the write of one node. -/
def written (s : MediatorNet ι κ) (i : ι) (node : TreeNode) : MediatorNet ι κ :=
  s.setTree i ((s.backend i).memoryTree.upsertNode [node])

theorem sameListeners_written (i : ι) : SameListeners s (s.written i node) := (SameListeners.refl s).setTree i _

theorem holds_written (hCopied : equalNodes (some node) (some node.assign) = true) (i j : ι) :
    Holds (s.written i node) node j ↔ j = i ∨ Holds s node j := by
  have hTree := setTree_memoryTree s i j ((s.backend i).memoryTree.upsertNode [node])
  rw [Holds, SimpleBackend.getNode, written, hTree]
  split_ifs with hHere
  · have hStored : ((s.backend i).memoryTree.upsertNode [node]).getNode node.labelRule = some node.assign :=
      (MemoryTree.getNode_set ..).trans (if_pos rfl)
    rw [hStored]
    exact iff_of_true hCopied (.inl hHere)
  · exact ⟨.inr, fun h => h.resolve_left hHere⟩

theorem lacking_written [Finite ι] (hCopied : equalNodes (some node) (some node.assign) = true) {i : ι}
    (hLacks : ¬ Holds s node i) : lacking (Holds (s.written i node) node) < lacking (Holds s node) :=
  lacking_lt (fun j h => (holds_written hCopied i j).mpr (.inr h)) hLacks ((holds_written hCopied i i).mpr (.inl rfl))

end Write

/-- A write with this fuel returns in every state in which fewer backends lack the node. -/
def Delivers (mediator : κ → CloningMediator ι) (node : TreeNode) (fuel : ℕ) : Prop :=
  ∀ s i, Wired mediator s → BusyWhereHeld mediator s node → lacking (Holds (s.written i node) node) < fuel →
    ∃ t, operate mediator fuel i (.change (.upsertNode [node])) s = (.ok (), t) ∧ Spreads mediator node s t ∧
      Holds t node i ∧ ∀ y, PassesTo mediator s i y → Holds t node y

section Delivery

variable [Finite ι] {fuel : ℕ} (hCopied : equalNodes (some node) (some node.assign) = true)
  (hUnversioned : ∀ k, (mediator k).versioned = false)

omit [DecidableEq ι] [DecidableEq κ] [Finite ι] in
theorem answer_of_holds {j : ι} (h : Holds s node j) :
    answer false node.labelRule (some node) ((s.backend j).getNode node.labelRule) = none := if_pos h

omit [DecidableEq ι] [DecidableEq κ] [Finite ι] in
theorem answer_of_lacks {j : ι} (h : ¬ Holds s node j) :
    answer false node.labelRule (some node) ((s.backend j).getNode node.labelRule) = some (.upsertNode [node]) :=
  if_neg h

include hCopied hUnversioned in
/-- A callback of a backend that has the node leaves it in the other backend. -/
theorem mediatorCallback_spreads (hDelivers : Delivers mediator node fuel) (hWired : Wired mediator s)
    (hBusy : BusyWhereHeld mediator s node) {endpoint : κ × Side}
    (hHere : Holds s node ((mediator endpoint.1).backend endpoint.2)) (hFuel : lacking (Holds s node) ≤ fuel) :
    ∃ t, mediatorCallback mediator (fun target c => operate mediator fuel target (.change c)) endpoint
        node.labelRule (some node) s = (.ok (), t) ∧
      Spreads mediator node s t ∧ Holds t node (target mediator endpoint) := by
  cases hProcessing : s.processing (endpoint.1, endpoint.2.other) with
  | true => exact ⟨s, mediatorCallback_of_busy hProcessing, .refl s, hBusy _ hProcessing⟩
  | false =>
      let busy := s.setProcessing endpoint true
      have hSet : BusyWhereHeld mediator busy node := by
        intro other hOther
        by_cases hSame : other = endpoint
        · exact hSame ▸ hHere
        · have hOld : s.processing other = true := (Function.update_of_ne hSame ..).symm.trans hOther
          exact hBusy other hOld
      -- after the callback its flag is false, and the others are as the write leaves them
      have hDone {t : MediatorNet ι κ} (hSpreads : Spreads mediator node busy t) :
          Spreads mediator node s (t.setProcessing endpoint false) := by
        refine ⟨hSpreads.listeners, fun other hOther => ?_, hSpreads.passedOn⟩
        by_cases hSame : other = endpoint
        · have hCleared : (t.setProcessing endpoint false).processing other = false := by
            rw [hSame]
            exact Function.update_self ..
          exact absurd (hCleared.symm.trans hOther) Bool.false_ne_true
        · have hKept : t.processing other = true := (Function.update_of_ne hSame ..).symm.trans hOther
          exact (Function.update_of_ne hSame ..).symm.trans (hSpreads.processing other hKept)
      by_cases hThere : Holds s node (target mediator endpoint)
      · refine ⟨_, mediatorCallback_of_idle hProcessing ?_, hDone (.refl busy), hThere⟩
        rw [hUnversioned, answer_of_holds hThere]
        rfl
      · let recorded := busy.record (.wrote (target mediator endpoint) (.upsertNode [node]))
        have hLess : lacking (Holds (recorded.written (target mediator endpoint) node) node) < fuel :=
          (lacking_written (s := recorded) hCopied hThere).trans_le hFuel
        obtain ⟨t, hCall, hSpreads, hArrived, -⟩ := hDelivers recorded _ ⟨hWired.1, hWired.2⟩ hSet hLess
        refine ⟨_, mediatorCallback_of_idle hProcessing ?_, hDone ⟨hSpreads.1, hSpreads.2, hSpreads.3⟩, hArrived⟩
        rw [hUnversioned, answer_of_lacks hThere]
        exact (bind_ok rfl).trans hCall

include hCopied hUnversioned in
/-- The callbacks of a backend that has the node, one after another. -/
theorem forEach_mediatorCallback_spreads (hDelivers : Delivers mediator node fuel) {i : ι} (called : List (κ × Side))
    (hBackend : ∀ endpoint ∈ called, (mediator endpoint.1).backend endpoint.2 = i) (hWired : Wired mediator s)
    (hBusy : BusyWhereHeld mediator s node) (hHere : Holds s node i) (hFuel : lacking (Holds s node) ≤ fuel) :
    ∃ t, forEach (fun endpoint => mediatorCallback mediator (fun target c => operate mediator fuel target (.change c))
        endpoint node.labelRule (some node)) called s = (.ok (), t) ∧
      Spreads mediator node s t ∧ ∀ endpoint ∈ called, Holds t node (target mediator endpoint) := by
  induction called generalizing s with
  | nil => exact ⟨s, rfl, .refl s, nofun⟩
  | cons endpoint called ih =>
      have hThis : Holds s node ((mediator endpoint.1).backend endpoint.2) :=
        (hBackend endpoint List.mem_cons_self).symm ▸ hHere
      obtain ⟨t, hCall, hSpreads, hArrived⟩ :=
        mediatorCallback_spreads hCopied hUnversioned hDelivers hWired hBusy hThis hFuel
      obtain ⟨u, hRest, hLater, hAll⟩ := ih (fun other hOther => hBackend other (List.mem_cons_of_mem _ hOther))
        (hWired.of_sameListeners hSpreads.listeners) (hSpreads.busyWhereHeld hBusy) (hSpreads.passedOn.kept i hHere)
        ((lacking_le hSpreads.passedOn.kept).trans hFuel)
      refine ⟨u, (bind_ok hCall).trans hRest, hSpreads.trans hLater, fun other hOther => ?_⟩
      rcases List.mem_cons.mp hOther with rfl | hOther
      · exact hLater.passedOn.kept _ hArrived
      · exact hAll other hOther

include hCopied hUnversioned in
/-- Fuel for as many writes inside one another as there are backends that lack the node. -/
theorem delivers (fuel : ℕ) : Delivers mediator node fuel := by
  induction fuel with
  | zero => exact fun _ _ _ _ hFuel => absurd hFuel (Nat.not_lt_zero _)
  | succ fuel ih =>
      intro s i hWired hBusy hFuel
      let noted := (s.written i node).record (.notified i (node.labelRule, some node))
      have hHolds (j : ι) : Holds noted node j ↔ j = i ∨ Holds s node j := holds_written hCopied i j
      have hListeners : SameListeners s noted := sameListeners_written i
      have hBusy' : BusyWhereHeld mediator noted node := fun endpoint h => (hHolds _).mpr (.inr (hBusy endpoint h))
      obtain ⟨t, hCalls, hSpreads, hArrived⟩ := forEach_mediatorCallback_spreads hCopied hUnversioned ih
        (s.endpoints i) (hWired.backend_eq i) (hWired.of_sameListeners hListeners) hBusy' ((hHolds i).mpr (.inl rfl))
        (Nat.le_of_lt_succ hFuel)
      have hPassed : ∀ y, PassesTo mediator s i y → Holds t node y := by
        rintro y ⟨endpoint, hEndpoint, rfl⟩
        exact hArrived endpoint hEndpoint
      refine ⟨t, ?_, ⟨hListeners.trans hSpreads.listeners, hSpreads.processing, ?_⟩,
        hSpreads.passedOn.kept i ((hHolds i).mpr (.inl rfl)), hPassed⟩
      · have hAnnounced : (BackendOperation.change (.upsertNode [node])).announced =
            [(node.labelRule, some node)] := rfl
        have hRoot : ((s.written i node).backend i).nodeListeners.RootOnly :=
          ((hWired.of_sameListeners (sameListeners_written i)).rootOnly i)
        have hEndpoints : (s.written i node).endpoints i = s.endpoints i := (sameListeners_written i).endpoints_eq i
        rw [operate_succ (perform_upsert s i node), hAnnounced, forEach_singleton]
        rw [written] at hRoot hEndpoints
        rw [notify_eq hRoot, hEndpoints]
        exact hCalls
      · exact PassedOn.insert hHolds (hListeners.passesTo ▸ hSpreads.passedOn) hPassed

end Delivery

section Reached

/-! Which backends a write reaches at all. -/

/-- A property of nets that is independent of flags and events, and kept by the writes that
callbacks make from one of the backends `R` to another. -/
structure Kept (mediator : κ → CloningMediator ι) (s : MediatorNet ι κ) (node : TreeNode) (R : ι → Prop)
    (P : MediatorNet ι κ → Prop) : Prop where
  written : ∀ t i, R i → P t → P (t.written i node)
  record : ∀ t event, P t → P (t.record event)
  setProcessing : ∀ t endpoint value, P t → P (t.setProcessing endpoint value)
  passesTo : ∀ t x y, R x → P t → PassesTo mediator s x y → ¬ Holds t node y → R y

variable {P : MediatorNet ι κ → Prop} {R : ι → Prop} {fuel : ℕ} {i : ι} (hKept : Kept mediator s node R P)
  (hUnversioned : ∀ k, (mediator k).versioned = false)

include hKept hUnversioned

theorem Kept.mediatorCallback (hWrite : ∀ j, R j → Keeps (fun t => SameListeners s t ∧ P t)
      (operate mediator fuel j (.change (.upsertNode [node])))) (hR : R i) {endpoint : κ × Side}
    (hEndpoint : endpoint ∈ s.endpoints i) : Keeps (fun t => SameListeners s t ∧ P t)
      (mediatorCallback mediator (fun target c => operate mediator fuel target (.change c)) endpoint node.labelRule
        (some node)) := by
  rintro t ⟨hSame, ht⟩
  cases hBusy : t.processing (endpoint.1, endpoint.2.other) with
  | true =>
      rw [mediatorCallback_of_busy hBusy]
      exact ⟨hSame, ht⟩
  | false =>
      rw [mediatorCallback_eq_of_idle hBusy, hUnversioned]
      refine state_bind (I := fun t => SameListeners s t ∧ P t) ?_ fun _ t ht =>
        ⟨ht.1, hKept.setProcessing t endpoint false ht.2⟩
      by_cases hThere : Holds t node (target mediator endpoint)
      · rw [answer_of_holds hThere]
        exact ⟨hSame, hKept.setProcessing t endpoint true ht⟩
      · rw [answer_of_lacks hThere]
        have hNext := hKept.passesTo t i _ hR ht ⟨endpoint, hEndpoint, rfl⟩ hThere
        exact hWrite _ hNext _ ⟨hSame, hKept.record _ _ (hKept.setProcessing t endpoint true ht)⟩

/-- The notification of a write keeps what the writes inside it keep. -/
theorem Kept.notify (hWired : Wired mediator s) (hWrite : ∀ j, R j → Keeps (fun t => SameListeners s t ∧ P t)
      (operate mediator fuel j (.change (.upsertNode [node])))) (hR : R i) :
    Keeps (fun t => SameListeners s t ∧ P t) (forEach (MediatorNet.notify (MediatorNet.mediatorCallback mediator
      fun target c => operate mediator fuel target (.change c)) i)
      (BackendOperation.change (.upsertNode [node])).announced) := by
  refine keeps_forEach fun told hTold => ?_
  rw [List.mem_singleton.mp hTold]
  rintro t ⟨hSame, ht⟩
  rw [notify_eq ((hWired.of_sameListeners hSame).rootOnly i), hSame.endpoints_eq]
  exact keeps_forEach (fun _ hEndpoint => hKept.mediatorCallback hUnversioned hWrite hR hEndpoint) _
    ⟨hSame, hKept.record t _ ht⟩

theorem Kept.upsert (hWired : Wired mediator s) (fuel : ℕ) (hR : R i) :
    Keeps (fun t => SameListeners s t ∧ P t) (operate mediator fuel i (.change (.upsertNode [node]))) := by
  induction fuel generalizing i with
  | zero => exact keeps_raise _
  | succ fuel ih =>
      rintro t ⟨hSame, ht⟩
      rw [operate_succ (perform_upsert t i node)]
      exact hKept.notify hUnversioned hWired (fun _ => ih) hR _
        ⟨hSame.trans (sameListeners_written i), hKept.written t i hR ht⟩

omit hKept in
/-- The backend that the node is written to has it in the end as it is stored there. -/
theorem getNode_of_upsert (hWired : Wired mediator s)
    (hCall : operate mediator fuel i (.change (.upsertNode [node])) s = (.ok (), t)) :
    (t.backend i).getNode node.labelRule = some node.assign := by
  have hWritten (t : MediatorNet ι κ) (j : ι) (hj : j = i ∨ (t.backend i).getNode node.labelRule = some node.assign) :
      ((t.written j node).backend i).getNode node.labelRule = some node.assign := by
    have hTree := setTree_memoryTree t j i ((t.backend j).memoryTree.upsertNode [node])
    rw [SimpleBackend.getNode, MediatorNet.written, hTree]
    split_ifs with hHere
    · exact (MemoryTree.getNode_set ..).trans (if_pos rfl)
    · exact hj.resolve_left (Ne.symm hHere)
  have hStored : Kept mediator s node (fun _ => True)
      fun t => (t.backend i).getNode node.labelRule = some node.assign :=
    ⟨fun t j _ ht => hWritten t j (.inr ht), fun _ _ h => h, fun _ _ _ h => h, fun _ _ _ _ _ _ _ => trivial⟩
  cases fuel with
  | zero => exact nomatch (Prod.mk.inj hCall).1
  | succ fuel =>
      rw [operate_succ (perform_upsert s i node)] at hCall
      have hAfter := hStored.notify (i := i) hUnversioned hWired (fun _ => hStored.upsert hUnversioned hWired fuel)
        trivial (s.written i node) ⟨sameListeners_written i, hWritten s i (.inl rfl)⟩
      exact (congrArg Prod.snd hCall ▸ hAfter).2

omit hKept in
/-- Only what the flood reaches gets the node. -/
theorem floods_of_upsert (hCopied : equalNodes (some node) (some node.assign) = true) (hWired : Wired mediator s)
    {j : ι} (hCall : operate mediator fuel i (.change (.upsertNode [node])) s = (.ok (), t)) (hHolds : Holds t node j) :
    Holds s node j ∨ Floods (PassesTo mediator s) (Holds s node) i j := by
  let P (t : MediatorNet ι κ) : Prop := (∀ j, Holds s node j → Holds t node j) ∧
    ∀ j, Holds t node j → Holds s node j ∨ Floods (PassesTo mediator s) (Holds s node) i j
  have hWritten (t : MediatorNet ι κ) (x : ι) (hx : Floods (PassesTo mediator s) (Holds s node) i x) (ht : P t) :
      P (t.written x node) := by
    refine ⟨fun j hj => (holds_written hCopied x j).mpr (.inr (ht.1 j hj)), fun j hj => ?_⟩
    rcases (holds_written hCopied x j).mp hj with rfl | hj
    · exact .inr hx
    · exact ht.2 j hj
  have hFlooded : Kept mediator s node (Floods (PassesTo mediator s) (Holds s node) i) P :=
    ⟨hWritten, fun _ _ h => h, fun _ _ _ h => h,
      fun t x y hx ht hEdge hLacks => hx.pass hEdge fun hBefore => hLacks (ht.1 y hBefore)⟩
  have hAfter := hFlooded.upsert hUnversioned hWired fuel .start s ⟨.refl s, fun _ h => h, fun _ h => .inl h⟩
  rw [hCall] at hAfter
  exact hAfter.2.2 j hHolds

end Reached

section Iff

/-- In a net of unversioned mediators that is at rest, a write leaves the node in all connected
backends exactly if each of them has it already or is reached along the registered callbacks,
and the node compares equal to its stored copy. -/
theorem propagates_iff_of_wired [Finite ι] (hUnversioned : ∀ k, (mediator k).versioned = false)
    (hWired : Wired mediator s) (hIdle : ∀ endpoint, s.processing endpoint = false) (i : ι) (node : TreeNode) :
    Propagates mediator s i node ↔ equalNodes (some node) (some node.assign) = true ∧
      ∀ j, Connected mediator s i j → Holds s node j ∨ Floods (PassesTo mediator s) (Holds s node) i j := by
  constructor
  · rintro ⟨fuel, t, hCall, hAll⟩
    have hCopied : equalNodes (some node) (some node.assign) = true :=
      getNode_of_upsert hUnversioned hWired hCall ▸ hAll i .refl
    exact ⟨hCopied, fun j hj => floods_of_upsert hUnversioned hCopied hWired hCall (hAll j hj)⟩
  · rintro ⟨hCopied, hReached⟩
    have hBusy : BusyWhereHeld mediator s node := fun endpoint hSet => by
      rw [hIdle] at hSet
      cases hSet
    obtain ⟨t, hCall, hSpreads, hStart, hPassed⟩ := delivers hCopied hUnversioned
      (lacking (Holds (s.written i node) node) + 1) s i hWired hBusy (Nat.lt_succ_self _)
    refine ⟨_, t, hCall, fun j hj => ?_⟩
    rcases hReached j hj with hHeld | hFlooded
    · exact hSpreads.passedOn.kept j hHeld
    · exact hSpreads.passedOn.of_floods hStart hPassed hFlooded

end Iff

section Runs

/-! Nets that mediators come to and go from are wired, and at rest between the operations. -/

omit [DecidableEq κ] in
theorem Wired.listen (h : Wired mediator s) (k : κ) (side : Side) : Wired mediator (s.listen mediator k side) where
  rootOnly i := by
    refine ⟨fun rule hRule => ?_, fun l hl => ?_⟩
    · rw [under_listen, if_neg fun hHere => hRule hHere.2, (h.rootOnly i).under_eq_nil rule hRule]
    · rw [under_listen] at hl
      split_ifs at hl
      · rcases List.mem_append.mp hl with hOld | hNew
        · exact (h.rootOnly i).childNotify l (List.mem_filter.mp hOld).1
        · rw [List.mem_singleton.mp hNew]
      · exact (h.rootOnly i).childNotify l hl
  backend_eq i endpoint hEndpoint := by
    obtain ⟨l, hl, rfl⟩ := List.mem_map.mp hEndpoint
    rw [under_listen] at hl
    split_ifs at hl with hHere
    · rcases List.mem_append.mp hl with hOld | hNew
      · exact h.backend_eq i _ (List.mem_map_of_mem (List.mem_filter.mp hOld).1)
      · rw [List.mem_singleton.mp hNew, hHere.1]
    · exact h.backend_eq i _ (List.mem_map_of_mem hl)

omit [DecidableEq κ] in
theorem Wired.unlisten (h : Wired mediator s) (k : κ) (side : Side) : Wired mediator (s.unlisten mediator k side) where
  rootOnly i := by
    refine ⟨fun rule hRule => ?_, fun l hl => ?_⟩
    · rw [under_unlisten, if_neg fun hHere => hRule hHere.2, (h.rootOnly i).under_eq_nil rule hRule]
    · rw [under_unlisten] at hl
      split_ifs at hl
      · exact (h.rootOnly i).childNotify l (List.mem_filter.mp hl).1
      · exact (h.rootOnly i).childNotify l hl
  backend_eq i endpoint hEndpoint := by
    obtain ⟨l, hl, rfl⟩ := List.mem_map.mp hEndpoint
    rw [under_unlisten] at hl
    split_ifs at hl
    · exact h.backend_eq i _ (List.mem_map_of_mem (List.mem_filter.mp hl).1)
    · exact h.backend_eq i _ (List.mem_map_of_mem hl)

omit [DecidableEq ι] [DecidableEq κ] in
theorem Unconnected.wired (h : Unconnected s) : Wired mediator s where
  rootOnly i := ⟨fun rule _ => h.under_eq_nil i rule, fun l hl => by rw [h.under_eq_nil] at hl; cases hl⟩
  backend_eq i endpoint hEndpoint := by
    rw [endpoints, h.under_eq_nil] at hEndpoint
    cases hEndpoint

/-- In a wired net the call returns with no flag set that was not set before, unless fuel gives out. -/
def Settles (mediator : κ → CloningMediator ι) (x : Effectful (MediatorNet ι κ) Unit) : Prop :=
  ∀ s, Wired mediator s → SameListeners s (x s).2 ∧ ((x s).1 = .error (.undefined .nonTermination) ∨
    (x s).1 = .ok () ∧ ∀ endpoint, (x s).2.processing endpoint = true → s.processing endpoint = true)

namespace Settles

variable {x y : Effectful (MediatorNet ι κ) Unit}

omit [DecidableEq ι] [DecidableEq κ]

theorem pure : Settles mediator (Pure.pure () : Effectful (MediatorNet ι κ) Unit) :=
  fun s _ => ⟨.refl s, .inr ⟨rfl, fun _ h => h⟩⟩

theorem bind (hFirst : Settles mediator x) (hSecond : Settles mediator y) : Settles mediator (x >>= fun _ => y) := by
  intro s hWired
  obtain ⟨hSame, hOut | ⟨hReturns, hFlags⟩⟩ := hFirst s hWired
  · have hCall : (x >>= fun _ => y) s = (.error (.undefined .nonTermination), (x s).2) := bind_error (Prod.ext hOut rfl)
    rw [hCall]
    exact ⟨hSame, .inl rfl⟩
  · have hCall : (x >>= fun _ => y) s = y (x s).2 := bind_ok (Prod.ext hReturns rfl)
    obtain ⟨hLater, hEnd⟩ := hSecond _ (hWired.of_sameListeners hSame)
    rw [hCall]
    exact ⟨hSame.trans hLater,
      hEnd.imp_right fun h => ⟨h.1, fun endpoint hSet => hFlags endpoint (h.2 endpoint hSet)⟩⟩

theorem forEach {α : Type} {body : α → Effectful (MediatorNet ι κ) Unit} {l : List α}
    (h : ∀ a ∈ l, Settles mediator (body a)) : Settles mediator (Effectful.forEach body l) := by
  induction l with
  | nil => exact pure
  | cons a l ih => exact (h a List.mem_cons_self).bind (ih fun b hb => h b (List.mem_cons_of_mem a hb))

theorem writeTo {write : ι → TreeChange → Effectful (MediatorNet ι κ) Unit}
    (hWrite : ∀ target c, (∀ t, ∃ tree, c.perform t = .ok tree) → Settles mediator (write target c)) (target : ι)
    (versioned : Bool) (labelRule : Str) (mFrom mTo : Option TreeNode) :
    Settles mediator (MediatorNet.writeTo write target (answer versioned labelRule mFrom mTo)) := by
  have hRecord (c : TreeChange) : Settles mediator
      (Effectful.change fun s : MediatorNet ι κ => s.record (.wrote target c)) :=
    fun s _ => ⟨.refl s, .inr ⟨rfl, fun _ h => h⟩⟩
  unfold answer
  split_ifs
  · exact pure
  · cases mFrom with
    | none => exact (hRecord _).bind (hWrite target _ fun t => ⟨_, rfl⟩)
    | some source =>
        dsimp only
        split_ifs
        · exact pure
        · exact (hRecord _).bind (hWrite target _ fun t => ⟨_, rfl⟩)

end Settles

omit [DecidableEq ι] in
theorem settles_mediatorCallback {write : ι → TreeChange → Effectful (MediatorNet ι κ) Unit}
    (hWrite : ∀ target c, (∀ t, ∃ tree, c.perform t = .ok tree) → Settles mediator (write target c))
    (endpoint : κ × Side) (labelRule : Str) (mFrom : Option TreeNode) :
    Settles mediator (mediatorCallback mediator write endpoint labelRule mFrom) := by
  intro s hWired
  cases hBusy : s.processing (endpoint.1, endpoint.2.other) with
  | true =>
      rw [mediatorCallback_of_busy hBusy]
      exact ⟨.refl s, .inr ⟨rfl, fun _ h => h⟩⟩
  | false =>
      rw [mediatorCallback_eq_of_idle hBusy]
      obtain ⟨hSame, hEnd⟩ := Settles.writeTo hWrite (target mediator endpoint) (mediator endpoint.1).versioned labelRule
        mFrom ((s.backend (target mediator endpoint)).getNode labelRule) (s.setProcessing endpoint true)
        ⟨hWired.rootOnly, hWired.backend_eq⟩
      rcases hEnd with hOut | ⟨hReturns, hFlags⟩
      · rw [bind_error (Prod.ext hOut rfl)]
        exact ⟨hSame, .inl rfl⟩
      · rw [bind_ok (Prod.ext hReturns rfl)]
        refine ⟨hSame, .inr ⟨rfl, fun other hSet => ?_⟩⟩
        -- its own flag is false now, and the write has set no other one
        by_cases hOwn : other = endpoint
        · rw [hOwn] at hSet
          exact absurd ((Function.update_self ..).symm.trans hSet) Bool.false_ne_true
        · exact (Function.update_of_ne hOwn ..).symm.trans
            (hFlags other ((Function.update_of_ne hOwn ..).symm.trans hSet))

omit [DecidableEq ι] in
theorem settles_notify {write : ι → TreeChange → Effectful (MediatorNet ι κ) Unit}
    (hWrite : ∀ target c, (∀ t, ∃ tree, c.perform t = .ok tree) → Settles mediator (write target c)) (i : ι)
    (told : Str × Option TreeNode) : Settles mediator (notify (mediatorCallback mediator write) i told) := by
  intro s hWired
  rw [notify_eq (hWired.rootOnly i)]
  exact Settles.forEach (fun endpoint _ => settles_mediatorCallback hWrite endpoint told.1 told.2)
    (s.record (.notified i told)) ⟨hWired.rootOnly, hWired.backend_eq⟩

/-- The listeners of an operation, with the writes inside one another. -/
theorem settles_notifications (fuel : ℕ) (i : ι) (announced : List (Str × Option TreeNode)) :
    Settles mediator (forEach (notify (mediatorCallback mediator fun target c =>
      operate mediator fuel target (.change c)) i) announced) := by
  induction fuel generalizing i announced with
  | zero => exact Settles.forEach fun told _ => settles_notify (fun _ _ _ s _ => ⟨.refl s, .inl rfl⟩) i told
  | succ fuel ih =>
      refine Settles.forEach fun told _ => settles_notify (fun target c hPerforms s hWired => ?_) i told
      obtain ⟨tree, hTree⟩ := hPerforms (s.backend target).memoryTree
      have hPerform : (BackendOperation.change c).perform (s.backend target).memoryTree = .ok tree := hTree
      rw [operate_succ hPerform]
      have hSame : SameListeners s (s.setTree target tree) := (SameListeners.refl s).setTree target tree
      obtain ⟨hLater, hEnd⟩ := ih target (BackendOperation.change c).announced (s.setTree target tree)
        (hWired.of_sameListeners hSame)
      exact ⟨hSame.trans hLater, hEnd⟩

/-- What every reached net has. -/
structure AtRest (mediator : κ → CloningMediator ι) (s : MediatorNet ι κ) : Prop where
  wired : Wired mediator s
  idle : ∀ endpoint, s.processing endpoint = false

theorem AtRest.create (h : AtRest mediator s) (k : κ) : AtRest mediator (s.create mediator k) where
  wired := by
    have hCleared : Wired mediator ((s.setProcessing (k, .a) false).setProcessing (k, .b) false) :=
      ⟨h.wired.rootOnly, h.wired.backend_eq⟩
    have hListening := (hCleared.listen k .a).listen k .b
    exact ⟨hListening.rootOnly, hListening.backend_eq⟩
  idle endpoint := by
    have hFlags : (s.create mediator k).processing =
        Function.update (Function.update s.processing (k, .a) false) (k, .b) false := rfl
    rw [hFlags, Function.update_apply, Function.update_apply]
    split_ifs
    · rfl
    · rfl
    · exact h.idle endpoint

theorem AtRest.destroy (h : AtRest mediator s) (k : κ) : AtRest mediator (s.destroy mediator k) where
  wired := by
    have hListening := (h.wired.unlisten k .a).unlisten k .b
    exact ⟨hListening.rootOnly, hListening.backend_eq⟩
  idle := h.idle

theorem AtRest.operate (h : AtRest mediator s) {fuel : ℕ} {i : ι} {operation : BackendOperation}
    (hStep : MediatorNet.step mediator s (.operate fuel i operation) = some t) : AtRest mediator t := by
  obtain ⟨result, hCall, hDefined⟩ := operate_of_step hStep
  cases fuel with
  | zero => exact absurd (Prod.mk.inj hCall).1.symm (hDefined .nonTermination)
  | succ fuel =>
      cases hPerform : operation.perform (s.backend i).memoryTree with
      | error e =>
          rw [operate_throws hPerform] at hCall
          exact (Prod.mk.inj hCall).2 ▸ h
      | ok tree =>
          have hSame : SameListeners s (s.setTree i tree) := (SameListeners.refl s).setTree i tree
          have hStored := h.wired.of_sameListeners hSame
          rw [operate_succ hPerform] at hCall
          obtain ⟨hLater, hEnd⟩ := settles_notifications fuel i operation.announced (s.setTree i tree) hStored
          rw [hCall] at hLater hEnd
          refine ⟨hStored.of_sameListeners hLater, fun endpoint => ?_⟩
          rcases hEnd with hOut | ⟨-, hFlags⟩
          · exact absurd hOut (hDefined .nonTermination)
          · exact Bool.eq_false_iff.mpr fun hSet => absurd ((h.idle endpoint).symm.trans (hFlags endpoint hSet)) nofun

theorem AtRest.step (h : AtRest mediator s) {action : Action ι κ} (hStep : MediatorNet.step mediator s action = some t) :
    AtRest mediator t := by
  cases action with
  | create k =>
      rw [MediatorNet.step, Option.ite_none_left_eq_some] at hStep
      exact Option.some.inj hStep.2 ▸ h.create k
  | destroy k =>
      rw [MediatorNet.step, Option.ite_none_right_eq_some] at hStep
      exact Option.some.inj hStep.2 ▸ h.destroy k
  | operate fuel i operation => exact h.operate hStep

/-- Whatever comes and goes and is written before: the write of a node leaves it in all
connected backends exactly if the registered callbacks lead to those that lack it. -/
theorem propagates_iff_of_reaches [Finite ι] (hUnversioned : ∀ k, (mediator k).versioned = false)
    {s₀ : MediatorNet ι κ} (hStart : s₀.Unconnected) (hRun : Reaches (step mediator) anyStep s₀ s) (i : ι) (node : TreeNode) :
    Propagates mediator s i node ↔ equalNodes (some node) (some node.assign) = true ∧
      ∀ j, Connected mediator s i j → Holds s node j ∨ Floods (PassesTo mediator s) (Holds s node) i j := by
  have hRest : AtRest mediator s :=
    hRun.invariant ⟨hStart.wired, hStart.idle⟩ fun _ _ _ h _ hStep => h.step hStep
  exact propagates_iff_of_wired hUnversioned hRest.wired hRest.idle i node

/-- A net of empty backends without mediators. -/
def bare (ι κ : Type) : MediatorNet ι κ := ⟨fun _ => ⟨.empty, .empty⟩, fun _ => false, fun _ => false, []⟩

omit [DecidableEq ι] [DecidableEq κ] in
theorem unconnected_bare : (bare ι κ).Unconnected :=
  ⟨fun _ _ => ListenerTable.under_empty _, fun _ => rfl, fun _ => rfl⟩

def nodeA : TreeNode := { labelRule := str "A" }

/-- One mediator between two backends. -/
def couple : Unit → CloningMediator Bool := fun _ => ⟨false, true, false⟩

theorem propagates_couple : Propagates couple ((bare Bool Unit).create couple ()) false nodeA := by
  have hCreate : MediatorNet.step couple (bare Bool Unit) (.create ()) = some ((bare Bool Unit).create couple ()) := rfl
  have hRun : Reaches (MediatorNet.step couple) anyStep (bare Bool Unit) _ := .single trivial hCreate
  refine (propagates_iff_of_reaches (fun _ => rfl) unconnected_bare hRun false nodeA).mpr ⟨by decide, fun j _ => ?_⟩
  right
  cases j with
  | false => exact .start
  | true => exact .pass .start ⟨((), .a), by decide, rfl⟩ (by decide)

/-- Two mediators whose first backend is the same. -/
def fork : Bool → CloningMediator (Fin 3) := fun k => ⟨0, if k then 2 else 1, false⟩

def forked : MediatorNet (Fin 3) Bool := ((bare (Fin 3) Bool).create fork false).create fork true

/-- The second mediator takes over the registration of the first, which is told of nothing any more. -/
theorem not_propagates_fork : ¬ ∀ s, Reaches (MediatorNet.step fork) anyStep (bare (Fin 3) Bool) s →
    ∀ i node, Propagates fork s i node := by
  intro h
  have hFirst : MediatorNet.step fork (bare (Fin 3) Bool) (.create false) = some ((bare _ _).create fork false) := rfl
  have hSecond : MediatorNet.step fork ((bare _ _).create fork false) (.create true) = some forked := rfl
  have hRun : Reaches (MediatorNet.step fork) anyStep (bare (Fin 3) Bool) forked :=
    (Reaches.single trivial hFirst).tail trivial hSecond
  have hRest : AtRest fork forked :=
    ((AtRest.mk unconnected_bare.wired fun _ => rfl).create false).create true
  obtain ⟨-, hAll⟩ := (propagates_iff_of_wired (fun _ => rfl) hRest.wired hRest.idle 0 nodeA).mp (h _ hRun 0 nodeA)
  have hEdges : ∀ x y, PassesTo fork forked x y → x ≠ 1 → y ≠ 1 := by decide
  have hNever : ∀ j, Floods (PassesTo fork forked) (Holds forked nodeA) 0 j → j ≠ 1 := by
    intro j hj
    induction hj with
    | start => decide
    | pass _ hEdge _ ih => exact hEdges _ _ hEdge ih
  have hConnected : Connected fork forked 0 1 := .single ⟨false, .a, rfl, rfl, rfl⟩
  have hLacks : ¬ Holds forked nodeA 1 := by decide
  rcases hAll 1 hConnected with hHeld | hFlooded
  · exact hLacks hHeld
  · exact hNever 1 hFlooded rfl

end Runs

end MediatorNet
end Wwatp
