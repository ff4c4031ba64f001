import Wwatp.Memory.Registrations
import Wwatp.Memory.TreeChanges
import Wwatp.Server.JournalInvariant

/-! How often a route journals one change of a `SimpleBackend`. The route registers a callback
for every label that it is asked to listen to, and each one that is called for a change adds
an entry. -/
namespace Wwatp

open Cxx Cxx.Effectful

/-- The callback of a listener: the one that appends to the route's journal, or one of somebody
else, which leaves the route and the backend alone. -/
inductive RouteListener
  | journal
  | other
  deriving DecidableEq

namespace ServerRoute

/-- The entries that the route's callback adds to the journal. -/
def journalEntries (notices : List (Notice RouteListener)) : List (Str × Option TreeNode) :=
  (notices.filter fun notice => notice.listener.callback = .journal).map fun notice =>
    (notice.labelRule, notice.node)

/-- A change of the backend, by the route or by anybody else. -/
def changeShared (change : TreeChange) (b : SimpleBackend RouteListener) :
    BackendReply (SimpleBackend RouteListener) Bool :=
  match b.perform change with
  | .ok (after, notices) => ⟨.ok true, after, journalEntries notices⟩
  | .error fault => ⟨.error fault, b, []⟩

/-- The functions of a `SimpleBackend` that a route shares with others. -/
def sharedBackend : Backend (SimpleBackend RouteListener) where
  getNode labelRule b := .ok (b.getNode labelRule)
  upsertNode nodes := changeShared (.upsertNode nodes)
  deleteNode labelRule := changeShared (.deleteNode labelRule)
  getPageTree page b := .ok (b.getPageTree page)
  queryNodes labelRule b := .ok (b.queryNodes labelRule)
  openTransactionLayer node b := ⟨do b.openTransactionLayer node; return true, b, []⟩
  closeTransactionLayers b := ⟨do b.closeTransactionLayers; return true, b, []⟩
  applyTransaction transaction := changeShared (.applyTransaction transaction)
  getFullTree b := .ok b.getFullTree
  registerNodeListener name labelRule childNotify b :=
    ⟨.ok (), { b with
      nodeListeners := b.nodeListeners.registerNodeListener name labelRule childNotify .journal }, []⟩
  notifyListeners labelRule node b :=
    match b.notifyListeners labelRule node with
    | .ok notices => ⟨.ok (), b, journalEntries notices⟩
    | .error fault => ⟨.error fault, b, []⟩
  processNotifications b := ⟨.ok (), b, []⟩

/-- The route after some `REGISTER_LISTENER` requests, however each of them ends. -/
def receive (requests : List (Str × Bool)) (route : ServerRoute (SimpleBackend RouteListener)) :
    ServerRoute (SimpleBackend RouteListener) :=
  requests.foldl (fun route request => (registerListener sharedBackend request.1 request.2 route).2) route

/-- What the requests ask for under a rule: nothing, or to listen, with its children or without. -/
def asked (requests : List (Str × Bool)) (rule : Str) : Option Bool :=
  if rule ∈ requests.map Prod.fst then some ((rule, true) ∈ requests) else none

/-- A request listens to the label: its own, or above it with its children. -/
def CoveredBy (requests : List (Str × Bool)) (label : Str) : Prop :=
  ∃ request ∈ requests, request.1 = label ∨
    (request.2 = true ∧ (request.1 = [] ∨ IsAncestor request.1 label))

/-- The change is made, and one entry is added to the journal: the change itself. -/
def JournaledOnce (route : ServerRoute (SimpleBackend RouteListener)) (change : TreeChange) : Prop :=
  (changeShared change route.backend).outcome = .ok true ∧
    (changeShared change route.backend).journaled = change.announced

/-- A rule that the route was asked to listen to and that is found for the label: the backward
walk comes to it, and it is the label or was asked for with its children and overlaps it. -/
def FoundFor (requests : List (Str × Bool)) (t : ListenerTable RouteListener) (label rule : Str) : Prop :=
  rule ∈ requests.map Prod.fst ∧ t.WalksTo label rule ∧
    (rule = label ∨ ((rule, true) ∈ requests ∧ checkLabelRuleOverlap label rule = .ok true))

/-- The route listens to what it was asked for, with one registration for each rule. -/
structure Tracks (url : Str) (requests : List (Str × Bool))
    (route : ServerRoute (SimpleBackend RouteListener)) : Prop where
  ownUrl : route.url = url
  listeningLabels : ∀ rule : Str, route.listeningLabels[rule]? = asked requests rule
  registered : ∀ rule l, (l ∈ route.backend.nodeListeners.under rule ∧ l.callback = .journal) ↔
    ∃ childNotify, asked requests rule = some childNotify ∧ l = ⟨url, childNotify, .journal⟩

section Tracks

variable {url : Str} {requests : List (Str × Bool)} {route : ServerRoute (SimpleBackend RouteListener)}

theorem Tracks.create {b : SimpleBackend RouteListener} (maxJournalSize : ℕ) (page : Str)
    (hOthers : ∀ rule, ∀ l ∈ b.nodeListeners.under rule, l.callback = .other) :
    Tracks url [] (create b maxJournalSize url page) where
  ownUrl := rfl
  listeningLabels rule := Std.ExtTreeMap.getElem?_empty
  registered rule l := by
    constructor
    · rintro ⟨hl, hJournal⟩
      cases (hOthers rule l hl).symm.trans hJournal
    · rintro ⟨childNotify, hAsked, -⟩
      cases hAsked

theorem asked_append (label : Str) (childNotify : Bool) (rule : Str) :
    asked (requests ++ [(label, childNotify)]) rule =
      if rule = label then some (childNotify || (asked requests label).getD false) else asked requests rule := by
  by_cases hRule : rule = label
  · subst hRule
    by_cases hKnown : rule ∈ requests.map Prod.fst
    · simp [asked, hKnown, Bool.or_comm, Bool.decide_or]
    · have hUnknown : (rule, true) ∉ requests := fun hMem => hKnown (List.mem_map_of_mem (f := Prod.fst) hMem)
      simp [asked, hKnown, hUnknown]
  · simp [asked, hRule]

/-- The upkeep of the mutable page leaves alone what the route listens to. -/
theorem maintainMutablePage_listening (labelRule : Str) :
    Keeps (fun r => r.url = route.url ∧ r.listeningLabels = route.listeningLabels ∧
      r.backend.nodeListeners = route.backend.nodeListeners) (maintainMutablePage sharedBackend labelRule) := by
  refine keeps_maintainMutablePage_of sharedBackend (fun _ _ _ h => h) (fun nodes r h => ?_) labelRule
  refine ⟨h.1, h.2.1, Eq.trans ?_ h.2.2⟩
  change (changeShared (.upsertNode nodes) r.backend).after.nodeListeners = _
  unfold changeShared
  split
  · next after notices hPerform =>
      obtain ⟨tree, -, rfl, -⟩ := (SimpleBackend.perform_eq_ok _).mp hPerform
      rfl
  · rfl

theorem registerListener_known {label : Str} {childNotify : Bool}
    (h : route.addsListener label childNotify = false) :
    (registerListener sharedBackend label childNotify route).2 = route := by
  have hKnown : inspect (fun r : ServerRoute (SimpleBackend RouteListener) =>
      .ok (r.addsListener label childNotify)) route = (.ok false, route) := by
    rw [inspect, h]
  exact congrArg Prod.snd (bind_ok hKnown)

/-- A label that is new, or to be listened to with its children from now on, is registered
before the mutable page is seen to. -/
theorem registerListener_new {label : Str} {childNotify : Bool}
    (h : route.addsListener label childNotify = true) :
    ∃ r, (registerListener sharedBackend label childNotify route).2 = r ∧ r.url = route.url ∧
      r.listeningLabels = route.listeningLabels.insert label childNotify ∧
      r.backend.nodeListeners =
        route.backend.nodeListeners.registerNodeListener route.url label childNotify .journal := by
  have hNew : inspect (fun r : ServerRoute (SimpleBackend RouteListener) =>
      .ok (r.addsListener label childNotify)) route = (.ok true, route) := by
    rw [inspect, h]
  let after : ServerRoute (SimpleBackend RouteListener) :=
    (call (.registerNodeListener route.url label childNotify)
      (sharedBackend.registerNodeListener route.url label childNotify)
      { route with listeningLabels := route.listeningLabels.insert label childNotify }).2
  obtain ⟨hUrl, hLabels, hListeners⟩ :=
    @maintainMutablePage_listening after label after ⟨rfl, rfl, rfl⟩
  exact ⟨_, congrArg Prod.snd (bind_ok hNew), hUrl, hLabels, hListeners⟩

/-- A further request leaves the route listening to what it was asked for. -/
theorem Tracks.registerListener (h : Tracks url requests route) (label : Str) (childNotify : Bool) :
    Tracks url (requests ++ [(label, childNotify)])
      (registerListener sharedBackend label childNotify route).2 := by
  cases hAdds : route.addsListener label childNotify with
  | false =>
      rw [registerListener_known hAdds]
      have hSame : asked (requests ++ [(label, childNotify)]) = asked requests := by
        funext rule
        rw [asked_append]
        split_ifs with hRule
        · subst hRule
          rw [addsListener, h.listeningLabels] at hAdds
          cases hAsked : asked requests rule with
          | none =>
              rw [hAsked] at hAdds
              cases hAdds
          | some known =>
              rw [hAsked] at hAdds
              cases childNotify <;> cases known <;> first | rfl | cases hAdds
        · rfl
      exact ⟨h.ownUrl, fun rule => hSame ▸ h.listeningLabels rule, fun rule l => hSame ▸ h.registered rule l⟩
  | true =>
      obtain ⟨r, hAfter, hUrl, hLabels, hListeners⟩ := registerListener_new hAdds
      have hNow : asked (requests ++ [(label, childNotify)]) label = some childNotify := by
        rw [asked_append, if_pos rfl]
        rw [addsListener, h.listeningLabels] at hAdds
        cases hAsked : asked requests label with
        | none => rw [Option.getD_none, Bool.or_false]
        | some known =>
            rw [hAsked] at hAdds
            cases childNotify <;> cases known <;> first | rfl | cases hAdds
      have hElse {rule : Str} (hRule : rule ≠ label) :
          asked (requests ++ [(label, childNotify)]) rule = asked requests rule := by
        rw [asked_append, if_neg hRule]
      rw [hAfter]
      refine ⟨hUrl.trans h.ownUrl, fun rule => ?_, fun rule l => ?_⟩
      · rw [hLabels, Std.ExtTreeMap.getElem?_insert]
        split_ifs with hRule
        · rw [← Std.LawfulEqCmp.eq_of_compare hRule, hNow]
        · rw [hElse, h.listeningLabels]
          rintro rfl
          exact hRule Std.ReflOrd.compare_self
      · rw [hListeners, ListenerTable.under_register, h.ownUrl]
        split_ifs with hRule
        · subst hRule
          rw [hNow]
          simp only [List.mem_append, List.mem_filter, List.mem_singleton, Option.some.injEq,
            exists_eq_left']
          constructor
          · rintro ⟨⟨hl, hName⟩ | hl, hJournal⟩
            · -- a listener of the route has the name that is cleared
              obtain ⟨known, -, rfl⟩ := (h.registered rule l).mp ⟨hl, hJournal⟩
              exact absurd rfl (of_decide_eq_true hName)
            · exact hl
          · rintro rfl
            exact ⟨.inr rfl, rfl⟩
        · rw [hElse hRule, h.registered]

theorem Tracks.receive (h : Tracks url requests route) (more : List (Str × Bool)) :
    Tracks url (requests ++ more) (receive more route) := by
  induction more generalizing requests route with
  | nil => rwa [List.append_nil]
  | cons request more ih =>
      rw [List.append_cons]
      exact ih (h.registerListener request.1 request.2)

theorem asked_eq_some {rule : Str} {childNotify : Bool} : asked requests rule = some childNotify ↔
    rule ∈ requests.map Prod.fst ∧ childNotify = decide ((rule, true) ∈ requests) := by
  rw [asked]
  split_ifs with hRule
  · rw [Option.some.injEq, and_iff_right hRule, eq_comm]
  · exact iff_of_false nofun fun h => hRule h.1

theorem shouldNotify_eq_true {label rule : Str} {l : ListenerInfo RouteListener} :
    ListenerTable.shouldNotify label rule l = .ok true ↔
      rule = label ∨ (l.childNotify = true ∧ checkLabelRuleOverlap label rule = .ok true) := by
  rw [ListenerTable.shouldNotify]
  split_ifs with hRule hChild
  · exact iff_of_true rfl (.inl hRule)
  · rw [or_iff_right hRule, and_iff_right hChild]
  · simp [hRule, hChild]

/-- The route's callback is called once for each rule found for the label. -/
theorem Tracks.mem_calls_iff (h : Tracks url requests route) {label : Str}
    {calls : List (Str × ListenerInfo RouteListener)}
    (hCalls : route.backend.nodeListeners.notifyListeners label = .ok calls) (rule : Str) :
    rule ∈ (calls.filter fun reg => reg.2.callback = .journal).map Prod.fst ↔
      FoundFor requests route.backend.nodeListeners label rule := by
  simp only [List.mem_map, List.mem_filter, decide_eq_true_eq, ListenerTable.mem_notifyListeners_iff hCalls,
    ListenerTable.calls_iff, shouldNotify_eq_true]
  constructor
  · rintro ⟨⟨rule, l⟩, ⟨⟨hl, hWalks, hPasses⟩, hJournal⟩, rfl⟩
    obtain ⟨childNotify, hAsked, rfl⟩ := (h.registered rule l).mp ⟨hl, hJournal⟩
    obtain ⟨hRule, rfl⟩ := asked_eq_some.mp hAsked
    exact ⟨hRule, hWalks, hPasses.imp_right fun hChild => ⟨of_decide_eq_true hChild.1, hChild.2⟩⟩
  · rintro ⟨hRule, hWalks, hPasses⟩
    have hAsked := asked_eq_some.mpr ⟨hRule, rfl⟩
    obtain ⟨hl, hJournal⟩ := (h.registered rule _).mpr ⟨_, hAsked, rfl⟩
    exact ⟨(rule, _), ⟨⟨hl, hWalks, hPasses.imp_right fun hChild => ⟨decide_eq_true hChild.1, hChild.2⟩⟩,
      hJournal⟩, rfl⟩

theorem Tracks.nodup_calls (h : Tracks url requests route) {label : Str}
    {calls : List (Str × ListenerInfo RouteListener)}
    (hCalls : route.backend.nodeListeners.notifyListeners label = .ok calls) :
    ((calls.filter fun reg => reg.2.callback = .journal).map Prod.fst).Nodup := by
  have hNodup := (ListenerTable.nodup_calls hCalls).sublist
    ((List.filter_sublist (p := fun reg => reg.2.callback = .journal)).map _)
  have hName : ∀ reg ∈ calls.filter (fun reg => reg.2.callback = .journal), reg.2.name = url := by
    intro reg hReg
    obtain ⟨hMem, hJournal⟩ := List.mem_filter.mp hReg
    obtain ⟨hl, -, -⟩ := ListenerTable.calls_iff.mp ((ListenerTable.mem_notifyListeners_iff hCalls).mp hMem)
    obtain ⟨childNotify, -, hEq⟩ := (h.registered _ _).mp ⟨hl, of_decide_eq_true hJournal⟩
    rw [hEq]
  refine (hNodup.of_map _).map_on fun reg hReg other hOther hRule => ?_
  exact List.inj_on_of_nodup_map hNodup hReg hOther
    (Prod.ext hRule ((hName reg hReg).trans (hName other hOther).symm))

end Tracks

/-- A single change adds one entry for each call of the route's callback. -/
theorem journaledOnce_iff_calls {route : ServerRoute (SimpleBackend RouteListener)} {change : TreeChange}
    {label : Str} {node : Option TreeNode} (hSingle : change.announced = [(label, node)])
    (hMade : ∃ tree, change.perform route.backend.memoryTree = .ok tree) :
    JournaledOnce route change ↔ ∃ calls, route.backend.nodeListeners.notifyListeners label = .ok calls ∧
      (calls.filter fun reg => reg.2.callback = .journal).length = 1 := by
  obtain ⟨tree, hTree⟩ := hMade
  rw [JournaledOnce, changeShared, hSingle]
  cases hCalls : route.backend.nodeListeners.notifyListeners label with
  | error fault =>
      have hPerform : route.backend.perform change = .error fault := by
        simp only [SimpleBackend.perform, hTree, hSingle, SimpleBackend.notifyAll,
          SimpleBackend.notifyListeners, hCalls, Outcome.ok_bind, Outcome.error_bind]
      rw [hPerform]
      refine iff_of_false (fun h => ?_) fun h => ?_
      · cases h.1
      · obtain ⟨_, hOk, -⟩ := h
        cases hOk
  | ok calls =>
      have hPerform : route.backend.perform change = .ok ({ route.backend with memoryTree := tree },
          calls.map fun reg => ⟨reg.1, reg.2, label, node⟩) := by
        simp only [SimpleBackend.perform, hTree, hSingle, SimpleBackend.notifyAll,
          SimpleBackend.notifyListeners, hCalls, Outcome.ok_bind, Outcome.pure_eq_ok, List.append_nil]
      rw [hPerform, and_iff_right rfl]
      simp only [journalEntries, List.filter_map, List.map_map, Except.ok.injEq, exists_eq_left']
      constructor
      · intro hOne
        exact List.length_map _ ▸ congrArg List.length hOne
      · intro hOne
        obtain ⟨reg, hReg⟩ := List.length_eq_one_iff.mp hOne
        change (calls.filter fun reg => reg.2.callback = .journal).map _ = _
        rw [hReg]
        rfl

/-- After any registrations, a single change is journaled exactly once if and only if one and
only one of the rules that were asked for is found for its label, and no test of a listener on
the walk runs past the end of a label. -/
theorem journaledOnce_iff {b : SimpleBackend RouteListener}
    (hOthers : ∀ rule, ∀ l ∈ b.nodeListeners.under rule, l.callback = .other) (maxJournalSize : ℕ)
    (url page : Str) (requests : List (Str × Bool)) {change : TreeChange} {label : Str} {node : Option TreeNode}
    (hSingle : change.announced = [(label, node)])
    (hMade : ∃ tree, change.perform
      (receive requests (create b maxJournalSize url page)).backend.memoryTree = .ok tree) :
    JournaledOnce (receive requests (create b maxJournalSize url page)) change ↔
      (receive requests (create b maxJournalSize url page)).backend.nodeListeners.WalkDefined label ∧
        ∃! rule, FoundFor requests
          (receive requests (create b maxJournalSize url page)).backend.nodeListeners label rule := by
  have hTracks : Tracks url requests (receive requests (create b maxJournalSize url page)) :=
    (Tracks.create maxJournalSize page hOthers).receive requests
  rw [journaledOnce_iff_calls hSingle hMade, ← ListenerTable.notifyListeners_returns_iff]
  have hOnce {calls : List (Str × ListenerInfo RouteListener)}
      (hCalls : (receive requests (create b maxJournalSize url page)).backend.nodeListeners.notifyListeners
        label = .ok calls) :
      (calls.filter fun reg => reg.2.callback = .journal).length = 1 ↔ ∃! rule, FoundFor requests
        (receive requests (create b maxJournalSize url page)).backend.nodeListeners label rule := by
    rw [← List.length_map Prod.fst, ← List.toFinset_card_of_nodup (hTracks.nodup_calls hCalls),
      Finset.card_eq_one_iff_existsUnique]
    simp only [List.mem_toFinset, hTracks.mem_calls_iff hCalls]
  constructor
  · rintro ⟨calls, hCalls, hLength⟩
    exact ⟨⟨calls, hCalls⟩, (hOnce hCalls).mp hLength⟩
  · rintro ⟨⟨calls, hCalls⟩, hUnique⟩
    exact ⟨calls, hCalls, (hOnce hCalls).mpr hUnique⟩

/-- A route on a backend without nodes and other listeners. -/
def freshRoute : ServerRoute (SimpleBackend RouteListener) :=
  create ⟨.empty, .empty⟩ 10 (str "wwatp/") (str "MutableNodes")

/-- A node of `A/B/C` is written. -/
def writeBelow : TreeChange := .upsertNode [{ labelRule := str "A/B/C" }]

theorem journaledOnce_iff_below :
    JournaledOnce (receive [(str "A/B", true)] freshRoute) writeBelow ∧
      ∃! rule, FoundFor [(str "A/B", true)]
        (receive [(str "A/B", true)] freshRoute).backend.nodeListeners (str "A/B/C") rule := by
  have hOnce : JournaledOnce (receive [(str "A/B", true)] freshRoute) writeBelow := ⟨rfl, rfl⟩
  have hOthers (rule : Str) : ∀ l ∈ (ListenerTable.empty : ListenerTable RouteListener).under rule,
      l.callback = .other := by
    rw [ListenerTable.under_empty]
    exact fun _ => nofun
  exact ⟨hOnce, ((journaledOnce_iff hOthers 10 _ _ _ rfl ⟨_, rfl⟩).mp hOnce).2⟩

/-- A change that two registrations of the route cover is journaled twice, and one that the
overlap test misses not at all. -/
theorem not_journaledOnce_overlapping :
    CoveredBy [(str "A/B", true), (str "A/B/C", false)] (str "A/B/C") ∧
      ¬ JournaledOnce (receive [(str "A/B", true), (str "A/B/C", false)] freshRoute) writeBelow ∧
      CoveredBy [(str "A", true)] (str "A/B") ∧
      ¬ JournaledOnce (receive [(str "A", true)] freshRoute) (.upsertNode [{ labelRule := str "A/B" }]) := by
  refine ⟨⟨_, List.mem_cons_self, .inr ⟨rfl, .inr (by decide)⟩⟩, fun hOnce => ?_,
    ⟨_, List.mem_cons_self, .inr ⟨rfl, .inr (by decide)⟩⟩, fun hOnce => ?_⟩
  · have hTwo : (changeShared writeBelow (receive [(str "A/B", true), (str "A/B/C", false)]
        freshRoute).backend).journaled.length = 2 := rfl
    rw [hOnce.2] at hTwo
    cases hTwo
  · have hNone : (changeShared (.upsertNode [{ labelRule := str "A/B" }]) (receive [(str "A", true)]
        freshRoute).backend).journaled = [] := rfl
    rw [hOnce.2] at hNone
    cases hNone

end ServerRoute
end Wwatp
