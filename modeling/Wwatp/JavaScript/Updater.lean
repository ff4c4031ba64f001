import Wwatp.JavaScript.Outcomes

/-! The books of the updater of the JavaScript client: handlers, ongoing requests, heartbeats, and the journal
requests that are waited for. -/
namespace Wwatp
namespace JavaScript

/-- What `#dispatchOne` keeps of a request. Its stream is the one with the request's place in the list of all of them,
since every request gets a new stream. -/
structure Dispatch where
  backend : ℕ
  request : Dispatched
  message : ReceivedResponse := {}
  sending : Bool := true
  finished : Bool := false

structure UpdaterState where
  journalRequestWaiting : ℕ → Bool := fun _ => false
  dispatches : List Dispatch := []
  responseHandlers : Finset ℕ := ∅
  ongoingRequests : Finset ℕ := ∅
  hbTimers : Finset ℕ := ∅

/-- What happens between two steps of `#dispatchOne`. Where a response is processed, the local backend may throw. -/
inductive UpdaterStep
  | dispatch (backend : ℕ) (requestSignal : UInt8) (requestId : UInt16)
  | poll (backend : ℕ) (requestId : UInt16)
  | event (sid : ℕ) (event : TransportEvent) (localThrows : Bool)
  | sent (sid : ℕ) (heartbeats : Bool)
  | sendFailed (sid : ℕ) (localThrows : Bool)
  | heartbeat (sid : ℕ)
  | heartbeatFailed (sid : ℕ)
  | stop

/-- The cases of `processHTTP3Response` that change the local backend. -/
def appliesLocally (signal : UInt8) : Bool := signal ∈ [0x08, 0x0E, 0x10, 0x18, 0x22]

/-- Whether `processHTTP3Response` says that no journal request is waited for; nothing if it throws. -/
def journalReceived (message : ReceivedResponse) (localThrows : Bool) : Option Bool :=
  if localThrows ∧ appliesLocally message.signal then none
  else (processHTTP3Response message).map fun _ => decide (message.signal = 0x22)

namespace UpdaterState

def dispatchOne (s : UpdaterState) (backend : ℕ) (request : Dispatched) : UpdaterState :=
  { s with
    dispatches := s.dispatches ++ [{ backend := backend, request := request }]
    responseHandlers := insert s.dispatches.length s.responseHandlers
    ongoingRequests := insert s.dispatches.length s.ongoingRequests }

def modify (s : UpdaterState) (sid : ℕ) (f : Dispatch → Dispatch) : UpdaterState :=
  { s with dispatches := s.dispatches.modify sid f }

/-- `journalRequestWaiting_ = false`, if something is so. -/
def endWaiting (s : UpdaterState) (backend : ℕ) (ended : Bool) : UpdaterState :=
  { s with journalRequestWaiting :=
      Function.update s.journalRequestWaiting backend (s.journalRequestWaiting backend && !ended) }

/-- What is left of a request whose response has been processed. -/
def cleanup (s : UpdaterState) (sid : ℕ) (dispatch : Dispatch) : UpdaterState :=
  { (s.endWaiting dispatch.backend dispatch.request.isJournal).modify sid fun dispatch =>
      { dispatch with finished := true } with
    responseHandlers := s.responseHandlers.erase sid
    ongoingRequests := s.ongoingRequests.erase sid
    hbTimers := s.hbTimers.erase sid }

def handleEvent (s : UpdaterState) (sid : ℕ) (dispatch : Dispatch) (event : TransportEvent) (localThrows : Bool) :
    UpdaterState :=
  match dispatch.request.handleEvent dispatch.message event with
  | .waiting message | .threw message => s.modify sid fun dispatch => { dispatch with message := message }
  | .ready message =>
    let s := s.modify sid fun dispatch => { dispatch with message := message }
    match journalReceived message localThrows with
    | none => s
    | some received => (s.endWaiting dispatch.backend received).cleanup sid dispatch

/-- The path of a send that throws, where the response is processed as far as it has come. -/
def sendError (s : UpdaterState) (sid : ℕ) (dispatch : Dispatch) (localThrows : Bool) : UpdaterState :=
  { (s.endWaiting dispatch.backend ((journalReceived dispatch.message localThrows).getD false)).modify sid fun dispatch =>
      { dispatch with sending := false } with
    responseHandlers := s.responseHandlers.erase sid
    ongoingRequests := s.ongoingRequests.erase sid }

def step (s : UpdaterState) : UpdaterStep → UpdaterState
  | .dispatch backend requestSignal requestId => s.dispatchOne backend ⟨requestSignal, requestId, false⟩
  | .poll backend requestId =>
    -- `needToSendJournalRequest`
    if s.journalRequestWaiting backend then s
    else
      { s with journalRequestWaiting := Function.update s.journalRequestWaiting backend true }.dispatchOne backend
        ⟨0x21, requestId, true⟩
  | .event sid event localThrows =>
    match s.dispatches[sid]? with
    | none => s
    | some dispatch => if sid ∈ s.responseHandlers then s.handleEvent sid dispatch event localThrows else s
  | .sent sid heartbeats =>
    match s.dispatches[sid]? with
    | none => s
    | some dispatch =>
      if dispatch.sending then
        let s := s.modify sid fun dispatch => { dispatch with sending := false }
        if heartbeats ∧ sid ∈ s.responseHandlers then { s with hbTimers := insert sid s.hbTimers } else s
      else s
  | .sendFailed sid localThrows =>
    match s.dispatches[sid]? with
    | none => s
    | some dispatch => if dispatch.sending then s.sendError sid dispatch localThrows else s
  | .heartbeat sid =>
    match s.dispatches[sid]? with
    | none => s
    | some dispatch =>
      if dispatch.finished ∨ sid ∉ s.responseHandlers then { s with hbTimers := s.hbTimers.erase sid } else s
  | .heartbeatFailed sid =>
    { s.modify sid fun dispatch => { dispatch with finished := true } with hbTimers := s.hbTimers.erase sid }
  | .stop => { s with hbTimers := ∅ }

/-- A stream with a journal request of a backend. -/
def IsJournalOf (s : UpdaterState) (backend sid : ℕ) : Prop :=
  ∃ dispatch, s.dispatches[sid]? = some dispatch ∧ dispatch.backend = backend ∧ dispatch.request.isJournal

/-- The books agree. -/
structure Consistent (s : UpdaterState) : Prop where
  waiting : ∀ backend, s.journalRequestWaiting backend = true → ∃ sid ∈ s.ongoingRequests, s.IsJournalOf backend sid
  handlers : s.responseHandlers ⊆ s.ongoingRequests
  timers : s.hbTimers ⊆ s.ongoingRequests

/-- The send that fails is not that of the only journal request that is waited for, or what there is of its response is
one. -/
def Meets (s : UpdaterState) : UpdaterStep → Prop
  | .sendFailed sid localThrows => ∀ dispatch, s.dispatches[sid]? = some dispatch → dispatch.sending →
      dispatch.request.isJournal → s.journalRequestWaiting dispatch.backend →
        journalReceived dispatch.message localThrows = some true ∨
          ∃ other ∈ s.ongoingRequests.erase sid, s.IsJournalOf dispatch.backend other
  | _ => True

/-- The states that are reached by steps that all meet the condition. -/
inductive Reachable : UpdaterState → Prop
  | start : Reachable {}
  | next {s : UpdaterState} {step : UpdaterStep} (prior : Reachable s) (meets : s.Meets step) : Reachable (s.step step)

/-- Timers are only set for requests that have been sent. -/
structure Sound (s : UpdaterState) : Prop extends Consistent s where
  sent : ∀ sid ∈ s.hbTimers, ∃ dispatch, s.dispatches[sid]? = some dispatch ∧ dispatch.sending = false

section Steps

variable {s : UpdaterState} {sid backend : ℕ} {dispatch : Dispatch} {f : Dispatch → Dispatch}

theorem getElem?_modify (s : UpdaterState) (sid other : ℕ) (f : Dispatch → Dispatch) :
    (s.modify sid f).dispatches[other]? = s.dispatches[other]?.map fun dispatch =>
      if sid = other then f dispatch else dispatch := List.getElem?_modify ..

/-- What kind of request a stream has never changes. -/
theorem isJournalOf_modify (hKeeps : ∀ dispatch, (f dispatch).backend = dispatch.backend ∧
    (f dispatch).request = dispatch.request) {other : ℕ} (h : s.IsJournalOf backend other) :
    (s.modify sid f).IsJournalOf backend other := by
  obtain ⟨dispatch, hDispatch, rfl, hJournal⟩ := h
  refine ⟨if sid = other then f dispatch else dispatch, by rw [getElem?_modify, hDispatch, Option.map_some], ?_⟩
  split_ifs
  · rw [(hKeeps dispatch).1, (hKeeps dispatch).2]
    exact ⟨rfl, hJournal⟩
  · exact ⟨rfl, hJournal⟩

theorem Sound.modify (h : Sound s) (sid : ℕ) (hKeeps : ∀ dispatch, (f dispatch).backend = dispatch.backend ∧
    (f dispatch).request = dispatch.request) (hSent : ∀ dispatch, dispatch.sending = false → (f dispatch).sending = false) :
    Sound (s.modify sid f) where
  waiting backend hWaiting := by
    obtain ⟨other, hOngoing, hJournal⟩ := h.waiting backend hWaiting
    exact ⟨other, hOngoing, isJournalOf_modify hKeeps hJournal⟩
  handlers := h.handlers
  timers := h.timers
  sent other hTimer := by
    obtain ⟨dispatch, hDispatch, hSending⟩ := h.sent other hTimer
    refine ⟨if sid = other then f dispatch else dispatch, by rw [getElem?_modify, hDispatch, Option.map_some], ?_⟩
    split_ifs
    · exact hSent dispatch hSending
    · exact hSending

theorem endWaiting_eq_true {ended : Bool} {other : ℕ} :
    (s.endWaiting backend ended).journalRequestWaiting other = true ↔
      s.journalRequestWaiting other = true ∧ (other = backend → ended = false) := by
  by_cases hOther : other = backend
  · subst hOther
    simp [endWaiting]
  · simp [endWaiting, hOther]

theorem Sound.endWaiting (h : Sound s) (backend : ℕ) (ended : Bool) : Sound (s.endWaiting backend ended) where
  waiting other hWaiting := h.waiting other (endWaiting_eq_true.mp hWaiting).1
  handlers := h.handlers
  timers := h.timers
  sent := h.sent

/-- A new request, and a backend that waits for it if it is for the journal. -/
theorem Sound.dispatchOne (h : Sound s) {waiting : ℕ → Bool} {request : Dispatched}
    (hWaiting : ∀ other, waiting other = true → s.journalRequestWaiting other = true ∨ other = backend ∧ request.isJournal) :
    Sound ({ s with journalRequestWaiting := waiting }.dispatchOne backend request) where
  waiting other hOther := by
    rcases hWaiting other hOther with hBefore | ⟨rfl, hJournal⟩
    · obtain ⟨sid, hOngoing, dispatch, hDispatch, hKind⟩ := h.waiting other hBefore
      obtain ⟨hLength, -⟩ := List.getElem?_eq_some_iff.mp hDispatch
      exact ⟨sid, Finset.mem_insert_of_mem hOngoing, dispatch, (List.getElem?_append_left hLength).trans hDispatch, hKind⟩
    · exact ⟨s.dispatches.length, Finset.mem_insert_self .., _, List.getElem?_concat_length, rfl, hJournal⟩
  handlers := Finset.insert_subset_insert _ h.handlers
  timers := h.timers.trans (Finset.subset_insert ..)
  sent sid hTimer := by
    obtain ⟨dispatch, hDispatch, hSending⟩ := h.sent sid hTimer
    obtain ⟨hLength, -⟩ := List.getElem?_eq_some_iff.mp hDispatch
    exact ⟨dispatch, (List.getElem?_append_left hLength).trans hDispatch, hSending⟩

theorem Sound.cleanup (h : Sound s) {current : Dispatch} (hCurrent : s.dispatches[sid]? = some current)
    (hBackend : current.backend = dispatch.backend) (hRequest : current.request = dispatch.request) :
    Sound (s.cleanup sid dispatch) := by
  have hModified := (h.endWaiting dispatch.backend dispatch.request.isJournal).modify sid
    (f := fun dispatch => { dispatch with finished := true }) (fun _ => ⟨rfl, rfl⟩) fun _ => id
  refine ⟨⟨fun backend hWaiting => ?_, Finset.erase_subset_erase _ h.handlers, Finset.erase_subset_erase _ h.timers⟩,
    fun other hTimer => hModified.sent other (Finset.mem_of_mem_erase hTimer)⟩
  obtain ⟨other, hOngoing, hJournal⟩ := h.waiting backend (endWaiting_eq_true.mp hWaiting).1
  have hSame : (s.modify sid fun dispatch => { dispatch with finished := true }).IsJournalOf backend other :=
    isJournalOf_modify (by exact fun _ => ⟨rfl, rfl⟩) hJournal
  refine ⟨other, Finset.mem_erase.mpr ⟨?_, hOngoing⟩, hSame⟩
  -- the request itself is not the one that is waited for any more
  rintro rfl
  obtain ⟨found, hFound, rfl, hKind⟩ := hJournal
  obtain rfl := Option.some.inj (hCurrent.symm.trans hFound)
  rw [hRequest, (endWaiting_eq_true.mp hWaiting).2 hBackend] at hKind
  cases hKind

theorem Sound.handleEvent (h : Sound s) (hDispatch : s.dispatches[sid]? = some dispatch) (event : TransportEvent)
    (localThrows : Bool) : Sound (s.handleEvent sid dispatch event localThrows) := by
  have hMessage (message : ReceivedResponse) : Sound (s.modify sid fun dispatch => { dispatch with message := message }) :=
    h.modify sid (fun _ => ⟨rfl, rfl⟩) fun _ => id
  rw [UpdaterState.handleEvent]
  split
  · exact hMessage _
  · exact hMessage _
  · next message _ =>
      dsimp only
      split
      · exact hMessage message
      · have hCurrent : (s.modify sid fun dispatch => { dispatch with message := message }).dispatches[sid]? =
            some { dispatch with message := message } :=
          (getElem?_modify ..).trans (by rw [hDispatch, Option.map_some, if_pos rfl])
        exact ((hMessage message).endWaiting _ _).cleanup hCurrent rfl rfl

/-- A send that fails: the condition says who else is waited for. -/
theorem Sound.sendError (h : Sound s) (hDispatch : s.dispatches[sid]? = some dispatch) (hSending : dispatch.sending)
    {localThrows : Bool} (hMeets : s.Meets (.sendFailed sid localThrows)) :
    Sound (s.sendError sid dispatch localThrows) := by
  have hModified := (h.endWaiting dispatch.backend ((journalReceived dispatch.message localThrows).getD false)).modify sid
    (f := fun dispatch => { dispatch with sending := false }) (fun _ => ⟨rfl, rfl⟩) fun _ _ => rfl
  refine ⟨⟨fun backend hWaiting => ?_, Finset.erase_subset_erase _ h.handlers, fun other hTimer => ?_⟩, hModified.sent⟩
  · obtain ⟨hBefore, hEnded⟩ := endWaiting_eq_true.mp hWaiting
    obtain ⟨other, hOngoing, hJournal⟩ := h.waiting backend hBefore
    have hKeep : ∃ other ∈ s.ongoingRequests.erase sid, s.IsJournalOf backend other := by
      by_cases hOther : other = sid
      · subst hOther
        obtain ⟨found, hFound, rfl, hKind⟩ := hJournal
        obtain rfl := Option.some.inj (hDispatch.symm.trans hFound)
        refine (hMeets dispatch hDispatch hSending hKind hBefore).resolve_left fun hReceived => ?_
        have hNot := hEnded rfl
        rw [hReceived] at hNot
        cases hNot
      · exact ⟨other, Finset.mem_erase.mpr ⟨hOther, hOngoing⟩, hJournal⟩
    obtain ⟨kept, hKept, hKind⟩ := hKeep
    have hSame : (s.modify sid fun dispatch => { dispatch with sending := false }).IsJournalOf backend kept :=
      isJournalOf_modify (by exact fun _ => ⟨rfl, rfl⟩) hKind
    exact ⟨kept, hKept, hSame⟩
  · refine Finset.mem_erase.mpr ⟨?_, h.timers hTimer⟩
    rintro rfl
    obtain ⟨found, hFound, hSent⟩ := h.sent other hTimer
    obtain rfl := Option.some.inj (hDispatch.symm.trans hFound)
    exact absurd (hSent.symm.trans hSending) (by decide)

theorem Sound.step (h : Sound s) {step : UpdaterStep} (hMeets : s.Meets step) : Sound (s.step step) := by
  cases step with
  | dispatch backend requestSignal requestId => exact h.dispatchOne fun other hWaiting => .inl hWaiting
  | poll backend requestId =>
      rw [UpdaterState.step]
      split_ifs
      · exact h
      · refine h.dispatchOne fun other hWaiting => ?_
        by_cases hOther : other = backend
        · exact .inr ⟨hOther, rfl⟩
        · rw [Function.update_of_ne hOther] at hWaiting
          exact .inl hWaiting
  | event sid event localThrows =>
      rw [UpdaterState.step]
      split
      · exact h
      · next hDispatch =>
          split_ifs
          · exact h.handleEvent hDispatch event localThrows
          · exact h
  | sent sid heartbeats =>
      rw [UpdaterState.step]
      split
      · exact h
      · next dispatch hDispatch =>
          split_ifs
          · have hSent : Sound (s.modify sid fun dispatch => { dispatch with sending := false }) :=
              h.modify sid (fun _ => ⟨rfl, rfl⟩) fun _ _ => rfl
            dsimp only
            split_ifs with hTimer
            · refine ⟨⟨hSent.waiting, hSent.handlers, Finset.insert_subset (hSent.handlers hTimer.2) hSent.timers⟩,
                fun other hOther => ?_⟩
              rcases Finset.mem_insert.mp hOther with rfl | hOther
              · exact ⟨_, (getElem?_modify ..).trans (by rw [hDispatch, Option.map_some, if_pos rfl]), rfl⟩
              · exact hSent.sent other hOther
            · exact hSent
          · exact h
  | sendFailed sid localThrows =>
      rw [UpdaterState.step]
      split
      · exact h
      · next dispatch hDispatch =>
          split_ifs with hSending
          · exact h.sendError hDispatch hSending hMeets
          · exact h
  | heartbeat sid =>
      rw [UpdaterState.step]
      split
      · exact h
      · split_ifs
        · exact ⟨⟨h.waiting, h.handlers, (Finset.erase_subset ..).trans h.timers⟩,
            fun other hOther => h.sent other (Finset.mem_of_mem_erase hOther)⟩
        · exact h
  | heartbeatFailed sid =>
      have hFinished : Sound (s.modify sid fun dispatch => { dispatch with finished := true }) :=
        h.modify sid (fun _ => ⟨rfl, rfl⟩) fun _ => id
      exact ⟨⟨hFinished.waiting, hFinished.handlers, (Finset.erase_subset ..).trans hFinished.timers⟩,
        fun other hOther => hFinished.sent other (Finset.mem_of_mem_erase hOther)⟩
  | stop => exact ⟨⟨h.waiting, h.handlers, Finset.empty_subset _⟩, nofun⟩

end Steps

end UpdaterState

end JavaScript
end Wwatp
