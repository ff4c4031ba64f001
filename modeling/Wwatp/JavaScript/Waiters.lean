import Mathlib

/-! Which request settles a promise of the JavaScript client. All backends take their request ids from one counter of
16 bits, and a backend finds the waiter for a response by the id of its request. -/
namespace Wwatp
namespace JavaScript

/-- The backends and the updater. A request is known by its number, and a stream by its place among the streams.
`settled` has each waiter that has been settled with the request that has done it, and `overwritten` the waiters that
have been replaced while their requests were not finished. -/
structure BackendsState where
  globalRequestId : ℕ := 1
  requests : List (ℕ × ℕ) := []
  pendingRequests : Finset ℕ := ∅
  streams : List ℕ := []
  ongoingRequests : Finset ℕ := ∅
  waits : ℕ → ℕ → Option ℕ := fun _ _ => none
  settled : List (ℕ × ℕ) := []
  overwritten : List ℕ := []

/-- What happens: a call, a request of which nobody waits (for a static asset or a page tree), a journal request, a call
that throws after it has taken an id, the dispatch of a request, and a response that is processed. -/
inductive BackendsStep
  | call (backend : ℕ)
  | request (backend : ℕ)
  | poll (backend : ℕ)
  | throws
  | dispatch (number : ℕ)
  | respond (sid : ℕ)

/-- `_nextRequestId` -/
def nextRequestId (globalRequestId : ℕ) : ℕ :=
  let next := (globalRequestId + 1) % 2 ^ 16
  if next = 0 then 1 else next

/-- The waiters with another one for an id, or with none. -/
def setWait (waits : ℕ → ℕ → Option ℕ) (backend reqId : ℕ) (waiter : Option ℕ) : ℕ → ℕ → Option ℕ :=
  Function.update waits backend (Function.update (waits backend) reqId waiter)

theorem setWait_eq_some {waits : ℕ → ℕ → Option ℕ} {backend reqId backend' reqId' number : ℕ} {waiter : Option ℕ}
    (h : setWait waits backend reqId waiter backend' reqId' = some number) :
    backend' = backend ∧ reqId' = reqId ∧ waiter = some number ∨
      (backend', reqId') ≠ (backend, reqId) ∧ waits backend' reqId' = some number := by
  rw [setWait] at h
  by_cases hBackend : backend' = backend
  · subst hBackend
    rw [Function.update_self] at h
    by_cases hId : reqId' = reqId
    · subst hId
      rw [Function.update_self] at h
      exact .inl ⟨rfl, rfl, h⟩
    · rw [Function.update_of_ne hId] at h
      exact .inr ⟨fun hPair => hId (Prod.mk.inj hPair).2, h⟩
  · rw [Function.update_of_ne hBackend] at h
    exact .inr ⟨fun hPair => hBackend (Prod.mk.inj hPair).1, h⟩

namespace BackendsState

/-- A request that is pending or ongoing. -/
def Unfinished (s : BackendsState) (number : ℕ) : Prop :=
  number ∈ s.pendingRequests ∨ ∃ sid ∈ s.ongoingRequests, s.streams[sid]? = some number

instance (s : BackendsState) (number : ℕ) : Decidable (s.Unfinished number) :=
  inferInstanceAs (Decidable (number ∈ s.pendingRequests ∨ ∃ sid ∈ s.ongoingRequests, s.streams[sid]? = some number))

/-- `this.pendingRequests_.push(msg)`, with the next id. -/
def push (s : BackendsState) (backend : ℕ) : BackendsState :=
  { s with
    globalRequestId := nextRequestId s.globalRequestId
    requests := s.requests ++ [(backend, nextRequestId s.globalRequestId)]
    pendingRequests := insert s.requests.length s.pendingRequests }

/-- `this.waits_.set(reqId, …)` -/
def wait (s : BackendsState) (backend reqId number : ℕ) : BackendsState :=
  { s with
    waits := setWait s.waits backend reqId (some number)
    overwritten := s.overwritten ++ ((s.waits backend reqId).filter fun waiter => decide (s.Unfinished waiter)).toList }

def dispatchOne (s : BackendsState) (number : ℕ) : BackendsState :=
  if number ∈ s.pendingRequests then
    { s with
      pendingRequests := s.pendingRequests.erase number
      streams := s.streams ++ [number]
      ongoingRequests := insert s.streams.length s.ongoingRequests }
  else s

/-- `processHTTP3Response`: the waiter with the id of the request, and the updater forgets the request. -/
def processResponse (s : BackendsState) (sid number backend reqId : ℕ) : BackendsState :=
  { s with
    ongoingRequests := s.ongoingRequests.erase sid
    waits := setWait s.waits backend reqId none
    settled := s.settled ++ ((s.waits backend reqId).map fun waiter => (waiter, number)).toList }

def step (blockingMode : ℕ → Bool) (s : BackendsState) : BackendsStep → BackendsState
  | .call backend =>
    if blockingMode backend then (s.push backend).wait backend (nextRequestId s.globalRequestId) s.requests.length
    else s.push backend
  | .request backend => s.push backend
  | .poll backend => (s.push backend).dispatchOne s.requests.length
  | .throws => { s with globalRequestId := nextRequestId s.globalRequestId }
  | .dispatch number => s.dispatchOne number
  | .respond sid =>
    match s.streams[sid]? with
    | none => s
    | some number =>
      match s.requests[number]? with
      | none => s
      | some (backend, reqId) => if sid ∈ s.ongoingRequests then s.processResponse sid number backend reqId else s

/-- Every waiter has been settled by its own request, and none has been overwritten. -/
structure Paired (s : BackendsState) : Prop where
  own : ∀ answer ∈ s.settled, answer.2 = answer.1
  kept : s.overwritten = []

/-- The next id is not that of a request of the same backend that somebody waits for, and if the call waits itself, not
that of any unfinished request of the backend. -/
def Meets (blockingMode : ℕ → Bool) (s : BackendsState) : BackendsStep → Prop
  | .call backend =>
    if blockingMode backend then
      ∀ number, s.Unfinished number → s.requests[number]? ≠ some (backend, nextRequestId s.globalRequestId)
    else s.waits backend (nextRequestId s.globalRequestId) = none
  | .request backend | .poll backend => s.waits backend (nextRequestId s.globalRequestId) = none
  | _ => True

/-- The states that are reached by steps that all meet the condition. -/
inductive Reachable (blockingMode : ℕ → Bool) : BackendsState → Prop
  | start : Reachable blockingMode {}
  | next {s : BackendsState} {step : BackendsStep} (prior : Reachable blockingMode s) (meets : s.Meets blockingMode step) :
      Reachable blockingMode (s.step blockingMode step)

/-- A waiter is that of an unfinished request, the only one of its backend with the id. -/
structure Sound (s : BackendsState) : Prop extends Paired s where
  waiter : ∀ {backend reqId number}, s.waits backend reqId = some number →
    s.Unfinished number ∧ s.requests[number]? = some (backend, reqId)
  alone : ∀ {backend reqId number}, s.waits backend reqId = some number →
    ∀ other, s.Unfinished other → s.requests[other]? = some (backend, reqId) → other = number
  bound : ∀ number, s.Unfinished number → number < s.requests.length

section Steps

variable {s : BackendsState} {backend reqId number other sid : ℕ}

theorem unfinished_push : (s.push backend).Unfinished other ↔ other = s.requests.length ∨ s.Unfinished other := by
  rw [Unfinished, Unfinished, push, Finset.mem_insert, or_assoc]

theorem requests_push (h : other < s.requests.length) : (s.push backend).requests[other]? = s.requests[other]? :=
  List.getElem?_append_left h

theorem Sound.push (h : Sound s) (hFree : s.waits backend (nextRequestId s.globalRequestId) = none) :
    Sound (s.push backend) where
  own := h.own
  kept := h.kept
  waiter hWaits := by
    obtain ⟨hUnfinished, hRequest⟩ := h.waiter hWaits
    exact ⟨unfinished_push.mpr (.inr hUnfinished), (requests_push (h.bound _ hUnfinished)).trans hRequest⟩
  alone {backend' reqId number} hWaits other hOther hRequest := by
    rcases unfinished_push.mp hOther with rfl | hOld
    · have hNew : (s.push backend).requests[s.requests.length]? = some (backend, nextRequestId s.globalRequestId) :=
        List.getElem?_concat_length
      obtain ⟨rfl, rfl⟩ := Prod.mk.inj (Option.some.inj (hNew.symm.trans hRequest))
      exact absurd (hFree.symm.trans hWaits) nofun
    · rw [requests_push (h.bound _ hOld)] at hRequest
      exact h.alone hWaits other hOld hRequest
  bound other hOther := by
    have hLength : (s.push backend).requests.length = s.requests.length + 1 := List.length_append
    rcases unfinished_push.mp hOther with rfl | hOld
    · omega
    · have := h.bound other hOld
      omega

/-- A waiter whose id no other unfinished request of the backend has. -/
theorem Sound.wait (h : Sound s) (hFree : s.waits backend reqId = none) (hUnfinished : s.Unfinished number)
    (hRequest : s.requests[number]? = some (backend, reqId))
    (hAlone : ∀ other, s.Unfinished other → s.requests[other]? = some (backend, reqId) → other = number) :
    Sound (s.wait backend reqId number) := by
  refine ⟨⟨h.own, ?_⟩, fun hSome => ?_, fun hSome => ?_, h.bound⟩
  · rw [BackendsState.wait, hFree, h.kept]
    rfl
  · rcases setWait_eq_some hSome with ⟨rfl, rfl, hSame⟩ | ⟨-, hOld⟩
    · obtain rfl := Option.some.inj hSame
      exact ⟨hUnfinished, hRequest⟩
    · exact h.waiter hOld
  · rcases setWait_eq_some hSome with ⟨rfl, rfl, hSame⟩ | ⟨-, hOld⟩
    · obtain rfl := Option.some.inj hSame
      exact hAlone
    · exact h.alone hOld

theorem unfinished_dispatchOne : (s.dispatchOne number).Unfinished other ↔ s.Unfinished other := by
  rw [dispatchOne]
  split_ifs with hPending
  · constructor
    · rintro (hOther | ⟨sid, hSid, hStream⟩)
      · exact .inl (Finset.mem_of_mem_erase hOther)
      · rcases Nat.lt_or_ge sid s.streams.length with hLess | hNot
        · rw [List.getElem?_append_left hLess] at hStream
          refine .inr ⟨sid, Finset.mem_of_mem_insert_of_ne hSid hLess.ne, hStream⟩
        · rw [List.getElem?_append_right hNot] at hStream
          obtain rfl := List.mem_singleton.mp (List.mem_of_getElem? hStream)
          exact .inl hPending
    · rintro (hOther | ⟨sid, hSid, hStream⟩)
      · by_cases hSame : other = number
        · subst hSame
          exact .inr ⟨s.streams.length, Finset.mem_insert_self .., List.getElem?_concat_length⟩
        · exact .inl (Finset.mem_erase.mpr ⟨hSame, hOther⟩)
      · obtain ⟨hLess, -⟩ := List.getElem?_eq_some_iff.mp hStream
        exact .inr ⟨sid, Finset.mem_insert_of_mem hSid, (List.getElem?_append_left hLess).trans hStream⟩
  · exact Iff.rfl

theorem Sound.dispatchOne (h : Sound s) (number : ℕ) : Sound (s.dispatchOne number) := by
  have hSame : (s.dispatchOne number).settled = s.settled ∧ (s.dispatchOne number).overwritten = s.overwritten ∧
      (s.dispatchOne number).waits = s.waits ∧ (s.dispatchOne number).requests = s.requests := by
    rw [BackendsState.dispatchOne]
    split_ifs <;> exact ⟨rfl, rfl, rfl, rfl⟩
  obtain ⟨hSettled, hOverwritten, hWaits, hRequests⟩ := hSame
  refine ⟨⟨?_, ?_⟩, fun hSome => ?_, fun hSome other hOther hRequest => ?_, fun other hOther => ?_⟩
  · rw [hSettled]
    exact h.own
  · rw [hOverwritten]
    exact h.kept
  · rw [hWaits] at hSome
    rw [unfinished_dispatchOne, hRequests]
    exact h.waiter hSome
  · rw [hWaits] at hSome
    rw [hRequests] at hRequest
    exact h.alone hSome other (unfinished_dispatchOne.mp hOther) hRequest
  · rw [hRequests]
    exact h.bound other (unfinished_dispatchOne.mp hOther)

/-- The waiter for a response is that of its own request. -/
theorem Sound.processResponse (h : Sound s) (hSid : sid ∈ s.ongoingRequests) (hStream : s.streams[sid]? = some number)
    (hRequest : s.requests[number]? = some (backend, reqId)) :
    Sound (s.processResponse sid number backend reqId) := by
  have hUnfinished : s.Unfinished number := .inr ⟨sid, hSid, hStream⟩
  have hLess {other : ℕ} (hOther : (s.processResponse sid number backend reqId).Unfinished other) : s.Unfinished other :=
    hOther.imp id fun ⟨sid', hSid', hStream'⟩ => ⟨sid', Finset.mem_of_mem_erase hSid', hStream'⟩
  have hWaits {backend' reqId' number' : ℕ}
      (hSome : (s.processResponse sid number backend reqId).waits backend' reqId' = some number') :
      (backend', reqId') ≠ (backend, reqId) ∧ s.waits backend' reqId' = some number' :=
    (setWait_eq_some hSome).resolve_left fun hNone => by cases hNone.2.2
  refine ⟨⟨fun answer hAnswer => ?_, h.kept⟩, fun hSome => ?_, fun hSome other hOther => ?_, fun other hOther => ?_⟩
  · rcases List.mem_append.mp hAnswer with hOld | hNew
    · exact h.own answer hOld
    · obtain ⟨waiter, hWaiter, rfl⟩ := Option.map_eq_some_iff.mp (Option.mem_toList.mp hNew)
      exact h.alone hWaiter number hUnfinished hRequest
  · obtain ⟨hPair, hOld⟩ := hWaits hSome
    obtain ⟨hWaiter, hFound⟩ := h.waiter hOld
    refine ⟨hWaiter.imp id fun ⟨sid', hSid', hStream'⟩ => ⟨sid', Finset.mem_erase.mpr ⟨?_, hSid'⟩, hStream'⟩, hFound⟩
    rintro rfl
    obtain rfl := Option.some.inj (hStream.symm.trans hStream')
    exact hPair (Option.some.inj (hFound.symm.trans hRequest))
  · exact h.alone (hWaits hSome).2 other (hLess hOther)
  · exact h.bound other (hLess hOther)

theorem Sound.step (h : Sound s) {blockingMode : ℕ → Bool} {step : BackendsStep} (hMeets : s.Meets blockingMode step) :
    Sound (s.step blockingMode step) := by
  cases step with
  | call backend =>
      rw [BackendsState.step]
      rw [Meets] at hMeets
      split_ifs at hMeets ⊢
      · have hFree : s.waits backend (nextRequestId s.globalRequestId) = none := by
          rw [Option.eq_none_iff_forall_ne_some]
          intro waiter hWaiter
          obtain ⟨hUnfinished, hRequest⟩ := h.waiter hWaiter
          exact hMeets waiter hUnfinished hRequest
        refine (h.push hFree).wait hFree (unfinished_push.mpr (.inl rfl)) List.getElem?_concat_length ?_
        intro other hOther hRequest
        refine (unfinished_push.mp hOther).resolve_right fun hOld => ?_
        rw [requests_push (h.bound other hOld)] at hRequest
        exact hMeets other hOld hRequest
      · exact h.push hMeets
  | request backend => exact h.push hMeets
  | poll backend => exact (h.push hMeets).dispatchOne _
  | throws => exact ⟨⟨h.own, h.kept⟩, h.waiter, h.alone, h.bound⟩
  | dispatch number => exact h.dispatchOne number
  | respond sid =>
      rw [BackendsState.step]
      split
      · exact h
      · next hStream =>
          split
          · exact h
          · next hRequest =>
              split_ifs with hSid
              · exact h.processResponse hSid hStream hRequest
              · exact h

end Steps

/-- In every state that is reached each promise has been settled by its own request only, and no waiter has been lost. -/
theorem paired_of_reachable {blockingMode : ℕ → Bool} {s : BackendsState} (h : Reachable blockingMode s) : Paired s := by
  have hSound : Sound s := by
    induction h with
    | start => exact ⟨⟨nofun, rfl⟩, nofun, nofun, by rintro number (hPending | ⟨sid, hSid, -⟩) <;> simp at *⟩
    | next prior hMeets ih => exact ih.step hMeets
  exact hSound.toPaired

theorem paired_call : Paired ((({} : BackendsState).step (fun _ => true) (.call 0)).step (fun _ => true) (.dispatch 0)) :=
  @paired_of_reachable (fun _ => true) _ (.next (.next .start (by
    rintro number (hPending | ⟨sid, hSid, -⟩) <;> simp at *)) trivial)

section Cycle

variable {s : BackendsState} {backend waiter : ℕ}

/-- A journal request that gets the id of a waiter settles it. -/
theorem settled_of_poll (blockingMode : ℕ → Bool)
    (hWaits : s.waits backend (nextRequestId s.globalRequestId) = some waiter) :
    (waiter, s.requests.length) ∈
      ((s.step blockingMode (.poll backend)).step blockingMode (.respond s.streams.length)).settled := by
  have hPoll : s.step blockingMode (.poll backend) =
      { s.push backend with
        pendingRequests := (s.push backend).pendingRequests.erase s.requests.length
        streams := s.streams ++ [s.requests.length]
        ongoingRequests := insert s.streams.length s.ongoingRequests } :=
    if_pos (Finset.mem_insert_self ..)
  have hStream : (s.step blockingMode (.poll backend)).streams[s.streams.length]? = some s.requests.length := by
    rw [hPoll]
    exact List.getElem?_concat_length
  have hRequest : (s.step blockingMode (.poll backend)).requests[s.requests.length]? =
      some (backend, nextRequestId s.globalRequestId) := by
    rw [hPoll]
    exact List.getElem?_concat_length
  have hOngoing : s.streams.length ∈ (s.step blockingMode (.poll backend)).ongoingRequests := by
    rw [hPoll]
    exact Finset.mem_insert_self ..
  have hSame : (s.step blockingMode (.poll backend)).waits = s.waits := by
    rw [hPoll]
    rfl
  generalize s.step blockingMode (.poll backend) = polled at hStream hRequest hOngoing hSame
  rw [step, hStream]
  dsimp only
  rw [hRequest]
  dsimp only
  rw [if_pos hOngoing, processResponse, hSame, hWaits]
  exact List.mem_append_right _ List.mem_cons_self

/-- Calls of another backend that nobody waits for only take ids. -/
theorem run_others (n : ℕ) (s : BackendsState) :
    ((List.replicate n (.call 1)).foldl (step (· == 0)) s).waits = s.waits ∧
      ((List.replicate n (.call 1)).foldl (step (· == 0)) s).requests.length = s.requests.length + n ∧
      ((List.replicate n (.call 1)).foldl (step (· == 0)) s).globalRequestId = nextRequestId^[n] s.globalRequestId := by
  induction n generalizing s with
  | zero => exact ⟨rfl, rfl, rfl⟩
  | succ n ih =>
      obtain ⟨hWaits, hLength, hId⟩ := ih (s.push 1)
      have hRequests : (s.push 1).requests.length = s.requests.length + 1 := List.length_append
      rw [hRequests] at hLength
      exact ⟨hWaits, hLength.trans (by omega), hId⟩

theorem nextRequestId_eq {id : ℕ} (h : 1 ≤ id ∧ id < 2 ^ 16) : nextRequestId id = id % (2 ^ 16 - 1) + 1 := by
  simp only [nextRequestId]
  split_ifs <;> omega

/-- The ids come round. -/
theorem nextRequestId_iterate {id : ℕ} (h : 1 ≤ id ∧ id < 2 ^ 16) (n : ℕ) :
    nextRequestId^[n] id = (id - 1 + n) % (2 ^ 16 - 1) + 1 := by
  induction n with
  | zero =>
      rw [Function.iterate_zero, id_eq, Nat.add_zero]
      omega
  | succ n ih =>
      rw [Function.iterate_succ_apply', ih, nextRequestId_eq (by omega)]
      omega

/-- A call waits for its response while another backend takes all other ids. -/
theorem not_paired_of_cycle {n : ℕ} (hCycle : nextRequestId^[n] 2 = 1) : ¬∀ (blockingMode : ℕ → Bool)
    (steps : List BackendsStep), Paired (steps.foldl (step blockingMode) {}) := by
  intro h
  obtain ⟨hWaits, hLength, hId⟩ := run_others n (step (· == 0) {} (.call 0))
  obtain ⟨hOwn, -⟩ := h (· == 0) (.call 0 :: List.replicate n (.call 1) ++
    [.poll 0, .respond ((List.replicate n (.call 1)).foldl (step (· == 0)) (step (· == 0) {} (.call 0))).streams.length])
  rw [List.cons_append, List.foldl_cons, List.foldl_append] at hOwn
  generalize (List.replicate n (.call 1)).foldl (step (· == 0)) (step (· == 0) {} (.call 0)) = s
    at hOwn hWaits hLength hId
  have hWaiter : s.waits 0 (nextRequestId s.globalRequestId) = some 0 := by
    rw [hWaits, hId.trans hCycle]
    decide
  have hSettled := hOwn _ (settled_of_poll (· == 0) hWaiter)
  have hOne : (step (· == 0) {} (.call 0)).requests.length = 1 := rfl
  rw [hLength, hOne] at hSettled
  omega

theorem not_paired_cycle : ¬∀ (blockingMode : ℕ → Bool) (steps : List BackendsStep),
    Paired (steps.foldl (step blockingMode) {}) :=
  not_paired_of_cycle ((nextRequestId_iterate (by decide) 65534).trans (by decide))

end Cycle

end BackendsState

end JavaScript
end Wwatp
