import Wwatp.Client.Blocking

/-! Which response a blocking call returns: every response wakes the call that waits, and
those with a `bool` share one slot. -/
namespace Wwatp

open Cxx

namespace BlockingClient

/-- Every call that waited got what the response to its own request carried. -/
def OwnAnswers (s : BlockingClient) : Prop :=
  ∀ r ∈ s.returned, ∃ request, r.request = some request ∧ (request, r.value) ∈ s.answered

/-- The response to the request of the call has been handled. -/
def IsAnswered (s : BlockingClient) (c : CallInProgress) : Prop :=
  ∃ request ∈ c.request, request ∈ s.answered.map Prod.fst

/-- No response is signalled to a waiting call whose own response has not been stored,
and none changes `boolResponse` between the store of a call's own response and its read. -/
def SparesCaller (s : BlockingClient) : Action → Prop
  | .responseSignal => ∀ c ∈ s.caller, c.phase = .waiting → s.IsAnswered c
  | .store _ (.success result) =>
    ∀ c ∈ s.caller, s.IsAnswered c → c.call.slot = .boolResponse → result = s.boolResponse
  | _ => True

instance (s : BlockingClient) (c : CallInProgress) : Decidable (s.IsAnswered c) :=
  inferInstanceAs (Decidable (∃ request ∈ c.request, _))

instance (s : BlockingClient) (action : Action) : Decidable (s.SparesCaller action) := by
  cases action with
  | store request reply => cases reply <;> unfold SparesCaller <;> infer_instance
  | _ => unfold SparesCaller; infer_instance

/-- Requests are numbered apart, and each is answered at most once. -/
structure Numbered (nextRequest : ℕ) (outstanding : List (ℕ × Call))
    (answered : List (ℕ × Reply)) : Prop where
  outstanding_lt : ∀ e ∈ outstanding, e.1 < nextRequest
  answered_lt : ∀ a ∈ answered, a.1 < nextRequest
  outstanding_inj : ∀ e ∈ outstanding, ∀ e' ∈ outstanding, e.1 = e'.1 → e = e'
  answered_inj : ∀ a ∈ answered, ∀ a' ∈ answered, a.1 = a'.1 → a = a'
  not_answered : ∀ e ∈ outstanding, ∀ a ∈ answered, e.1 ≠ a.1

namespace Numbered

variable {nextRequest : ℕ} {outstanding : List (ℕ × Call)} {answered : List (ℕ × Reply)}

theorem queue (h : Numbered nextRequest outstanding answered) (call : Call) :
    Numbered (nextRequest + 1) (outstanding ++ [(nextRequest, call)]) answered where
  outstanding_lt := by
    intro e hMem
    rcases List.mem_append.mp hMem with hOld | hNew
    · exact Nat.lt_succ_of_lt (h.outstanding_lt e hOld)
    · obtain rfl := List.mem_singleton.mp hNew
      exact Nat.lt_succ_self _
  answered_lt := fun a hMem => Nat.lt_succ_of_lt (h.answered_lt a hMem)
  outstanding_inj := by
    intro e hMem e' hMem' hKey
    rcases List.mem_append.mp hMem with hOld | hNew <;>
      rcases List.mem_append.mp hMem' with hOld' | hNew'
    · exact h.outstanding_inj e hOld e' hOld' hKey
    · obtain rfl := List.mem_singleton.mp hNew'
      exact absurd hKey (h.outstanding_lt e hOld).ne
    · obtain rfl := List.mem_singleton.mp hNew
      exact absurd hKey (h.outstanding_lt e' hOld').ne'
    · rw [List.mem_singleton.mp hNew, List.mem_singleton.mp hNew']
  answered_inj := h.answered_inj
  not_answered := by
    intro e hMem a hAnswered
    rcases List.mem_append.mp hMem with hOld | hNew
    · exact h.not_answered e hOld a hAnswered
    · obtain rfl := List.mem_singleton.mp hNew
      exact (h.answered_lt a hAnswered).ne'

theorem answer (h : Numbered nextRequest outstanding answered) {request : ℕ} {call : Call}
    (hSent : (request, call) ∈ outstanding) (reply : Reply) :
    Numbered nextRequest (outstanding.filter (·.1 ≠ request)) (answered ++ [(request, reply)]) where
  outstanding_lt := fun e hMem => h.outstanding_lt e (List.mem_of_mem_filter hMem)
  answered_lt := by
    intro a hMem
    rcases List.mem_append.mp hMem with hOld | hNew
    · exact h.answered_lt a hOld
    · obtain rfl := List.mem_singleton.mp hNew
      exact h.outstanding_lt _ hSent
  outstanding_inj := fun e hMem e' hMem' =>
    h.outstanding_inj e (List.mem_of_mem_filter hMem) e' (List.mem_of_mem_filter hMem')
  answered_inj := by
    intro a hMem a' hMem' hKey
    rcases List.mem_append.mp hMem with hOld | hNew <;>
      rcases List.mem_append.mp hMem' with hOld' | hNew'
    · exact h.answered_inj a hOld a' hOld' hKey
    · obtain rfl := List.mem_singleton.mp hNew'
      exact absurd hKey.symm (h.not_answered _ hSent a hOld)
    · obtain rfl := List.mem_singleton.mp hNew
      exact absurd hKey (h.not_answered _ hSent a' hOld')
    · rw [List.mem_singleton.mp hNew, List.mem_singleton.mp hNew']
  not_answered := by
    intro e hMem a hAnswered
    rcases List.mem_append.mp hAnswered with hOld | hNew
    · exact h.not_answered e (List.mem_of_mem_filter hMem) a hOld
    · obtain rfl := List.mem_singleton.mp hNew
      simpa using (List.mem_filter.mp hMem).2

end Numbered

theorem numbered_of_moves {s t : BlockingClient} {action : Action}
    (h : Numbered s.nextRequest s.outstanding s.answered) (hMoves : s.Moves action t) :
    Numbered t.nextRequest t.outstanding t.answered := by
  cases hMoves with
  | setServerSync | recheck | await | wake | responseSignal => exact h
  | skipRequest call hIdle =>
    rw [skipRequest]
    split <;> exact h
  | queue call hIdle => exact h.queue call
  | @read call request hCaller => cases hSlot : call.slot <;> exact h
  | @store request call reply hIdle hSent hFits =>
    have hAnswer := h.answer hSent reply
    cases reply <;> exact hAnswer

/-- A slot holds what was stored in it; chunks are appended to those left there. -/
theorem result_storeReply {s : BlockingClient} {reply : Reply}
    (hChunks : reply.slot = .chunksResponse → s.chunksResponse = []) :
    (s.storeReply reply).result reply.slot = reply := by
  cases reply with
  | chunks chunks => simp [storeReply, Reply.slot, result, hChunks rfl]
  | _ => rfl

/-- Storing a `bool` that is there already changes no slot. -/
theorem result_storeReply_of_success {s : BlockingClient} {reply : Reply} {slot : ResponseSlot}
    (hBool : reply.slot = .boolResponse)
    (hSame : slot = .boolResponse → reply = .success s.boolResponse) :
    (s.storeReply reply).result slot = s.result slot := by
  cases reply with
  | success success =>
    cases slot with
    | boolResponse =>
      cases hSame rfl
      rfl
    | _ => rfl
  | _ => cases hBool

/-- What holds between a call and the responses as long as its caller is spared. -/
structure Attentive (s : BlockingClient) : Prop where
  /-- the own response is still to come, or the slot holds what it carried -/
  own : ∀ c ∈ s.caller, ∀ request ∈ c.request,
    (request, c.call) ∈ s.outstanding ∨ (request, s.result c.call.slot) ∈ s.answered
  /-- a call that stops waiting has its own response -/
  told : ∀ c ∈ s.caller, (c.phase = .waiting ∧ s.responseReady = true) ∨ c.phase = .woken →
    s.IsAnswered c
  deciding : ∀ c ∈ s.caller, c.phase = .deciding → c.call = .applyTransaction
  /-- the requests of calls that did not wait are answered with a `bool` -/
  detached : ∀ e ∈ s.outstanding, e.2.slot = .boolResponse ∨ ∃ c ∈ s.caller, c.request = some e.1
  /-- chunks are left only for the call that asked for them -/
  chunks : s.chunksResponse = [] ∨ ∃ c ∈ s.caller, c.call.slot = .chunksResponse ∧ s.IsAnswered c
  returned : s.OwnAnswers

namespace Attentive

variable {s : BlockingClient}

/-- Between two calls every outstanding request is one answered with a `bool`. -/
theorem detached_of_idle (h : s.Attentive) (hIdle : s.caller = none) :
    ∀ e ∈ s.outstanding, e.2.slot = .boolResponse := by
  intro e hMem
  rcases h.detached e hMem with hBool | ⟨c, hCaller, _⟩
  · exact hBool
  · rw [hIdle] at hCaller
    cases hCaller

theorem chunks_of_idle (h : s.Attentive) (hIdle : s.caller = none) : s.chunksResponse = [] := by
  rcases h.chunks with hNone | ⟨c, hCaller, _⟩
  · exact hNone
  · rw [hIdle] at hCaller
    cases hCaller

theorem queue (h : s.Attentive) (hIdle : s.caller = none) (call : Call) :
    (s.queue call).Attentive where
  own := by
    intro c hCaller request hRequest
    simp only [BlockingClient.queue, Option.mem_def] at hCaller ⊢
    split at hCaller
    · cases hCaller
      cases hRequest
      simp
    · cases hCaller
  told := by
    intro c hCaller hPhase
    simp only [BlockingClient.queue, Option.mem_def] at hCaller
    split at hCaller
    · cases hCaller
      dsimp only at hPhase
      split at hPhase <;> simp at hPhase
    · cases hCaller
  deciding := by
    intro c hCaller hPhase
    simp only [BlockingClient.queue, Option.mem_def] at hCaller
    split at hCaller
    · cases hCaller
      dsimp only at hPhase
      split at hPhase
      · assumption
      · cases hPhase
    · cases hCaller
  detached := by
    intro e hMem
    rcases List.mem_append.mp hMem with hOld | hNew
    · exact .inl (h.detached_of_idle hIdle e hOld)
    · obtain rfl := List.mem_singleton.mp hNew
      cases hAwaits : call.awaits with
      | false => exact .inl (Call.slot_of_not_awaits hAwaits)
      | true => exact .inr (by simp [BlockingClient.queue, hAwaits])
  chunks := .inl (h.chunks_of_idle hIdle)
  returned := h.returned

theorem skipRequest (h : s.Attentive) (hIdle : s.caller = none) (call : Call) :
    (s.skipRequest call).Attentive := by
  rw [BlockingClient.skipRequest]
  split
  · next hApply =>
    subst hApply
    refine ⟨?_, ?_, ?_, fun e hMem => .inl (h.detached_of_idle hIdle e hMem),
      .inl (h.chunks_of_idle hIdle), h.returned⟩
    · rintro c hCaller request hRequest
      cases hCaller
      cases hRequest
    · rintro c hCaller hPhase
      cases hCaller
      simp at hPhase
    · rintro c hCaller hPhase
      cases hCaller
      rfl
  · exact h

/-- A call that goes from one section to the next keeps its request. -/
theorem advance (h : s.Attentive) {phase next : Phase} {call : Call} {request : Option ℕ}
    {r : Bool} (hCaller : s.caller = some ⟨phase, call, request⟩) (hNext : next ≠ .deciding)
    (hTold : (next = .waiting ∧ r = true) ∨ next = .woken → s.IsAnswered ⟨next, call, request⟩) :
    Attentive { s with caller := some ⟨next, call, request⟩, responseReady := r } where
  own := by
    rintro c hNew number hNumber
    cases hNew
    exact h.own _ hCaller number hNumber
  told := by
    rintro c hNew
    cases hNew
    exact hTold
  deciding := by
    rintro c hNew hPhase
    cases hNew
    exact absurd hPhase hNext
  detached := by
    intro e hMem
    rcases h.detached e hMem with hBool | ⟨c, hSame, hOwn⟩
    · exact .inl hBool
    · rw [hCaller] at hSame
      cases hSame
      exact .inr ⟨_, rfl, hOwn⟩
  chunks := by
    rcases h.chunks with hNone | ⟨c, hSame, hSlot, hAnswered⟩
    · exact .inl hNone
    · rw [hCaller] at hSame
      cases hSame
      exact .inr ⟨_, rfl, hSlot, hAnswered⟩
  returned := h.returned

/-- A call that goes on without waiting leaves a request that is answered with a `bool`. -/
theorem leave (h : s.Attentive) (hNumbered : Numbered s.nextRequest s.outstanding s.answered)
    {call : Call} {request : Option ℕ} (hCaller : s.caller = some ⟨.deciding, call, request⟩) :
    Attentive { s with caller := none } := by
  obtain rfl : call = .applyTransaction := h.deciding _ hCaller rfl
  refine ⟨by rintro c ⟨⟩, by rintro c ⟨⟩, by rintro c ⟨⟩, ?_, ?_, h.returned⟩
  · intro e hMem
    rcases h.detached e hMem with hBool | ⟨c, hSame, hOwn⟩
    · exact .inl hBool
    · rw [hCaller] at hSame
      cases hSame
      rcases h.own _ hCaller e.1 hOwn with hOut | hAnswered
      · left
        rw [hNumbered.outstanding_inj e hMem _ hOut rfl]
        rfl
      · exact absurd rfl (hNumbered.not_answered e hMem _ hAnswered)
  · rcases h.chunks with hNone | ⟨c, hSame, hSlot, _⟩
    · exact .inl hNone
    · rw [hCaller] at hSame
      cases hSame
      cases hSlot

/-- What a call that is through with waiting reads is what its own response carried. -/
theorem result_of_isAnswered (h : s.Attentive)
    (hNumbered : Numbered s.nextRequest s.outstanding s.answered) {c : CallInProgress}
    (hCaller : s.caller = some c) (hAnswered : s.IsAnswered c) :
    ∃ request, c.request = some request ∧ (request, s.result c.call.slot) ∈ s.answered := by
  obtain ⟨request, hRequest, hKey⟩ := hAnswered
  refine ⟨request, hRequest, ?_⟩
  rcases h.own c hCaller request hRequest with hOut | hOwn
  · obtain ⟨a, hMem, hEq⟩ := List.mem_map.mp hKey
    exact absurd hEq.symm (hNumbered.not_answered _ hOut a hMem)
  · exact hOwn

theorem read (h : s.Attentive) (hNumbered : Numbered s.nextRequest s.outstanding s.answered)
    {call : Call} {request : Option ℕ} (hCaller : s.caller = some ⟨.woken, call, request⟩) :
    Attentive { s.resetSlot call.slot with
      caller := none
      returned := s.returned ++ [⟨call, request, s.result call.slot⟩] } := by
  obtain ⟨number, rfl, hOwn⟩ :=
    h.result_of_isAnswered hNumbered hCaller (h.told _ hCaller (.inr rfl))
  refine ⟨by rintro c ⟨⟩, by rintro c ⟨⟩, by rintro c ⟨⟩, ?_, ?_, ?_⟩
  · have hOut : (s.resetSlot call.slot).outstanding = s.outstanding := by
      cases call.slot <;> rfl
    simp only [hOut]
    intro e hMem
    rcases h.detached e hMem with hBool | ⟨c, hSame, hRequest⟩
    · exact .inl hBool
    · rw [hCaller] at hSame
      cases hSame
      cases hRequest
      exact absurd rfl (hNumbered.not_answered e hMem _ hOwn)
  · left
    rcases h.chunks with hNone | ⟨c, hSame, hSlot, _⟩
    · cases call.slot <;> first | exact hNone | rfl
    · rw [hCaller] at hSame
      cases hSame
      dsimp only at hSlot
      rw [hSlot]
      rfl
  · have hAnswered : (s.resetSlot call.slot).answered = s.answered := by
      cases call.slot <;> rfl
    intro r hMem
    simp only [hAnswered]
    rcases List.mem_append.mp hMem with hOld | hNew
    · exact h.returned r hOld
    · obtain rfl := List.mem_singleton.mp hNew
      exact ⟨number, rfl, hOwn⟩

/-- The request of the call in progress is the only outstanding one of its number. -/
theorem call_of_sent (h : s.Attentive)
    (hNumbered : Numbered s.nextRequest s.outstanding s.answered) {request : ℕ} {call : Call}
    (hSent : (request, call) ∈ s.outstanding) {c : CallInProgress} (hCaller : s.caller = some c)
    (hOwn : c.request = some request) : c.call = call ∧ ¬s.IsAnswered c := by
  constructor
  · rcases h.own c hCaller request hOwn with hOut | hAnswered
    · exact congrArg Prod.snd (hNumbered.outstanding_inj _ hOut _ hSent rfl)
    · exact absurd rfl (hNumbered.not_answered _ hSent _ hAnswered)
  · rintro ⟨number, hNumber, hKey⟩
    rw [hOwn] at hNumber
    cases hNumber
    obtain ⟨a, hMem, hEq⟩ := List.mem_map.mp hKey
    exact hNumbered.not_answered _ hSent a hMem hEq.symm

theorem chunks_of_sent (h : s.Attentive)
    (hNumbered : Numbered s.nextRequest s.outstanding s.answered) {request : ℕ} {call : Call}
    (hSent : (request, call) ∈ s.outstanding) (hSlot : call.slot = .chunksResponse) :
    s.chunksResponse = [] := by
  rcases h.chunks with hNone | ⟨c, hCaller, _, hAnswered⟩
  · exact hNone
  · rcases h.detached _ hSent with hBool | ⟨c', hCaller', hOwn⟩
    · rw [hSlot] at hBool
      cases hBool
    · rw [hCaller] at hCaller'
      cases hCaller'
      exact absurd hAnswered (h.call_of_sent hNumbered hSent hCaller hOwn).2

theorem store (h : s.Attentive) (hNumbered : Numbered s.nextRequest s.outstanding s.answered)
    {request : ℕ} {call : Call} {reply : Reply} (hSent : (request, call) ∈ s.outstanding)
    (hFits : reply.slot = call.slot) (hSpares : s.SparesCaller (.store request reply)) :
    Attentive { s.storeReply reply with
      outstanding := s.outstanding.filter (·.1 ≠ request)
      updater := some request
      answered := s.answered ++ [(request, reply)] } where
  own := by
    intro c hCaller number hNumber
    dsimp only at hCaller ⊢
    rw [storeReply_caller] at hCaller
    by_cases hOwn : number = request
    · subst hOwn
      obtain ⟨rfl, _⟩ := h.call_of_sent hNumbered hSent hCaller hNumber
      right
      rw [← hFits]
      have hResult : (s.storeReply reply).result reply.slot = reply :=
        result_storeReply fun hSlot => h.chunks_of_sent hNumbered hSent (hFits ▸ hSlot)
      rw [List.mem_append, List.mem_singleton]
      exact .inr (congrArg (Prod.mk number) hResult)
    · rcases h.own c hCaller number hNumber with hOut | hAnswered
      · exact .inl (List.mem_filter.mpr ⟨hOut, by simpa using hOwn⟩)
      · -- the stored response is one with a `bool`, which the call in progress has not to read
        right
        have hBool : call.slot = .boolResponse := by
          rcases h.detached _ hSent with hBool | ⟨c', hCaller', hNumber'⟩
          · exact hBool
          · rw [hCaller] at hCaller'
            cases hCaller'
            rw [hNumber'] at hNumber
            cases hNumber
            exact absurd rfl hOwn
        have hSame : c.call.slot = .boolResponse → reply = .success s.boolResponse := by
          intro hSlot
          cases reply with
          | success success =>
            exact congrArg Reply.success
              (hSpares c hCaller ⟨number, hNumber, List.mem_map_of_mem hAnswered⟩ hSlot)
          | _ =>
            rw [hBool] at hFits
            cases hFits
        have hResult := result_storeReply_of_success (hFits.trans hBool) hSame
        exact List.mem_append_left _ (hResult ▸ hAnswered)
  told := by
    intro c hCaller hPhase
    rw [storeReply_caller] at hCaller
    rw [storeReply_responseReady] at hPhase
    obtain ⟨number, hNumber, hKey⟩ := h.told c hCaller hPhase
    exact ⟨number, hNumber, by simpa using .inl (by simpa using hKey)⟩
  deciding := by
    intro c hCaller
    rw [storeReply_caller] at hCaller
    exact h.deciding c hCaller
  detached := by
    intro e hMem
    simp only [storeReply_caller]
    exact h.detached e (List.mem_of_mem_filter hMem)
  chunks := by
    simp only [storeReply_caller]
    by_cases hSlot : call.slot = .chunksResponse
    · right
      rcases h.detached _ hSent with hBool | ⟨c, hCaller, hOwn⟩
      · rw [hSlot] at hBool
        cases hBool
      · obtain ⟨rfl, _⟩ := h.call_of_sent hNumbered hSent hCaller hOwn
        exact ⟨c, hCaller, hSlot, request, hOwn, by simp⟩
    · have hSame : (s.storeReply reply).chunksResponse = s.chunksResponse := by
        cases reply with
        | chunks chunks => exact absurd hFits.symm hSlot
        | _ => rfl
      rw [hSame]
      rcases h.chunks with hNone | ⟨c, hCaller, hChunks, number, hNumber, hKey⟩
      · exact .inl hNone
      · exact .inr ⟨c, hCaller, hChunks, number, hNumber, by simpa using .inl (by simpa using hKey)⟩
  returned := by
    have hReturned : (s.storeReply reply).returned = s.returned := by cases reply <;> rfl
    intro r hMem
    rw [hReturned] at hMem
    obtain ⟨number, hNumber, hValue⟩ := h.returned r hMem
    exact ⟨number, hNumber, List.mem_append_left _ hValue⟩

theorem responseSignal (h : s.Attentive) (hSpares : s.SparesCaller .responseSignal) :
    Attentive { s with updater := none, responseReady := true } where
  own := h.own
  told := by
    rintro c hCaller (⟨hWaiting, _⟩ | hWoken)
    · exact hSpares c hCaller hWaiting
    · exact h.told c hCaller (.inr hWoken)
  deciding := h.deciding
  detached := h.detached
  chunks := h.chunks
  returned := h.returned

end Attentive

theorem attentive_of_moves {s t : BlockingClient} {action : Action} (h : s.Attentive)
    (hNumbered : Numbered s.nextRequest s.outstanding s.answered)
    (hSpares : s.SparesCaller action) (hMoves : s.Moves action t) : t.Attentive := by
  cases hMoves with
  | setServerSync on => exact ⟨h.own, h.told, h.deciding, h.detached, h.chunks, h.returned⟩
  | skipRequest call hIdle => exact h.skipRequest hIdle call
  | queue call hIdle => exact h.queue hIdle call
  | recheck hDeciding =>
    split
    · exact h.advance (r := s.responseReady) hDeciding (by simp) (by simp)
    · exact h.leave hNumbered hDeciding
  | await hRequested => exact h.advance hRequested (by simp) (by simp)
  | wake hWaiting hReady =>
    have hTold := h.told _ hWaiting (.inl ⟨rfl, hReady⟩)
    exact h.advance hWaiting (by simp) fun _ => hTold
  | read hWoken => exact h.read hNumbered hWoken
  | store hIdle hSent hFits => exact h.store hNumbered hSent hFits hSpares
  | responseSignal hStored => exact h.responseSignal hSpares

theorem numbered_of_reached {allowed : BlockingClient → Action → Prop} {s : BlockingClient}
    (h : Reached allowed s) : Numbered s.nextRequest s.outstanding s.answered :=
  h.invariant (P := fun s => Numbered s.nextRequest s.outstanding s.answered)
    (by constructor <;> simp) fun _ _ _ hNumbered _ hStep =>
      numbered_of_moves hNumbered (moves_of_step hStep)

theorem attentive_of_reached {s : BlockingClient} (h : Reached SparesCaller s) : s.Attentive := by
  have hBoth := h.invariant
    (P := fun s => Numbered s.nextRequest s.outstanding s.answered ∧ s.Attentive)
    ⟨by constructor <;> simp, by constructor <;> simp [OwnAnswers]⟩
    fun t action u hInv hAllowed hStep =>
      ⟨numbered_of_moves hInv.1 (moves_of_step hStep),
        attentive_of_moves hInv.2 hInv.1 hAllowed (moves_of_step hStep)⟩
  exact hBoth.2

/-- A call that waits returns what the response to its own request carried, as long as
the responses to other requests spare it. -/
theorem ownAnswers {s : BlockingClient} (h : Reached SparesCaller s) : s.OwnAnswers :=
  (attentive_of_reached h).returned

theorem ownAnswers_upsertNode :
    OwnAnswers { nextRequest := 1, responseReady := true, answered := [(0, .success true)],
                 returned := [⟨.upsertNode, some 0, .success true⟩] } := by
  have hRun : runAllowed step SparesCaller {}
      [.call .upsertNode, .await, .store 0 (.success true), .responseSignal, .wake, .read] =
      some { nextRequest := 1, responseReady := true, answered := [(0, .success true)],
             returned := [⟨.upsertNode, some 0, .success true⟩] } := by decide
  exact ownAnswers (reaches_of_runAllowed hRun)

/-- The response to `registerNodeListener` wakes `upsertNode`, which returns its value
before the own response comes with another. -/
theorem not_ownAnswers_reached : ∃ s, Reached anyStep s ∧ ¬s.OwnAnswers := by
  have hRun : runAllowed step anyStep {}
      [.call .registerNodeListener, .call .upsertNode, .await, .store 0 (.success true),
        .responseSignal, .wake, .read, .store 1 (.success false), .responseSignal] =
      some { nextRequest := 2, responseReady := true,
             answered := [(0, .success true), (1, .success false)],
             returned := [⟨.upsertNode, some 1, .success true⟩] } := by decide
  refine ⟨_, reaches_of_runAllowed hRun, fun hOwn => ?_⟩
  obtain ⟨request, hRequest, hAnswered⟩ := hOwn _ (List.mem_singleton_self _)
  cases hRequest
  revert hAnswered
  decide

/-- From this state the caller can return `r` without another response being handled. -/
def CanReturn (s : BlockingClient) (r : Returned) : Prop :=
  ∃ t, Reaches step anyStep s t ∧ t.answered = s.answered ∧ r ∈ t.returned

namespace CanReturn

variable {s t : BlockingClient} {call : Call} {request : Option ℕ}

theorem of_step {action : Action} {r : Returned} (hStep : s.step action = some t)
    (hAnswered : t.answered = s.answered) (h : t.CanReturn r) : s.CanReturn r := by
  obtain ⟨u, hReaches, hSame, hReturned⟩ := h
  exact ⟨u, (Reaches.single trivial hStep).trans hReaches, hSame.trans hAnswered, hReturned⟩

theorem of_woken (hCaller : s.caller = some ⟨.woken, call, request⟩) :
    s.CanReturn ⟨call, request, s.result call.slot⟩ := by
  have hStep : s.step .read = some { s.resetSlot call.slot with
      caller := none
      returned := s.returned ++ [⟨call, request, s.result call.slot⟩] } := by
    simp [step, hCaller]
  refine ⟨_, Reaches.single trivial hStep, ?_, by simp⟩
  cases call.slot <;> rfl

theorem of_ready (hCaller : s.caller = some ⟨.waiting, call, request⟩)
    (hReady : s.responseReady = true) : s.CanReturn ⟨call, request, s.result call.slot⟩ := by
  have hStep : s.step .wake = some { s with caller := some ⟨.woken, call, request⟩ } := by
    simp [step, hCaller, hReady]
  exact .of_step hStep rfl (.of_woken rfl)

/-- A response that is stored and not yet signalled ends any wait. -/
theorem of_stored {phase : Phase} {stored : ℕ} (hCaller : s.caller = some ⟨phase, call, request⟩)
    (hStored : s.updater = some stored) : s.CanReturn ⟨call, request, s.result call.slot⟩ := by
  have hWaiting : ∀ t : BlockingClient, t.caller = some ⟨.waiting, call, request⟩ →
      t.updater = some stored → t.CanReturn ⟨call, request, t.result call.slot⟩ := by
    intro t hCaller hStored
    have hStep : t.step .responseSignal =
        some { t with updater := none, responseReady := true } := by
      simp [step, hStored]
    exact .of_step hStep rfl (.of_ready hCaller rfl)
  have hRequested : ∀ t : BlockingClient, t.caller = some ⟨.requested, call, request⟩ →
      t.updater = some stored → t.CanReturn ⟨call, request, t.result call.slot⟩ := by
    intro t hCaller hStored
    have hStep : t.step .await =
        some { t with caller := some ⟨.waiting, call, request⟩, responseReady := false } := by
      simp [step, hCaller]
    exact .of_step hStep rfl (hWaiting _ rfl hStored)
  cases phase with
  | deciding =>
    have hSync : s.step (.setServerSync true) = some { s with serverSyncOn := true } := rfl
    have hStep : step { s with serverSyncOn := true } .recheck =
        some { s with serverSyncOn := true, caller := some ⟨.requested, call, request⟩ } := by
      simp [step, hCaller]
    exact .of_step hSync rfl (.of_step hStep rfl (hRequested _ rfl hStored))
  | requested => exact hRequested s hCaller hStored
  | waiting => exact hWaiting s hCaller hStored
  | woken => exact .of_woken hCaller

end CanReturn

/-- After calls that were all spared, a step that does not spare the caller lets it
return something else than its own response. -/
theorem not_ownAnswers_of_not_spared {s t : BlockingClient} {action : Action}
    (hReached : Reached SparesCaller s) (hStep : s.step action = some t)
    (hNot : ¬s.SparesCaller action) : ∃ u, Reaches step anyStep t u ∧ ¬u.OwnAnswers := by
  have hInv := attentive_of_reached hReached
  have hNumbered := numbered_of_reached hReached
  cases moves_of_step hStep with
  | responseSignal hStored =>
    have hWoken : ∃ c ∈ s.caller, c.phase = .waiting ∧ ¬s.IsAnswered c := by
      simpa [SparesCaller] using hNot
    obtain ⟨⟨phase, call, request⟩, hCaller, rfl, hUnanswered⟩ := hWoken
    obtain ⟨u, hReaches, hSame, hReturned⟩ := CanReturn.of_ready
      (s := { s with updater := none, responseReady := true }) hCaller rfl
    refine ⟨u, hReaches, fun hOwn => hUnanswered ?_⟩
    obtain ⟨number, hNumber, hAnswered⟩ := hOwn _ hReturned
    rw [hSame] at hAnswered
    exact ⟨number, hNumber, List.mem_map_of_mem hAnswered⟩
  | @store stored call' reply hIdle hSent hFits =>
    cases reply with
    | success success =>
      have hChanged : ∃ c ∈ s.caller, s.IsAnswered c ∧ c.call.slot = .boolResponse ∧
          success ≠ s.boolResponse := by
        simpa [SparesCaller] using hNot
      obtain ⟨⟨phase, call, request⟩, hCaller, hAnswered, hSlot, hOther⟩ := hChanged
      obtain ⟨number, rfl, hOwn⟩ := hInv.result_of_isAnswered hNumbered hCaller hAnswered
      obtain ⟨u, hReaches, hSame, hReturned⟩ := CanReturn.of_stored
        (s := { s.storeReply (.success success) with
          outstanding := s.outstanding.filter (·.1 ≠ stored)
          updater := some stored
          answered := s.answered ++ [(stored, .success success)] }) hCaller rfl
      refine ⟨u, hReaches, fun hAll => hOther ?_⟩
      obtain ⟨own, hNumber, hValue⟩ := hAll _ hReturned
      cases hNumber
      rw [hSame] at hValue
      have hUnique := (hNumbered.answer hSent (.success success)).answered_inj _ hValue _
        (List.mem_append_left _ hOwn) rfl
      dsimp only at hSlot hUnique
      rw [hSlot] at hUnique
      cases hUnique
      rfl
    | _ => exact absurd trivial hNot
  | _ => exact absurd trivial hNot

end BlockingClient

end Wwatp
