import Wwatp.Client.Blocking

/-! Lost wake-ups: a call resets `responseReady` after its request is queued, so a
response that is signalled in between is never noticed. -/
namespace Wwatp

open Cxx

namespace BlockingClient

/-- The response to the request of a waiting call has been handled and signalled, nothing
else is to come, and the call waits. -/
def LostWakeUp (s : BlockingClient) : Prop :=
  ∃ call request, s.caller = some ⟨.waiting, call, some request⟩ ∧
    (∃ reply, (request, reply) ∈ s.answered) ∧ s.updater ≠ some request ∧
    s.responseReady = false ∧ s.outstanding = []

/-- The call in progress has queued a request and has yet to enter `awaitResponse`. -/
def YetToAwait (s : BlockingClient) (request : ℕ) : Prop :=
  ∃ c ∈ s.caller, c.request = some request ∧ (c.phase = .deciding ∨ c.phase = .requested)

/-- No response is signalled to a call that has yet to enter `awaitResponse`. -/
def SignalsAfterAwait (s : BlockingClient) : Action → Prop
  | .responseSignal => ∀ request ∈ s.updater, ¬s.YetToAwait request
  | _ => True

instance (s : BlockingClient) (request : ℕ) : Decidable (s.YetToAwait request) :=
  inferInstanceAs (Decidable (∃ c ∈ s.caller, _))

instance (s : BlockingClient) : (action : Action) → Decidable (s.SignalsAfterAwait action)
  | .responseSignal => inferInstanceAs (Decidable (∀ request ∈ s.updater, ¬s.YetToAwait request))
  | .setServerSync _ | .call _ | .recheck | .await | .wake | .read | .store _ _ => .isTrue trivial

/-- The response to the request of a call is still to come, or the call has been told. -/
def WillHear (s : BlockingClient) : Prop :=
  ∀ phase call request, s.caller = some ⟨phase, call, some request⟩ →
    request ∈ s.outstanding.map Prod.fst ∨ s.updater = some request ∨
      (phase = .waiting ∧ s.responseReady = true) ∨ phase = .woken

theorem WillHear.step {s t : BlockingClient} {action : Action} (h : s.WillHear)
    (hAllowed : s.SignalsAfterAwait action) (hMoves : s.Moves action t) : t.WillHear := by
  intro phase call request hCaller
  cases hMoves with
  | setServerSync on => exact h phase call request hCaller
  | skipRequest call' hIdle =>
    -- such a call has no request
    rw [skipRequest] at hCaller
    split at hCaller
    · cases hCaller
    · rw [hIdle] at hCaller
      cases hCaller
  | queue call' hIdle =>
    simp only [queue] at hCaller ⊢
    split at hCaller
    · cases hCaller
      simp
    · cases hCaller
  | recheck hDeciding =>
    simp only at hCaller
    split at hCaller
    · cases hCaller
      simpa using h _ _ _ hDeciding
    · cases hCaller
  | await hRequested =>
    cases hCaller
    simpa using h _ _ _ hRequested
  | wake hWaiting hReady =>
    cases hCaller
    simp
  | read hWoken => cases hCaller
  | @store answered _ reply hIdle hSent hFits =>
    rw [storeReply_caller] at hCaller
    by_cases hOwn : answered = request
    · exact .inr (.inl (by rw [hOwn]))
    · rcases h phase call request hCaller with hOut | hUpdater | hTold
      · left
        obtain ⟨entry, hEntry, rfl⟩ := List.mem_map.mp hOut
        exact List.mem_map_of_mem (List.mem_filter.mpr ⟨hEntry, by simpa using Ne.symm hOwn⟩)
      · rw [hIdle] at hUpdater
        cases hUpdater
      · exact .inr (.inr (by simpa using hTold))
  | @responseSignal signalled hStored =>
    simp only at hCaller
    rcases h phase call request hCaller with hOut | hUpdater | hTold
    · exact .inl hOut
    · -- its own response: the call is past the reset
      have hPast := hAllowed request hUpdater
      cases phase with
      | deciding => exact absurd ⟨_, hCaller, rfl, .inl rfl⟩ hPast
      | requested => exact absurd ⟨_, hCaller, rfl, .inr rfl⟩ hPast
      | waiting => simp
      | woken => simp
    · rcases hTold with ⟨rfl, _⟩ | rfl <;> simp

theorem not_lostWakeUp_of_willHear {s : BlockingClient} (h : s.WillHear) : ¬s.LostWakeUp := by
  rintro ⟨call, request, hCaller, _, hUpdater, hReady, hOutstanding⟩
  rcases h _ _ _ hCaller with hOut | hStored | hTold
  · rw [hOutstanding] at hOut
    cases hOut
  · exact hUpdater hStored
  · rw [hReady] at hTold
    simp at hTold

/-- No wake-up is lost as long as no response is signalled to a call that has yet to
enter `awaitResponse`. -/
theorem not_lostWakeUp {s : BlockingClient} (h : Reached SignalsAfterAwait s) : ¬s.LostWakeUp := by
  apply not_lostWakeUp_of_willHear
  refine h.invariant ?_ fun t action u hHears hAllowed hStep =>
    hHears.step hAllowed (moves_of_step hStep)
  intro phase call request hCaller
  cases hCaller

theorem not_lostWakeUp_signalled :
    ¬LostWakeUp { nextRequest := 1, responseReady := true, boolResponse := true,
                  caller := some ⟨.waiting, .upsertNode, some 0⟩,
                  answered := [(0, .success true)] } := by
  have hRun : runAllowed step SignalsAfterAwait {}
      [.call .upsertNode, .await, .store 0 (.success true), .responseSignal] =
      some { nextRequest := 1, responseReady := true, boolResponse := true,
             caller := some ⟨.waiting, .upsertNode, some 0⟩,
             answered := [(0, .success true)] } := by decide
  exact not_lostWakeUp (reaches_of_runAllowed hRun)

/-- The response is stored and signalled before `awaitResponse` resets `responseReady`. -/
theorem lostWakeUp_reached : ∃ s, Reached anyStep s ∧ s.LostWakeUp := by
  have hRun : runAllowed step anyStep {}
      [.call .upsertNode, .store 0 (.success true), .responseSignal, .await] =
      some { nextRequest := 1, boolResponse := true,
             caller := some ⟨.waiting, .upsertNode, some 0⟩,
             answered := [(0, .success true)] } := by decide
  refine ⟨_, reaches_of_runAllowed hRun, .upsertNode, 0, rfl, ⟨.success true, ?_⟩, ?_, rfl, rfl⟩
  · simp
  · simp

/-- The updater can handle every outstanding response while the caller stands still. -/
theorem exists_answeredAll (s : BlockingClient) (hIdle : s.updater = none) :
    ∃ t, Reaches step anyStep s t ∧ t.outstanding = [] ∧ t.updater = none ∧
      t.caller = s.caller ∧ s.answered ⊆ t.answered := by
  induction hLength : s.outstanding.length using Nat.strong_induction_on generalizing s with
  | _ n ih =>
    cases hOut : s.outstanding with
    | nil => exact ⟨s, .refl, hOut, hIdle, rfl, List.Subset.refl _⟩
    | cons entry rest =>
      obtain ⟨request, call⟩ := entry
      let stored : BlockingClient :=
        { s.storeReply (.ofSlot call.slot) with
          outstanding := s.outstanding.filter (·.1 ≠ request)
          updater := some request
          answered := s.answered ++ [(request, .ofSlot call.slot)] }
      have hStore : s.step (.store request (.ofSlot call.slot)) = some stored := by
        simp [step, hIdle, hOut, Reply.slot_ofSlot, stored]
      let signalled : BlockingClient := { stored with updater := none, responseReady := true }
      have hSignal : stored.step .responseSignal = some signalled := rfl
      have hLess : signalled.outstanding.length < n := by
        have hFilter := List.length_filter_le (fun e : ℕ × Call => decide (e.1 ≠ request)) rest
        simp only [signalled, stored, hOut, ne_eq, not_true_eq_false, decide_false,
          Bool.false_eq_true, not_false_eq_true, List.filter_cons_of_neg]
        simp only [hOut, List.length_cons] at hLength
        simp only [ne_eq] at hFilter
        omega
      obtain ⟨t, hReaches, hNone, hUpdater, hCaller, hAnswered⟩ := ih _ hLess signalled rfl rfl
      have hTwo : Reaches step anyStep s signalled :=
        (Reaches.single trivial hStore).tail trivial hSignal
      refine ⟨t, hTwo.trans hReaches, hNone, hUpdater, ?_, ?_⟩
      · rw [hCaller]
        exact storeReply_caller s _
      · exact fun entry hEntry => hAnswered (List.mem_append_left _ hEntry)

/-- A response is recorded when it is stored. -/
theorem answered_of_updater {s : BlockingClient} (h : Reached anyStep s) :
    ∀ request ∈ s.updater, ∃ reply, (request, reply) ∈ s.answered := by
  refine h.invariant (P := fun s => ∀ request ∈ s.updater, ∃ reply, (request, reply) ∈ s.answered)
    (by simp) ?_
  intro t action u hAnswered _ hStep request hUpdater
  cases moves_of_step hStep with
  | setServerSync | queue | recheck | await | wake => exact hAnswered request hUpdater
  | skipRequest call hIdle =>
    rw [skipRequest] at hUpdater ⊢
    split at hUpdater <;> rename_i hApply <;> simp only [hApply] <;> exact hAnswered request hUpdater
  | @read call own hCaller =>
    cases hSlot : call.slot <;> simp only [hSlot, resetSlot] at hUpdater ⊢ <;>
      exact hAnswered request hUpdater
  | @store stored call reply hIdle hSent hFits =>
    cases hUpdater
    exact ⟨reply, by simp⟩
  | responseSignal => cases hUpdater

/-- Whatever ran before, a response that is signalled too early leads to a lost wake-up. -/
theorem lostWakeUp_of_early_signal {s t : BlockingClient} {action : Action}
    (hReached : Reached anyStep s) (hStep : s.step action = some t)
    (hEarly : ¬s.SignalsAfterAwait action) : ∃ u, Reaches step anyStep t u ∧ u.LostWakeUp := by
  cases moves_of_step hStep with
  | @responseSignal request hStored =>
    obtain ⟨reply, hReply⟩ := answered_of_updater hReached request hStored
    have hYet : s.YetToAwait request := by simpa [SignalsAfterAwait, hStored] using hEarly
    obtain ⟨⟨phase, call, own⟩, hCaller, rfl, hPhase⟩ := hYet
    obtain ⟨u, hReaches, hNone, hUpdater, hSame, hAnswered⟩ :=
      exists_answeredAll { s with updater := none, responseReady := true } rfl
    replace hSame : u.caller = some ⟨phase, call, some request⟩ := hSame.trans hCaller
    -- the caller looks at `serverSyncOn_` if it has yet to, and enters `awaitResponse`
    have hRequested : ∃ v, Reaches step anyStep u v ∧
        v.caller = some ⟨.requested, call, some request⟩ ∧ v.outstanding = [] ∧
        v.updater = none ∧ u.answered ⊆ v.answered := by
      rcases hPhase with rfl | rfl
      · let synced : BlockingClient := { u with serverSyncOn := true }
        have hSync : u.step (.setServerSync true) = some synced := rfl
        have hDecide : synced.step .recheck =
            some { synced with caller := some ⟨.requested, call, some request⟩ } := by
          simp [step, synced, hSame]
        exact ⟨_, (Reaches.single trivial hSync).tail trivial hDecide, rfl, hNone, hUpdater,
          List.Subset.refl _⟩
      · exact ⟨u, .refl, hSame, hNone, hUpdater, List.Subset.refl _⟩
    obtain ⟨v, hAsked, hCaller', hNone', hUpdater', hAnswered'⟩ := hRequested
    have hAwait : v.step .await = some
        { v with caller := some ⟨.waiting, call, some request⟩, responseReady := false } := by
      simp [step, hCaller']
    refine ⟨_, (hReaches.trans hAsked).tail trivial hAwait, call, request, rfl,
      ⟨reply, hAnswered' (hAnswered hReply)⟩, ?_, rfl, hNone'⟩
    rw [hUpdater']
    simp
  | _ => exact absurd trivial hEarly

end BlockingClient

end Wwatp
