import Wwatp.JavaScript.ResponseHandler

/-! What the promise of a blocking call of the JavaScript client resolves to. -/
namespace Wwatp
namespace JavaScript

open Cxx

/-- `ch.toLowerCase()` within ASCII. -/
def lowerCase (unit : UInt16) : UInt16 := if 0x41 ≤ unit ∧ unit ≤ 0x5A then unit + 0x20 else unit

/-- `completeBool`: the boolean in the bytes of a response. Without any text it is true. -/
def completeBool (responseChunks : List SpanChunk) : Bool :=
  let bytes := collectPayloadBytes responseChunks
  let s := (trim (utf8Decode bytes)).map lowerCase
  if s = [] ∨ s = js "true" ∨ s = js "1" then true
  else if s = js "false" ∨ s = js "0" then false
  else bytes.head? ≠ some 0

/-- What `finish` is called with. -/
inductive Settlement
  | bool (value : Bool)
  | node (value : Option JSTreeNode)
  | nodes (value : List JSTreeNode)

/-- `!!res` -/
def Settlement.truthy : Settlement → Bool
  | bool value => value
  | node _ => true
  | nodes _ => true

/-- `processHTTP3Response`, as far as the waiter is concerned: a response that cannot be decoded throws. -/
def processHTTP3Response (m : ReceivedResponse) : Option (Option Settlement) :=
  match m.signal with
  | 0x04 => some none
  | 0x06 => some (some (.bool true))
  | 0x08 => do
    let (_, value) ← decodeChunksMaybeTreeNode 0 m.responseChunks
    return some (.node value)
  | 0x0A => some (some (.bool true))
  | 0x0C | 0x12 | 0x14 | 0x1E | 0x20 => some (some (.bool (completeBool m.responseChunks)))
  | 0x0E | 0x10 | 0x18 => do
    let (_, value) ← decodeChunksVectorTreeNode 0 m.responseChunks
    return some (.nodes value)
  | 0x16 => some (some (.bool (completeBool m.responseChunks)))
  | 0x22 => do
    let _ ← decodeChunksVectorSequentialNotification 0 m.responseChunks
    return some (.bool true)
  -- an unknown signal is a success
  | _ => some (some (.bool true))

/-- The calls that wait for a boolean. -/
inductive BoolCall
  | upsertNode
  | deleteNode
  | openTransactionLayer
  | closeTransactionLayers
  | applyTransaction
  | registerNodeListener
  | deregisterNodeListener
  | notifyListeners
  | processNotifications
  deriving DecidableEq

namespace BoolCall

def requestSignal : BoolCall → UInt8
  | upsertNode => 0x09
  | deleteNode => 0x0B
  | openTransactionLayer => 0x11
  | closeTransactionLayers => 0x13
  | applyTransaction => 0x15
  | registerNodeListener => 0x19
  | deregisterNodeListener => 0x1B
  | notifyListeners => 0x1D
  | processNotifications => 0x1F

/-- What the server answers. It says nothing about notifications but that they have been processed. -/
def answer (success : Bool) : BoolCall → MessageCall
  | upsertNode => .upsertNodeResponse success
  | deleteNode => .deleteNodeResponse success
  | openTransactionLayer => .openTransactionLayerResponse success
  | closeTransactionLayers => .closeTransactionLayersResponse success
  | applyTransaction => .applyTransactionResponse success
  | registerNodeListener => .registerNodeListenerResponse success
  | deregisterNodeListener => .deregisterNodeListenerResponse success
  | notifyListeners => .notifyListenersResponse success
  | processNotifications => .processNotificationResponse

/-- The bytes of the answer on the wire. -/
def answerBytes (requestId : UInt16) (call : BoolCall) (success : Bool) : List UInt8 :=
  match (call.answer success).encode requestId with
  | .ok spans => spans.flatMap wireBytes
  | .error _ => []

end BoolCall

/-- A blocking call: its message, whether the handler is registered, and what its promise has been resolved to. -/
structure CallState where
  message : ReceivedResponse := {}
  registered : Bool := true
  promise : Option Bool := none

/-- What happens to a call: its handler is called, or sending the request fails. -/
inductive CallEvent
  | transport (event : TransportEvent)
  | sendFailed

namespace CallState

/-- `finish` resolves a promise once. -/
def finish (s : CallState) (settlement : Option Settlement) : CallState :=
  { s with promise := s.promise <|> settlement.map Settlement.truthy }

/-- A handler that is not registered any more is not called, and a failed send passes the message on as it is. -/
def step (d : Dispatched) (s : CallState) : CallEvent → CallState
  | .transport event =>
    if s.registered then
      match d.handleEvent s.message event with
      | .waiting message | .threw message => { s with message := message }
      | .ready message =>
        match processHTTP3Response message with
        | none => { s with message := message }
        | some settlement => { s with message := message, registered := false }.finish settlement
    else s
  | .sendFailed => { s with registered := false }.finish ((processHTTP3Response s.message).getD none)

def run (d : Dispatched) (s : CallState) (events : List CallEvent) : CallState := events.foldl (step d) s

end CallState

def SpanChunk.IsHeartbeat (chunk : SpanChunk) : Prop := chunk.Legal ∧ chunk.signal = some 0x02

/-- What may come before the answer, or instead of it. -/
inductive Interruption
  | heartbeats (chunks : List SpanChunk) (h : ∀ chunk ∈ chunks, chunk.IsHeartbeat)
  | ended
  | sendFailed

def Interruption.event : Interruption → CallEvent
  | heartbeats chunks _ => .transport (.data (chunks.flatMap chunkToWire))
  | ended => .transport .ended
  | sendFailed => .sendFailed

/-- What a call's promise is resolved to when some events come before the server's answer, or no answer. -/
def outcome (call : BoolCall) (requestId serverId : UInt16) (interruptions : List Interruption) (answer : Option Bool) :
    Option Bool :=
  (CallState.run ⟨call.requestSignal, requestId, false⟩ {}
    (interruptions.map Interruption.event ++
      answer.toList.map fun success => .transport (.data (call.answerBytes serverId success)))).promise

/-- The promise is true only if the server has answered so, and false if the server has. -/
structure FaithfulTo (answer promise : Option Bool) : Prop where
  of_true : promise = some true → answer = some true
  of_false : answer = some false → promise = some false

/-- An event that leaves a call as it is. -/
def Interruption.Harmless (call : BoolCall) : Interruption → Prop
  | heartbeats _ _ => call ≠ .processNotifications
  | ended => call = .registerNodeListener ∨ call = .deregisterNodeListener
  | sendFailed => False

/-- The calls for which the boolean in the answer is read. -/
def BoolCall.readsAnswer (call : BoolCall) : Bool :=
  call ≠ .upsertNode ∧ call ≠ .registerNodeListener ∧ call ≠ .deregisterNodeListener

section Events

variable {d : Dispatched} {s : CallState} {call : BoolCall} {requestId serverId : UInt16}

/-- A promise that is resolved stays as it is. -/
theorem promise_step {b : Bool} (h : s.promise = some b) (event : CallEvent) : (s.step d event).promise = some b := by
  have hFinish (t : CallState) (ht : t.promise = some b) (settlement : Option Settlement) :
      (t.finish settlement).promise = some b := by
    rw [CallState.finish, ht]
    rfl
  cases event with
  | sendFailed => exact hFinish _ h _
  | transport event =>
      rw [CallState.step]
      split_ifs
      · split
        · exact h
        · exact h
        · split
          · exact h
          · exact hFinish _ h _
      · exact h

theorem promise_run {b : Bool} (h : s.promise = some b) (events : List CallEvent) :
    (s.run d events).promise = some b := by
  induction events generalizing s with
  | nil => exact h
  | cons event rest ih => exact ih (promise_step h event)

/-- Heartbeats leave the message as it is. -/
theorem handle_heartbeats {chunks : List SpanChunk} (h : ∀ chunk ∈ chunks, chunk.IsHeartbeat) (message : ReceivedResponse) :
    ∃ lastTyped, d.handleEvent message (.data (chunks.flatMap chunkToWire)) = d.gate ⟨message, lastTyped, false⟩ := by
  obtain ⟨lastTyped, hEvent⟩ := handleEvent_chunks (fun chunk hChunk => (h chunk hChunk).1) d message
  have hPushed : pushedOf d.requestId chunks = [] := by
    rw [pushedOf, List.filter_eq_nil_iff.mpr fun chunk hChunk => by simp [(h chunk hChunk).2], List.map_nil]
  have hFinal : chunks.any (fun chunk => decide (chunk.signal = some 0x06)) = false := by
    rw [List.any_eq_false]
    intro chunk hChunk
    simp [(h chunk hChunk).2]
  rw [hPushed, hFinal] at hEvent
  exact ⟨lastTyped, hEvent⟩

/-- A call for which nothing has happened yet stays so with an event that does no harm. -/
theorem step_harmless {i : Interruption} (h : i.Harmless call) :
    CallState.step ⟨call.requestSignal, requestId, false⟩ {} i.event = {} := by
  cases i with
  | sendFailed => exact h.elim
  | ended => rcases h with rfl | rfl <;> rfl
  | heartbeats chunks hBeats =>
      obtain ⟨lastTyped, hEvent⟩ := handle_heartbeats (d := ⟨call.requestSignal, requestId, false⟩) hBeats {}
      rw [Interruption.event, CallState.step, if_pos rfl, hEvent]
      cases call <;> first | rfl | exact absurd rfl h

/-- Any other event resolves it to true. -/
theorem step_harmful {i : Interruption} (h : ¬i.Harmless call) :
    (CallState.step ⟨call.requestSignal, requestId, false⟩ {} i.event).promise = some true := by
  cases i with
  | sendFailed => rfl
  | ended => cases call <;> first | rfl | exact absurd (.inl rfl) h | exact absurd (.inr rfl) h
  | heartbeats chunks hBeats =>
      obtain rfl : call = .processNotifications := not_not.mp h
      obtain ⟨lastTyped, hEvent⟩ := handle_heartbeats (d := ⟨BoolCall.processNotifications.requestSignal, requestId, false⟩) hBeats {}
      rw [Interruption.event, CallState.step, if_pos rfl, hEvent]
      rfl

/-- The text of the answer. -/
def BoolCall.answerText (call : BoolCall) (success : Bool) : Str :=
  if call = .processNotifications then [] else boolText success

theorem answerBytes_eq (call : BoolCall) (success : Bool) :
    call.answerBytes serverId success =
      [SpanChunk.ofPayload serverId (call.answer success).signal (call.answerText success)].flatMap chunkToWire := by
  have hShort : (call.answerText success).length ≤ maxPayload := by cases call <;> cases success <;> decide
  have hEncode : (call.answer success).encode serverId =
      .ok [payloadSpan serverId (call.answer success).signal (call.answerText success)] := by
    cases call <;> cases success <;> rfl
  rw [BoolCall.answerBytes, hEncode, List.flatMap_singleton, chunkToWire_ofPayload serverId _ hShort]
  show List.flatMap wireBytes [_] = _
  rw [List.flatMap_singleton]

theorem completeBool_of_bytes {chunks : List SpanChunk} {bytes : List UInt8} (h : collectPayloadBytes chunks = bytes) :
    (bytes = str "1" ∨ bytes = [] → completeBool chunks = true) ∧ (bytes = str "0" → completeBool chunks = false) := by
  constructor
  · rintro (rfl | rfl) <;> (rw [completeBool, h]; decide)
  · rintro rfl
    rw [completeBool, h]
    decide

theorem readySignal_answer {chunk : SpanChunk} {success : Bool} (hSignal : chunk.signal = some (call.answer success).signal)
    (sawFinal : Bool) : readySignal call.requestSignal sawFinal [chunk] = some (call.answer success).signal := by
  cases call <;> simp_all [readySignal, BoolCall.requestSignal, BoolCall.answer, MessageCall.signal]

theorem processHTTP3Response_answer {m : ReceivedResponse} {success : Bool} (hSignal : m.signal = (call.answer success).signal) :
    processHTTP3Response m =
      some (some (.bool (if call.readsAnswer then completeBool m.responseChunks else true))) := by
  rw [processHTTP3Response, hSignal]
  cases call <;> rfl

/-- The answer in its own event resolves the promise, but not always to what it says. -/
theorem step_answer {success : Bool} (hNotifications : call = .processNotifications → success = true) :
    (CallState.step ⟨call.requestSignal, requestId, false⟩ {}
      (.transport (.data (call.answerBytes serverId success)))).promise =
      some (if call.readsAnswer then success else true) := by
  have hLegal : ∀ chunk ∈ [SpanChunk.ofPayload serverId (call.answer success).signal (call.answerText success)], chunk.Legal :=
    List.forall_mem_singleton.mpr (.payload _ _ _ (by cases call <;> cases success <;> decide))
  obtain ⟨lastTyped, hEvent⟩ := handleEvent_chunks hLegal ⟨call.requestSignal, requestId, false⟩ {}
  have hPushed : pushedOf requestId [SpanChunk.ofPayload serverId (call.answer success).signal (call.answerText success)] =
      [.ofPayload requestId (call.answer success).signal (call.answerText success)] := by
    cases call <;> rfl
  rw [answerBytes_eq, CallState.step, if_pos rfl, hEvent, hPushed, Dispatched.gate,
    ReceivedResponse.responseChunks_pushResponseChunks, readySignal_answer rfl]
  dsimp only
  rw [processHTTP3Response_answer rfl, ReceivedResponse.responseChunks_pushResponseChunks]
  have hBytes : collectPayloadBytes [SpanChunk.ofPayload requestId (call.answer success).signal (call.answerText success)] =
      call.answerText success := List.append_nil _
  have hRead : completeBool [.ofPayload requestId (call.answer success).signal (call.answerText success)] = success := by
    cases success with
    | true => exact (completeBool_of_bytes hBytes).1 (by cases call <;> first | exact .inl rfl | exact .inr rfl)
    | false =>
        refine (completeBool_of_bytes hBytes).2 ?_
        cases call <;> first | rfl | exact absurd (hNotifications rfl) Bool.false_ne_true
  rw [hRead]
  rfl

theorem run_harmless {interruptions : List Interruption} (h : ∀ i ∈ interruptions, i.Harmless call)
    (events : List CallEvent) :
    CallState.run ⟨call.requestSignal, requestId, false⟩ {} (interruptions.map Interruption.event ++ events) =
      CallState.run ⟨call.requestSignal, requestId, false⟩ {} events := by
  induction interruptions with
  | nil => rfl
  | cons i rest ih =>
      obtain ⟨hi, hRest⟩ := List.forall_mem_cons.mp h
      rw [List.map_cons, List.cons_append, CallState.run, List.foldl_cons, step_harmless hi]
      exact ih hRest

theorem run_harmful {interruptions : List Interruption} (h : ¬∀ i ∈ interruptions, i.Harmless call)
    (events : List CallEvent) :
    (CallState.run ⟨call.requestSignal, requestId, false⟩ {} (interruptions.map Interruption.event ++ events)).promise =
      some true := by
  induction interruptions with
  | nil => exact absurd nofun h
  | cons i rest ih =>
      rw [List.map_cons, List.cons_append, CallState.run, List.foldl_cons]
      by_cases hi : i.Harmless call
      · rw [step_harmless hi]
        exact ih fun hRest => h (List.forall_mem_cons.mpr ⟨hi, hRest⟩)
      · exact promise_run (step_harmful hi) _

end Events

/-- What a promise is resolved to is what the server has answered just when the answer is true, or nothing that resolves
the promise comes before it and a false answer is read. -/
theorem faithfulTo_outcome_iff (call : BoolCall) (requestId serverId : UInt16) (interruptions : List Interruption)
    (answer : Option Bool) (hNotifications : call = .processNotifications → answer ≠ some false) :
    FaithfulTo answer (outcome call requestId serverId interruptions answer) ↔
      answer = some true ∨
        ((∀ i ∈ interruptions, i.Harmless call) ∧ (answer = some false → call.readsAnswer)) := by
  by_cases hHarmless : ∀ i ∈ interruptions, i.Harmless call
  · have hRun := @run_harmless call requestId _ hHarmless
      (answer.toList.map fun success => .transport (.data (call.answerBytes serverId success)))
    rw [outcome, hRun]
    cases answer with
    | none => exact ⟨fun _ => .inr ⟨hHarmless, nofun⟩, fun _ => ⟨nofun, nofun⟩⟩
    | some success =>
        have hSuccess : call = .processNotifications → success = true := fun hCall =>
          Bool.eq_true_of_not_eq_false fun hFalse => hNotifications hCall (congrArg some hFalse)
        have hAnswer := @step_answer call requestId serverId _ hSuccess
        have hOne : CallState.run ⟨call.requestSignal, requestId, false⟩ {}
            ((some success).toList.map fun success => .transport (.data (call.answerBytes serverId success))) =
              CallState.step ⟨call.requestSignal, requestId, false⟩ {}
                (.transport (.data (call.answerBytes serverId success))) := rfl
        rw [hOne, hAnswer]
        cases success with
        | true => exact ⟨fun _ => .inl rfl, fun _ => ⟨fun _ => rfl, nofun⟩⟩
        | false =>
            cases hReads : call.readsAnswer with
            | true => exact ⟨fun _ => .inr ⟨hHarmless, fun _ => rfl⟩, fun _ => ⟨nofun, fun _ => rfl⟩⟩
            | false =>
                refine ⟨fun h => absurd (h.of_true rfl) (by decide), fun h => ?_⟩
                exact absurd ((h.resolve_left (by decide)).2 rfl) Bool.false_ne_true
  · rw [outcome, run_harmful hHarmless]
    constructor
    · exact fun h => .inl (h.of_true rfl)
    · rintro (rfl | ⟨h, -⟩)
      · exact ⟨fun _ => rfl, nofun⟩
      · exact absurd h hHarmless

theorem faithfulTo_outcome_iff_deletion :
    FaithfulTo (some false) (outcome .deleteNode 7 7 [] (some false)) ↔
      some false = some true ∨ ((∀ i ∈ ([] : List Interruption), i.Harmless .deleteNode) ∧
        (some false = some false → BoolCall.readsAnswer .deleteNode)) :=
  faithfulTo_outcome_iff .deleteNode 7 7 [] (some false) nofun

/-- The server refuses to deregister a listener, and the promise says that it has done so. -/
theorem not_faithfulTo_deregister : ¬∀ call requestId serverId interruptions answer,
    (call = BoolCall.processNotifications → answer ≠ some false) →
      FaithfulTo answer (outcome call requestId serverId interruptions answer) := by
  intro h
  have hAnswer := @step_answer .deregisterNodeListener 7 7 false nofun
  have hFaithful := (h .deregisterNodeListener 7 7 [] (some false) nofun).of_true hAnswer
  cases hFaithful

end JavaScript
end Wwatp
