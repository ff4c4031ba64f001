import Wwatp.JavaScript.Outcomes
import Wwatp.JavaScript.RequestIds

/-! A response that arrives in pieces: how it is cut decides what the handler makes of it. -/
namespace Wwatp
namespace JavaScript

open Cxx

/-- What `processHTTP3Response` decodes: what the caller gets, or notifications. -/
inductive ResponseValue
  | settled (value : Option Settlement)
  | journal (notifications : List JSSequentialNotification)

/-- Nothing if it throws. -/
def ReceivedResponse.decoded (m : ReceivedResponse) : Option ResponseValue :=
  if m.signal = 0x22 then
    (decodeChunksVectorSequentialNotification 0 m.responseChunks).map fun result => .journal result.2
  else (processHTTP3Response m).map .settled

/-- The handler of a response: its message, whether it is registered, whether it has thrown, how many bytes it has got,
and what has been decoded after how many of them. -/
structure Reassembly where
  message : ReceivedResponse := {}
  registered : Bool := true
  threw : Bool := false
  received : ℕ := 0
  processed : List (ℕ × Option ResponseValue) := []

namespace Reassembly

/-- A data event. -/
def step (d : Dispatched) (s : Reassembly) (bytes : List UInt8) : Reassembly :=
  let s := { s with received := s.received + bytes.length }
  if s.registered then
    match d.handleEvent s.message (.data bytes) with
    | .waiting message => { s with message := message }
    | .threw message => { s with message := message, threw := true }
    | .ready message =>
      let s := { s with message := message, processed := s.processed ++ [(s.received, message.decoded)] }
      if message.decoded.isSome then { s with registered := false } else { s with threw := true }
  else s

def run (d : Dispatched) (s : Reassembly) (events : List (List UInt8)) : Reassembly := events.foldl (step d) s

end Reassembly

/-- The handler does not throw, and has the value decoded once, after its last byte. -/
structure Reassembles (d : Dispatched) (value : ResponseValue) (valueEnd : ℕ) (s : Reassembly) (events : List (List UInt8)) :
    Prop where
  never_throws : (s.run d events).threw = false
  once : ∃ received, valueEnd ≤ received ∧ (s.run d events).processed = [(received, some value)]

/-- A response and heartbeats: its chunks up to the last one, and what follows it. -/
structure Interleaved (response : MessageCall) (serverId : UInt16) (front : List SpanChunk) (last : SpanChunk)
    (back : List SpanChunk) : Prop where
  isResponse : response.isResponse
  fits : ResponseFits response
  sent : ∃ spans, response.encode serverId = .ok spans ∧
    Arrives spans ((front ++ [last]).filter fun chunk => chunk.signal ≠ some 0x02)
  ends : last.signal ≠ some 0x02
  beats : ∀ chunk ∈ front ++ back, chunk.signal = some 0x02 → chunk.IsHeartbeat
  rest : ∀ chunk ∈ back, chunk.signal = some 0x02

/-- The events of some bytes. -/
structure CutInto (bytes : List UInt8) (events : List (List UInt8)) : Prop where
  nonempty : ∀ event ∈ events, event ≠ []
  flatten : events.flatten = bytes

/-- The first events are made of whole chunks, and the value is in them; what notifications have to say is in one. -/
def ArrivesWhole (d : Dispatched) (value stream : List SpanChunk) (events : List (List UInt8)) : Prop :=
  ∃ (groups : List (List SpanChunk)) (others : List (List UInt8)), events = groups.map (List.flatMap chunkToWire) ++ others ∧ groups.flatten <+: stream ∧
    value <+: groups.flatten ∧ (d.requestSignal = 0x1F → groups.length = 1)

section Cuts

variable {α : Type} {wire : α → List UInt8}

/-- A part of the bytes of some chunks ends with a chunk or inside one. -/
theorem exists_cut {bytes more : List UInt8} {chunks : List α} (h : bytes ++ more = chunks.flatMap wire) :
    ∃ front back, chunks = front ++ back ∧
      (bytes = front.flatMap wire ∧ more = back.flatMap wire ∨
        ∃ chunk rest k, back = chunk :: rest ∧ 0 < k ∧ k < (wire chunk).length ∧
          bytes = front.flatMap wire ++ (wire chunk).take k) := by
  induction chunks generalizing bytes with
  | nil =>
      obtain ⟨rfl, rfl⟩ := List.append_eq_nil_iff.mp h
      exact ⟨[], [], rfl, .inl ⟨rfl, rfl⟩⟩
  | cons chunk rest ih =>
      rw [List.flatMap_cons] at h
      rcases List.append_eq_append_iff.mp h with ⟨missing, hChunk, hMore⟩ | ⟨after, rfl, hRest⟩
      · by_cases hNil : bytes = []
        · subst hNil
          exact ⟨[], chunk :: rest, rfl, .inl ⟨rfl, by rw [List.flatMap_cons, hChunk]; exact hMore⟩⟩
        · by_cases hMissing : missing = []
          · subst hMissing
            rw [List.append_nil] at hChunk
            exact ⟨[chunk], rest, rfl, .inl ⟨by rw [List.flatMap_singleton, hChunk], hMore⟩⟩
          · refine ⟨[], chunk :: rest, rfl, .inr ⟨chunk, rest, bytes.length, rfl, List.length_pos_of_ne_nil hNil, ?_, ?_⟩⟩
            · rw [hChunk, List.length_append]
              exact Nat.lt_add_of_pos_right (List.length_pos_of_ne_nil hMissing)
            · rw [hChunk, List.take_left]
              rfl
      · obtain ⟨front, back, rfl, hEnd⟩ := ih hRest.symm
        refine ⟨chunk :: front, back, rfl, ?_⟩
        rw [List.flatMap_cons]
        refine hEnd.imp (fun ⟨hBytes, hMore⟩ => ⟨by rw [hBytes], hMore⟩) ?_
        rintro ⟨next, tail, k, hBack, hPos, hk, rfl⟩
        exact ⟨next, tail, k, hBack, hPos, hk, (List.append_assoc ..).symm⟩

/-- Of two first parts of some chunks the one with fewer bytes is the shorter one. -/
theorem prefix_of_length_le {first second chunks : List α} (hNe : ∀ chunk ∈ chunks, wire chunk ≠ [])
    (hFirst : first <+: chunks) (hSecond : second <+: chunks)
    (h : (first.flatMap wire).length ≤ (second.flatMap wire).length) : first <+: second := by
  rcases List.prefix_or_prefix_of_prefix hFirst hSecond with hPrefix | ⟨more, rfl⟩
  · exact hPrefix
  · cases more with
    | nil => rw [List.append_nil]
    | cons chunk rest =>
        have hPos := List.length_pos_of_ne_nil (hNe chunk (hFirst.subset (by simp)))
        rw [List.flatMap_append, List.flatMap_cons, List.length_append, List.length_append] at h
        omega

end Cuts

section Readiness

variable {response : MessageCall} {serverId : UInt16} {spans : List SharedSpan} {payloads : List SpanChunk}

theorem length_of_frames_label (h : Frames canDecodeChunksLabel payloads) : payloads.length = 1 := by
  have hWhole := h.whole [] []
  rw [List.append_nil, List.nil_append, List.length_nil, Nat.zero_add] at hWhole
  cases payloads with
  | nil => cases hWhole
  | cons chunk rest =>
      rw [canDecodeChunksLabel, List.getElem?_cons_zero] at hWhole
      dsimp only at hWhole
      split_ifs at hWhole
      exact (Option.some.inj hWhole).symm

/-- The chunks of a response carry its signal; they are framed, or there is one of them. -/
theorem framed_or_single (hResponse : response.isResponse) (hFits : ResponseFits response)
    (hEncode : response.encode serverId = .ok spans) (hArrives : Arrives spans payloads) :
    CarriesSignal response.signal payloads ∧
      (isDeletion response = false ∧ (∃ scan, responseScan response.signal = some scan ∧ Frames scan payloads) ∨
        isDeletion response ∧ payloads.length = 1) := by
  cases hDeletion : isDeletion response with
  | false =>
      obtain ⟨scan, hScan, chunks, hChunks, hCarries, hFrames⟩ := arrives_response hResponse hFits hDeletion hEncode
      obtain rfl := hArrives.unique hChunks
      exact ⟨hCarries, .inl ⟨rfl, scan, hScan, hFrames⟩⟩
  | true =>
      cases response with
      | deleteNodeResponse success =>
          obtain ⟨first, hFirst, hEncode⟩ := Outcome.bind_eq_ok.mp hEncode
          obtain rfl := Except.ok.inj hEncode
          rw [List.append_nil] at hArrives
          rw [hArrives.unique (arrives_encodeLabel hFirst)]
          exact ⟨carriesSignal_ofPayload _, .inr ⟨rfl, rfl⟩⟩
      | _ => exact absurd hDeletion (by simp [isDeletion, MessageCall.signal])

/-- The handler waits as long as a chunk is missing, unless notifications are to be processed. -/
theorem readySignal_take (hResponse : response.isResponse) (hFits : ResponseFits response)
    (hEncode : response.encode serverId = .ok spans) (hArrives : Arrives spans payloads) (requestId : UInt16) {k : ℕ}
    (hk : k < payloads.length) :
    readySignal (response.signal - 1) false ((payloads.take k).map (SpanChunk.withRequestId requestId)) =
      if response.signal = 0x20 then some 0x20 else none := by
  obtain ⟨-, ⟨hDeletion, scan, hScan, hFrames⟩ | ⟨hDeletion, hOne⟩⟩ := framed_or_single hResponse hFits hEncode hArrives
  · have hPart : ¬(scan 0 ((payloads.take k).map (SpanChunk.withRequestId requestId))).isSome := by
      rw [IgnoresIds.response hScan, show scan 0 (payloads.take k) = none from hFrames.part [] k hk]
      exact Bool.false_ne_true
    have hLabel (h : scan = canDecodeChunksLabel) : k = 0 := by
      subst h
      rw [length_of_frames_label hFrames] at hk
      exact Nat.lt_one_iff.mp hk
    cases response with
    | getNodeResponse | getPageTreeResponse | getQueryNodesResponse | getFullTreeResponse | getJournalResponse =>
        obtain rfl := Option.some.inj hScan
        simpa [MessageCall.signal, readySignal] using hPart
    | upsertNodeResponse | openTransactionLayerResponse | closeTransactionLayersResponse | applyTransactionResponse
    | registerNodeListenerResponse | deregisterNodeListenerResponse | notifyListenersResponse =>
        obtain rfl := hLabel (Option.some.inj hScan).symm
        simp [MessageCall.signal, readySignal]
    | processNotificationResponse => simp [MessageCall.signal, readySignal]
    | deleteNodeResponse => cases hDeletion
    | _ => exact absurd hResponse (by simp [MessageCall.isResponse, MessageCall.signal])
  · obtain rfl : k = 0 := by omega
    have hSignal : response.signal = 0x0C := of_decide_eq_true hDeletion
    rw [hSignal]
    rfl

/-- With its last chunk a response is ready. -/
theorem readySignal_all (hResponse : response.isResponse) (hFits : ResponseFits response)
    (hEncode : response.encode serverId = .ok spans) (hArrives : Arrives spans payloads) (requestId : UInt16) :
    readySignal (response.signal - 1) false (payloads.map (SpanChunk.withRequestId requestId)) =
      some response.signal := by
  obtain ⟨hCarries, ⟨hDeletion, scan, hScan, hFrames⟩ | ⟨hDeletion, hOne⟩⟩ :=
    framed_or_single hResponse hFits hEncode hArrives
  · have hWhole : scan 0 (payloads.map (SpanChunk.withRequestId requestId)) = some (0 + payloads.length) := by
      have h := hFrames.whole [] []
      rw [List.append_nil, List.nil_append] at h
      rw [IgnoresIds.response hScan]
      exact h
    have hNe := ne_nil_of_frames (ReceivedResponse.scan_nil hScan) hFrames
    cases response with
    | getNodeResponse | getPageTreeResponse | getQueryNodesResponse | getFullTreeResponse | getJournalResponse =>
        obtain rfl := Option.some.inj hScan
        simp [MessageCall.signal, readySignal, hWhole]
    | upsertNodeResponse =>
        obtain ⟨chunk, rest, rfl⟩ := List.exists_cons_of_ne_nil hNe
        have hChunk := (hCarries chunk List.mem_cons_self).2
        simp [MessageCall.signal, readySignal, hChunk]
    | openTransactionLayerResponse | closeTransactionLayersResponse | applyTransactionResponse
    | registerNodeListenerResponse | deregisterNodeListenerResponse | notifyListenersResponse
    | processNotificationResponse =>
        simp [MessageCall.signal, readySignal, hNe]
    | deleteNodeResponse => cases hDeletion
    | _ => exact absurd hResponse (by simp [MessageCall.isResponse, MessageCall.signal])
  · have hSignal : response.signal = 0x0C := of_decide_eq_true hDeletion
    rw [hSignal]
    exact if_pos (by rw [List.length_map, hOne])

/-- What is decoded does not depend on the id of the message. -/
theorem decoded_withRequestId (signal : UInt8) (chunks : List SpanChunk) (requestId : UInt16) (complete other : Bool) :
    ReceivedResponse.decoded ⟨signal, chunks.map (SpanChunk.withRequestId requestId), complete⟩ =
      ReceivedResponse.decoded ⟨signal, chunks, other⟩ := by
  have hBool : completeBool (chunks.map (SpanChunk.withRequestId requestId)) = completeBool chunks := by
    rw [completeBool, collectPayloadBytes_withRequestId]
    rfl
  have hJournal : decodeChunksVectorSequentialNotification 0 (chunks.map (SpanChunk.withRequestId requestId)) =
      decodeChunksVectorSequentialNotification 0 chunks :=
    IgnoresIds.decodeSequentialNotification.decodeCounted _ _ _
  simp only [ReceivedResponse.decoded, processHTTP3Response, hJournal, hBool, IgnoresIds.decodeMaybeTreeNode requestId,
    IgnoresIds.decodeVectorTreeNode requestId]

end Readiness

section Delivery

variable {d : Dispatched} {response : MessageCall} {serverId : UInt16} {front back done chunks : List SpanChunk}
  {last : SpanChunk} {value : ResponseValue}

theorem legal_of_chunkFromWire {bytes : List UInt8} {chunk : SpanChunk} {read : ℕ}
    (h : chunkFromWire bytes = some (chunk, read)) : chunk.Legal := by
  unfold chunkFromWire at h
  split at h
  · obtain ⟨rfl, -⟩ := Prod.mk.inj (Option.some.inj h)
    exact .noChunk
  · obtain ⟨rfl, -⟩ := Prod.mk.inj (Option.some.inj h)
    exact .signal _
  · dsimp only at h
    split_ifs at h
    obtain ⟨rfl, -⟩ := Prod.mk.inj (Option.some.inj h)
    have hLen (b₀ b₁ : UInt8) : leValue [b₀, b₁] < 2 ^ 16 := by simpa using leValue_lt [b₀, b₁]
    exact .payload _ _ _ ((List.length_take_le ..).trans_lt (hLen _ _))
  · cases h

theorem Arrives.legal {spans : List SharedSpan} {payloads : List SpanChunk} (h : Arrives spans payloads) :
    ∀ chunk ∈ payloads, chunk.Legal := by
  intro chunk hChunk
  have hMem : some chunk ∈ spans.map fun span => (chunkFromWire (wireBytes span)).map Prod.fst := by
    rw [h]
    exact List.mem_map_of_mem hChunk
  obtain ⟨span, -, hSpan⟩ := List.mem_map.mp hMem
  obtain ⟨⟨_, read⟩, hRead, rfl⟩ := Option.map_eq_some_iff.mp hSpan
  exact legal_of_chunkFromWire hRead

namespace Interleaved

/-- A chunk is a heartbeat or one of the response. -/
theorem heartbeat_or_mem (h : Interleaved response serverId front last back) {chunk : SpanChunk}
    (hChunk : chunk ∈ front ++ last :: back) :
    chunk.IsHeartbeat ∨ chunk ∈ (front ++ [last]).filter fun chunk => chunk.signal ≠ some 0x02 := by
  by_cases hBeat : chunk.signal = some 0x02
  · refine .inl (h.beats chunk ?_ hBeat)
    rcases List.mem_append.mp hChunk with hFront | hRest
    · exact List.mem_append_left _ hFront
    · rcases List.mem_cons.mp hRest with rfl | hBack
      · exact absurd hBeat h.ends
      · exact List.mem_append_right _ hBack
  · refine .inr (List.mem_filter.mpr ⟨?_, by simpa using hBeat⟩)
    rcases List.mem_append.mp hChunk with hFront | hRest
    · exact List.mem_append_left _ hFront
    · rcases List.mem_cons.mp hRest with rfl | hBack
      · exact List.mem_append_right _ List.mem_cons_self
      · exact absurd (h.rest chunk hBack) hBeat

theorem legal (h : Interleaved response serverId front last back) : ∀ chunk ∈ front ++ last :: back, chunk.Legal := by
  intro chunk hChunk
  obtain ⟨spans, -, hArrives⟩ := h.sent
  rcases h.heartbeat_or_mem hChunk with hBeat | hMem
  · exact hBeat.1
  · exact hArrives.legal chunk hMem

/-- Nothing in it ends a response by itself. -/
theorem not_final (h : Interleaved response serverId front last back) :
    ∀ chunk ∈ front ++ last :: back, chunk.signal ≠ some 0x06 := by
  intro chunk hChunk hFinal
  obtain ⟨spans, hEncode, hArrives⟩ := h.sent
  rcases h.heartbeat_or_mem hChunk with hBeat | hMem
  · rw [hBeat.2] at hFinal
    exact absurd (Option.some.inj hFinal) (by decide)
  · have hCarries := (framed_or_single h.isResponse h.fits hEncode hArrives).1
    rw [(hCarries chunk hMem).2] at hFinal
    cases response <;> simp [MessageCall.signal] at hFinal

/-- What has been pushed: all chunks of the response once its last one is there, and fewer before. -/
theorem pushedOf_eq (h : Interleaved response serverId front last back) (hDone : done <+: front ++ last :: back)
    (requestId : UInt16) :
    (front ++ [last] <+: done ∧ pushedOf requestId done =
        ((front ++ [last]).filter fun chunk => chunk.signal ≠ some 0x02).map (SpanChunk.withRequestId requestId)) ∨
      ¬front ++ [last] <+: done ∧ ∃ k, k < ((front ++ [last]).filter fun chunk => chunk.signal ≠ some 0x02).length ∧
        pushedOf requestId done = (((front ++ [last]).filter fun chunk => chunk.signal ≠ some 0x02).take k).map
          (SpanChunk.withRequestId requestId) := by
  have hStream : front ++ last :: back = front ++ [last] ++ back := by simp
  rw [hStream] at hDone
  by_cases hWhole : front ++ [last] <+: done
  · obtain ⟨more, rfl⟩ := hWhole
    have hMore : more.filter (fun chunk => chunk.signal ≠ some 0x02) = [] := by
      refine List.filter_eq_nil_iff.mpr fun chunk hChunk => ?_
      have hBack : more <+: back := (List.prefix_append_right_inj _).mp hDone
      simp [h.rest chunk (hBack.subset hChunk)]
    exact .inl ⟨List.prefix_append .., by rw [pushedOf, List.filter_append, hMore, List.append_nil]⟩
  · obtain ⟨more, hMore⟩ : done <+: front := by
      rcases List.prefix_or_prefix_of_prefix hDone (List.prefix_append (front ++ [last]) back) with hPart | hPart
      · rcases List.prefix_concat_iff.mp hPart with rfl | hFront
        · exact absurd List.prefix_rfl hWhole
        · exact hFront
      · exact absurd hPart hWhole
    have hLast : [last].filter (fun chunk => chunk.signal ≠ some 0x02) = [last] := by simp [h.ends]
    refine .inr ⟨hWhole, (done.filter fun chunk => chunk.signal ≠ some 0x02).length, ?_, ?_⟩
    · rw [← hMore, List.filter_append, List.filter_append, hLast]
      simp only [List.length_append, List.length_singleton]
      omega
    · rw [← hMore, List.filter_append, List.filter_append, List.append_assoc, List.take_left, pushedOf]

end Interleaved

namespace Reassembly

/-- A handler that waits after some chunks. -/
def after (d : Dispatched) (done : List SpanChunk) : Reassembly where
  message := ReceivedResponse.pushResponseChunks {} (pushedOf d.requestId done)
  received := (done.flatMap chunkToWire).length

theorem run_of_unregistered {s : Reassembly} (h : s.registered = false) (events : List (List UInt8)) :
    (s.run d events).threw = s.threw ∧ (s.run d events).processed = s.processed := by
  induction events generalizing s with
  | nil => exact ⟨rfl, rfl⟩
  | cons event more ih =>
      have hStep : s.step d event = { s with received := s.received + event.length } := by simp [step, h]
      have hRest := ih (s := s.step d event) (by rw [hStep]; exact h)
      rw [hStep] at hRest
      rw [run, List.foldl_cons, hStep]
      exact hRest

/-- What the handler has thrown stays thrown, and what it has had decoded stays so. -/
theorem keeps_step (s : Reassembly) (event : List UInt8) :
    (s.threw = true → (s.step d event).threw = true) ∧ s.processed <+: (s.step d event).processed := by
  simp only [step]
  split_ifs
  · split
    · exact ⟨id, List.prefix_rfl⟩
    · exact ⟨fun _ => rfl, List.prefix_rfl⟩
    · split_ifs
      · exact ⟨id, List.prefix_append ..⟩
      · exact ⟨fun _ => rfl, List.prefix_append ..⟩
  · exact ⟨id, List.prefix_rfl⟩

theorem keeps_run (s : Reassembly) (events : List (List UInt8)) :
    (s.threw = true → (s.run d events).threw = true) ∧ s.processed <+: (s.run d events).processed := by
  induction events generalizing s with
  | nil => exact ⟨id, List.prefix_rfl⟩
  | cons event more ih =>
      obtain ⟨hThrew, hProcessed⟩ := ih (s.step d event)
      exact ⟨fun h => hThrew ((s.keeps_step event).1 h), (s.keeps_step event).2.trans hProcessed⟩

end Reassembly

section Steps

variable (h : Interleaved response serverId front last back) (hDone : done ++ chunks <+: front ++ last :: back)
include h hDone

/-- Whole chunks are all pushed before the handler looks whether the response is ready. -/
theorem handle_after :
    ∃ lastTyped, d.handleEvent (Reassembly.after d done).message (.data (chunks.flatMap chunkToWire)) =
      d.gate ⟨.pushResponseChunks {} (pushedOf d.requestId (done ++ chunks)), lastTyped, false⟩ := by
  have hSubset : ∀ chunk ∈ chunks, chunk ∈ front ++ last :: back := fun chunk hChunk =>
    hDone.subset (List.mem_append_right _ hChunk)
  obtain ⟨lastTyped, hEvent⟩ := handleEvent_chunks (fun chunk hChunk => h.legal chunk (hSubset chunk hChunk)) d
    (Reassembly.after d done).message
  have hFinal : chunks.any (fun chunk => decide (chunk.signal = some 0x06)) = false := by
    rw [List.any_eq_false]
    intro chunk hChunk
    simpa using h.not_final chunk (hSubset chunk hChunk)
  have hPushed : (Reassembly.after d done).message.pushResponseChunks (pushedOf d.requestId chunks) =
      .pushResponseChunks {} (pushedOf d.requestId (done ++ chunks)) := by
    rw [pushedOf, pushedOf, List.filter_append, List.map_append]
    exact List.foldl_append.symm
  exact ⟨lastTyped, by rw [hEvent, hFinal, hPushed]⟩

theorem step_waiting (hRequest : d.requestSignal = response.signal - 1)
    (hNone : readySignal d.requestSignal false (pushedOf d.requestId (done ++ chunks)) = none) :
    (Reassembly.after d done).step d (chunks.flatMap chunkToWire) = .after d (done ++ chunks) := by
  obtain ⟨lastTyped, hEvent⟩ := handle_after (d := d) h hDone
  have hRange : 0x07 ≤ d.requestSignal ∧ d.requestSignal ≤ 0x21 := by
    have hResponse := h.isResponse
    rw [hRequest]
    cases response <;> simp [MessageCall.signal, MessageCall.isResponse] at hResponse ⊢
  rw [Reassembly.step]
  dsimp only
  rw [if_pos (show (Reassembly.after d done).registered = true from rfl), hEvent, Dispatched.gate, ReceivedResponse.responseChunks_pushResponseChunks]
  dsimp only
  rw [hNone]
  dsimp only
  rw [if_pos hRange, if_neg (fun hFinal => Bool.false_ne_true hFinal.1)]
  simp [Reassembly.after]

theorem step_ready {signal : UInt8}
    (hSome : readySignal d.requestSignal false (pushedOf d.requestId (done ++ chunks)) = some signal) :
    ∃ complete, ((Reassembly.after d done).step d (chunks.flatMap chunkToWire)).processed =
        [(((done ++ chunks).flatMap chunkToWire).length,
          ReceivedResponse.decoded ⟨signal, pushedOf d.requestId (done ++ chunks), complete⟩)] ∧
      ((ReceivedResponse.decoded ⟨signal, pushedOf d.requestId (done ++ chunks), complete⟩).isSome →
        ((Reassembly.after d done).step d (chunks.flatMap chunkToWire)).registered = false ∧
        ((Reassembly.after d done).step d (chunks.flatMap chunkToWire)).threw = false) := by
  obtain ⟨lastTyped, hEvent⟩ := handle_after (d := d) h hDone
  set message := ReceivedResponse.pushResponseChunks {} (pushedOf d.requestId (done ++ chunks)) with hMessage
  have hChunks : message.responseChunks = pushedOf d.requestId (done ++ chunks) :=
    ReceivedResponse.responseChunks_pushResponseChunks _
  have hGate : d.gate ⟨message, lastTyped, false⟩ = .ready { message with signal := signal } := by
    rw [Dispatched.gate, hChunks]
    dsimp only
    rw [hSome]
    dsimp only
    rw [hChunks]
  rw [hGate] at hEvent
  refine ⟨message.responseComplete, ?_⟩
  rw [← hChunks, Reassembly.step]
  dsimp only
  rw [if_pos (show (Reassembly.after d done).registered = true from rfl), hEvent]
  dsimp only
  constructor
  · split_ifs <;> simp [Reassembly.after]
  · intro hDecoded
    rw [if_pos hDecoded]
    exact ⟨rfl, rfl⟩

end Steps

/-- The first of some events that arrive whole is made of the chunks that it begins with. -/
theorem first_group {rest value : List SpanChunk} {event : List UInt8} {more : List (List UInt8)}
    (hNe : ∀ chunk ∈ rest, chunkToWire chunk ≠ []) (hMissing : ¬value <+: done)
    {groups : List (List SpanChunk)} {others : List (List UInt8)}
    (hEvents : event :: more = groups.map (List.flatMap chunkToWire) ++ others) (hPrefix : groups.flatten <+: rest)
    (hValue : value <+: done ++ groups.flatten) :
    ∃ group after, groups = group :: after ∧ group <+: rest ∧ event = group.flatMap chunkToWire ∧
      more = after.map (List.flatMap chunkToWire) ++ others ∧
      ∀ first, first <+: rest → event = first.flatMap chunkToWire → first = group := by
  cases groups with
  | nil => exact absurd (by simpa using hValue) hMissing
  | cons group after =>
      obtain ⟨hEvent, hMore⟩ := List.cons.inj hEvents
      have hGroup : group <+: rest := (List.prefix_append group after.flatten).trans hPrefix
      refine ⟨group, after, rfl, hGroup, hEvent, hMore, fun first hFirst hSame => ?_⟩
      have hBytes : first.flatMap chunkToWire = group.flatMap chunkToWire := hSame.symm.trans hEvent
      have hShort := prefix_of_length_le hNe hFirst hGroup (by rw [hBytes])
      have hLong := prefix_of_length_le hNe hGroup hFirst (by rw [hBytes])
      exact hShort.eq_of_length_le hLong.length_le

/-- An event that ends inside a chunk is not made of whole ones. -/
theorem not_whole_of_cut {tail group : List SpanChunk} {chunk : SpanChunk} {k : ℕ}
    (hGroup : group <+: chunks ++ chunk :: tail) (hPos : 0 < k) (hk : k < (chunkToWire chunk).length) :
    chunks.flatMap chunkToWire ++ (chunkToWire chunk).take k ≠ group.flatMap chunkToWire := by
  intro hBytes
  have hLength := congrArg List.length hBytes
  rw [List.length_append, List.length_take, Nat.min_eq_left hk.le] at hLength
  have hChunk : chunks ++ [chunk] <+: chunks ++ chunk :: tail := by simp
  rcases Nat.lt_or_ge chunks.length group.length with hLonger | hShorter
  · obtain ⟨after, rfl⟩ := List.prefix_of_prefix_length_le hChunk hGroup (by simpa using hLonger)
    rw [List.flatMap_append, List.flatMap_append, List.flatMap_singleton, List.length_append, List.length_append] at hLength
    omega
  · obtain ⟨after, rfl⟩ := List.prefix_of_prefix_length_le hGroup (List.prefix_append ..) hShorter
    rw [List.flatMap_append, List.length_append] at hLength
    omega

section Events

variable (h : Interleaved response serverId front last back)
  (hValue : ReceivedResponse.decoded
    ⟨response.signal, (front ++ [last]).filter fun chunk => chunk.signal ≠ some 0x02, true⟩ = some value)
  (hRequest : d.requestSignal = response.signal - 1) (hDone : done ++ chunks <+: front ++ last :: back)
  (more : List (List UInt8))
include h hDone

include hValue hRequest in
/-- The event with the last chunk of the response. -/
theorem reassembles_of_last (hLast : front ++ [last] <+: done ++ chunks) :
    Reassembles d value ((front ++ [last]).flatMap chunkToWire).length (.after d done)
      (chunks.flatMap chunkToWire :: more) := by
  obtain ⟨spans, hEncode, hArrives⟩ := h.sent
  have hPushed := ((h.pushedOf_eq hDone d.requestId).resolve_right fun hPart => hPart.1 hLast).2
  have hReady := readySignal_all h.isResponse h.fits hEncode hArrives d.requestId
  rw [← hPushed, ← hRequest] at hReady
  obtain ⟨complete, hProcessed, hDecoded⟩ := step_ready h hDone hReady
  rw [hPushed, decoded_withRequestId _ _ _ complete true, hValue] at hProcessed hDecoded
  obtain ⟨hUnregistered, hThrew⟩ := hDecoded rfl
  obtain ⟨hSameThrew, hSameProcessed⟩ := Reassembly.run_of_unregistered (d := d) hUnregistered more
  obtain ⟨after, hAfter⟩ := hLast
  refine ⟨hSameThrew.trans hThrew, _, ?_, hSameProcessed.trans hProcessed⟩
  have hBytes : ((front ++ [last]) ++ after).flatMap chunkToWire =
      (front ++ [last]).flatMap chunkToWire ++ after.flatMap chunkToWire := List.flatMap_append
  rw [← hAfter, hBytes, List.length_append]
  exact Nat.le_add_right ..

include hRequest in
/-- Notifications are processed with the first event, whatever there is in it. -/
theorem not_reassembles_early (hNotifications : response.signal = 0x20) (hPart : ¬front ++ [last] <+: done ++ chunks) :
    ¬Reassembles d value ((front ++ [last]).flatMap chunkToWire).length (.after d done)
      (chunks.flatMap chunkToWire :: more) := by
  obtain ⟨spans, hEncode, hArrives⟩ := h.sent
  obtain ⟨k, hk, hPushed⟩ := ((h.pushedOf_eq hDone d.requestId).resolve_left fun hWhole => hPart hWhole.1).2
  have hReady := readySignal_take h.isResponse h.fits hEncode hArrives d.requestId hk
  rw [← hPushed, ← hRequest, if_pos hNotifications] at hReady
  obtain ⟨complete, hProcessed, -⟩ := step_ready h hDone hReady
  rintro ⟨-, received, hEnd, hOnce⟩
  have hKept := (Reassembly.keeps_run (d := d) ((Reassembly.after d done).step d (chunks.flatMap chunkToWire)) more).2
  have hFirst : (Reassembly.after d done).run d (chunks.flatMap chunkToWire :: more) =
      ((Reassembly.after d done).step d (chunks.flatMap chunkToWire)).run d more := rfl
  rw [← hFirst, hOnce, hProcessed] at hKept
  obtain ⟨hReceived, -⟩ := Prod.mk.inj (List.cons_prefix_cons.mp hKept).1
  have hStream : front ++ [last] <+: front ++ last :: back := by simp
  refine absurd (prefix_of_length_le (fun chunk hChunk => chunkToWire_ne_nil (h.legal chunk hChunk)) hStream hDone ?_) hPart
  rw [hReceived]
  exact hEnd

include hRequest in
/-- Any other handler goes on waiting. -/
theorem reassembles_iff_rest (hOther : response.signal ≠ 0x20) (hPart : ¬front ++ [last] <+: done ++ chunks) :
    Reassembles d value ((front ++ [last]).flatMap chunkToWire).length (.after d done)
        (chunks.flatMap chunkToWire :: more) ↔
      Reassembles d value ((front ++ [last]).flatMap chunkToWire).length (.after d (done ++ chunks)) more := by
  obtain ⟨spans, hEncode, hArrives⟩ := h.sent
  obtain ⟨k, hk, hPushed⟩ := ((h.pushedOf_eq hDone d.requestId).resolve_left fun hWhole => hPart hWhole.1).2
  have hReady := readySignal_take h.isResponse h.fits hEncode hArrives d.requestId hk
  rw [← hPushed, ← hRequest, if_neg hOther] at hReady
  rw [← step_waiting h hDone hRequest hReady]
  exact ⟨fun hAll => ⟨hAll.1, hAll.2⟩, fun hAll => ⟨hAll.1, hAll.2⟩⟩

end Events

/-- An event that ends inside a chunk. -/
theorem not_reassembles_cut {valueEnd k : ℕ} {chunk : SpanChunk} (hLegal : ∀ chunk ∈ chunks, chunk.Legal)
    (hChunk : chunk.Legal) (hPos : 0 < k) (hk : k < (chunkToWire chunk).length) (more : List (List UInt8)) :
    ¬Reassembles d value valueEnd (.after d done) ((chunks.flatMap chunkToWire ++ (chunkToWire chunk).take k) :: more) := by
  rintro ⟨hThrows, -⟩
  have hThrew : (Parsed.parseBytes d.requestId { message := (Reassembly.after d done).message }
      (chunks.flatMap chunkToWire ++ (chunkToWire chunk).take k)).2 = true := parseBytes_cut hLegal hChunk _ hPos hk
  have hStep : ((Reassembly.after d done).step d (chunks.flatMap chunkToWire ++ (chunkToWire chunk).take k)).threw = true := by
    rw [Reassembly.step]
    dsimp only
    rw [if_pos (show (Reassembly.after d done).registered = true from rfl), Dispatched.handleEvent]
    generalize Parsed.parseBytes _ _ _ = parsed at hThrew
    obtain ⟨s, threw⟩ := parsed
    obtain rfl : threw = true := hThrew
    rfl
  rw [Reassembly.run, List.foldl_cons] at hThrows
  have hKept := (Reassembly.keeps_run (d := d) _ more).1 hStep
  exact absurd (hKept.symm.trans hThrows) (by decide)

/-- A handler that has to wait for the rest of a response gets its value just when the next events arrive whole. -/
theorem reassembles_after (h : Interleaved response serverId front last back)
    (hValue : ReceivedResponse.decoded
      ⟨response.signal, (front ++ [last]).filter fun chunk => chunk.signal ≠ some 0x02, true⟩ = some value)
    (hRequest : d.requestSignal = response.signal - 1) {rest : List SpanChunk} {events : List (List UInt8)}
    (hDone : done ++ rest = front ++ last :: back) (hMissing : ¬front ++ [last] <+: done)
    (hEvents : events.flatten = rest.flatMap chunkToWire) :
    Reassembles d value ((front ++ [last]).flatMap chunkToWire).length (.after d done) events ↔
      ∃ (groups : List (List SpanChunk)) (others : List (List UInt8)),
        events = groups.map (List.flatMap chunkToWire) ++ others ∧ groups.flatten <+: rest ∧
          front ++ [last] <+: done ++ groups.flatten ∧ (d.requestSignal = 0x1F → groups.length = 1) := by
  have hLegal : ∀ chunk ∈ rest, chunk.Legal := fun chunk hChunk =>
    h.legal chunk (hDone ▸ List.mem_append_right _ hChunk)
  have hNe : ∀ chunk ∈ rest, chunkToWire chunk ≠ [] := fun chunk hChunk => chunkToWire_ne_nil (hLegal chunk hChunk)
  induction events generalizing done rest with
  | nil =>
      have hRest : rest = [] := by
        cases rest with
        | nil => rfl
        | cons chunk more =>
            rw [List.flatten_nil, List.flatMap_cons] at hEvents
            exact absurd (List.append_eq_nil_iff.mp hEvents.symm).1 (hNe chunk List.mem_cons_self)
      subst hRest
      rw [List.append_nil] at hDone
      exact absurd (by simp [hDone]) hMissing
  | cons event more ih =>
      rw [List.flatten_cons] at hEvents
      obtain ⟨chunks, remaining, rfl, ⟨rfl, hMore⟩ | ⟨chunk, tail, k, rfl, hPos, hk, rfl⟩⟩ := exists_cut hEvents
      · rw [← List.append_assoc] at hDone
        have hPrefix : done ++ chunks <+: front ++ last :: back := hDone ▸ List.prefix_append ..
        have hFirst : chunks <+: chunks ++ remaining := List.prefix_append ..
        by_cases hLast : front ++ [last] <+: done ++ chunks
        · refine iff_of_true (reassembles_of_last h hValue hRequest hPrefix more hLast) ?_
          exact ⟨[chunks], more, rfl, by simp, by simpa using hLast, fun _ => rfl⟩
        · by_cases hNotifications : response.signal = 0x20
          · refine iff_of_false (not_reassembles_early h hRequest hPrefix more hNotifications hLast) ?_
            rintro ⟨groups, others, hGroups, hFlat, hHas, hSingle⟩
            obtain ⟨group, after, rfl, -, -, -, hOnly⟩ := first_group hNe hMissing hGroups hFlat hHas
            obtain rfl := hOnly chunks hFirst rfl
            have hAfter : after = [] := by simpa using hSingle (by rw [hRequest, hNotifications]; rfl)
            exact hLast (by simpa [hAfter] using hHas)
          · have hOther : d.requestSignal ≠ 0x1F := by
              rw [hRequest]
              intro hSignal
              exact hNotifications (by rw [← UInt8.sub_add_cancel response.signal 1, hSignal]; rfl)
            have hRest := ih hDone hLast hMore (fun chunk hChunk => hLegal chunk (List.mem_append_right _ hChunk))
              fun chunk hChunk => hNe chunk (List.mem_append_right _ hChunk)
            refine (reassembles_iff_rest h hRequest hPrefix more hNotifications hLast).trans (hRest.trans ?_)
            constructor
            · rintro ⟨groups, others, rfl, hFlat, hHas, -⟩
              exact ⟨chunks :: groups, others, rfl, (List.prefix_append_right_inj _).mpr hFlat,
                by simpa using hHas, fun hSignal => absurd hSignal hOther⟩
            · rintro ⟨groups, others, hGroups, hFlat, hHas, -⟩
              obtain ⟨group, after, rfl, -, -, hAfter, hOnly⟩ := first_group hNe hMissing hGroups hFlat hHas
              obtain rfl := hOnly chunks hFirst rfl
              exact ⟨after, others, hAfter, (List.prefix_append_right_inj _).mp hFlat, by simpa using hHas,
                fun hSignal => absurd hSignal hOther⟩
      · refine iff_of_false (not_reassembles_cut (fun next hNext => hLegal next (List.mem_append_left _ hNext))
          (hLegal chunk (by simp)) hPos hk more) ?_
        rintro ⟨groups, others, hGroups, hFlat, hHas, -⟩
        obtain ⟨group, after, rfl, hGroup, hEvent, -, -⟩ := first_group hNe hMissing hGroups hFlat hHas
        exact not_whole_of_cut hGroup hPos hk hEvent

/-- The handler does what it has to just when every event, up to the one with the end of the value, is made of whole
chunks, and the answer to a request for notifications is in the first of them. -/
theorem reassembles_iff (h : Interleaved response serverId front last back)
    (hValue : ReceivedResponse.decoded
      ⟨response.signal, (front ++ [last]).filter fun chunk => chunk.signal ≠ some 0x02, true⟩ = some value)
    (hRequest : d.requestSignal = response.signal - 1) {events : List (List UInt8)}
    (hCut : CutInto ((front ++ last :: back).flatMap chunkToWire) events) :
    Reassembles d value ((front ++ [last]).flatMap chunkToWire).length {} events ↔
      ArrivesWhole d (front ++ [last]) (front ++ last :: back) events :=
  reassembles_after h hValue hRequest (List.nil_append _) (by simp) hCut.flatten

theorem interleaved_upsert : Interleaved (.upsertNodeResponse true) 7 [] (.ofPayload 7 0x0A (str "1")) [] :=
  ⟨rfl, trivial, ⟨_, rfl, arrives_payloadSpan (by decide)⟩, by decide, nofun, nofun⟩

theorem reassembles_iff_upsert :
    Reassembles ⟨0x09, 7, false⟩ (.settled (some (.bool true))) 7 {} [[2, 0x0A, 7, 0, 1, 0, 0x31]] ↔
      ArrivesWhole ⟨0x09, 7, false⟩ [.ofPayload 7 0x0A (str "1")] [.ofPayload 7 0x0A (str "1")]
        [[2, 0x0A, 7, 0, 1, 0, 0x31]] :=
  reassembles_iff interleaved_upsert rfl rfl ⟨by decide, rfl⟩

/-- A response that is cut inside the header of its chunk. -/
theorem not_reassembles_header : ¬∀ (d : Dispatched) (response : MessageCall) (serverId : UInt16)
    (front : List SpanChunk) (last : SpanChunk) (back : List SpanChunk) (value : ResponseValue) (events : List (List UInt8)),
    Interleaved response serverId front last back →
      ReceivedResponse.decoded
        ⟨response.signal, (front ++ [last]).filter fun chunk => chunk.signal ≠ some 0x02, true⟩ = some value →
      d.requestSignal = response.signal - 1 → CutInto ((front ++ last :: back).flatMap chunkToWire) events →
        Reassembles d value ((front ++ [last]).flatMap chunkToWire).length {} events := by
  intro h
  have hHandled := h ⟨0x09, 7, false⟩ (.upsertNodeResponse true) 7 [] (.ofPayload 7 0x0A (str "1")) []
    (.settled (some (.bool true))) [[2, 0x0A, 7], [0, 1, 0, 0x31]] interleaved_upsert rfl rfl ⟨by decide, rfl⟩
  have hLegal := interleaved_upsert.legal (.ofPayload 7 0x0A (str "1")) List.mem_cons_self
  have hNot : ¬Reassembles ⟨0x09, 7, false⟩ (.settled (some (.bool true))) 7 (.after ⟨0x09, 7, false⟩ [])
      ((([] : List SpanChunk).flatMap chunkToWire ++ (chunkToWire (.ofPayload 7 0x0A (str "1"))).take 3) ::
        [[0, 1, 0, 0x31]]) := not_reassembles_cut (List.forall_mem_nil _) hLegal (by decide) (by decide) _
  exact hNot hHandled

end Delivery

end JavaScript
end Wwatp
