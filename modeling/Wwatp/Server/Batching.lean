import Wwatp.Message.WireLegal
import Wwatp.Server.Route

/-! The response to a request does not depend on how its chunks arrive. -/
namespace Wwatp

open Cxx

namespace HTTP3TreeMessage

variable {m m' : HTTP3TreeMessage} {chunk : SharedSpan}

/-- Pushing a chunk leaves the response alone. -/
structure SameResponse (m m' : HTTP3TreeMessage) : Prop where
  signal : m'.signal = m.signal
  responseChunks : m'.responseChunks = m.responseChunks
  responseComplete : m'.responseComplete = m.responseComplete
  processingFinished : m'.processingFinished = m.processingFinished

theorem pushRequestChunk_sameResponse (h : m.pushRequestChunk chunk = .ok m') :
    m.SameResponse m' := by
  rw [pushRequestChunk] at h
  obtain ⟨signal, -, h⟩ := Outcome.bind_eq_ok.mp h
  obtain ⟨pushed, hPushed, h⟩ := Outcome.bind_eq_ok.mp h
  obtain ⟨canDecode, -, h⟩ := Outcome.bind_eq_ok.mp h
  have hSame : m.SameResponse pushed := by
    rw [adoptRequestId] at hPushed
    split at hPushed
    · obtain ⟨requestId, -, hPushed⟩ := Outcome.bind_eq_ok.mp hPushed
      cases hPushed
      exact ⟨rfl, rfl, rfl, rfl⟩
    · cases hPushed
      exact ⟨rfl, rfl, rfl, rfl⟩
  rw [Outcome.pure_eq_ok, Except.ok.injEq] at h
  subst h
  split_ifs
  · exact ⟨hSame.signal, hSame.responseChunks, hSame.responseComplete, hSame.processingFinished⟩
  · exact hSame

theorem pushRequestChunks_sameResponse {chunks : List SharedSpan}
    (h : m.pushRequestChunks chunks = .ok m') : m.SameResponse m' := by
  induction chunks generalizing m with
  | nil =>
    cases h
    exact ⟨rfl, rfl, rfl, rfl⟩
  | cons chunk rest ih =>
    obtain ⟨next, hNext, hRest⟩ := Outcome.bind_eq_ok.mp h
    have hFirst := pushRequestChunk_sameResponse hNext
    have hMore := ih hRest
    exact ⟨hMore.signal.trans hFirst.signal, hMore.responseChunks.trans hFirst.responseChunks,
      hMore.responseComplete.trans hFirst.responseComplete,
      hMore.processingFinished.trans hFirst.processingFinished⟩

theorem pushRequestChunks_append (front back : List SharedSpan) :
    m.pushRequestChunks (front ++ back) =
      m.pushRequestChunks front >>= fun next => next.pushRequestChunks back := by
  induction front generalizing m with
  | nil => rfl
  | cons chunk rest ih =>
    rw [List.cons_append, pushRequestChunks, pushRequestChunks, bind_assoc]
    congr 1
    funext next
    exact ih

/-- The pushed chunks complete the request exactly at the last of them. -/
structure CompletesAtLast (m : HTTP3TreeMessage) (chunks : List SharedSpan) (m' : HTTP3TreeMessage) :
    Prop where
  pushed : m.pushRequestChunks chunks = .ok m'
  complete : m'.requestComplete = true
  before : ∀ front back, chunks = front ++ back → back ≠ [] →
    ∃ next, m.pushRequestChunks front = .ok next ∧ next.requestComplete = false

/-- After some of the chunks the others are still to come. -/
theorem CompletesAtLast.append {front back : List SharedSpan} {next : HTTP3TreeMessage}
    (h : m.CompletesAtLast (front ++ back) m') (hNext : m.pushRequestChunks front = .ok next) :
    next.CompletesAtLast back m' where
  pushed := by
    have hPushed := h.pushed
    rwa [pushRequestChunks_append, hNext, Outcome.ok_bind] at hPushed
  complete := h.complete
  before := by
    rintro front' back' rfl hMore
    obtain ⟨between, hBetween, hNot⟩ := h.before (front ++ front') back'
      (List.append_assoc _ _ _).symm hMore
    rw [pushRequestChunks_append, hNext, Outcome.ok_bind] at hBetween
    exact ⟨between, hBetween, hNot⟩

end HTTP3TreeMessage

namespace ServerRoute

open HTTP3TreeMessage

theorem popResponseChunks_eq (m : HTTP3TreeMessage) : popResponseChunks m =
    (m.responseChunks, { m with
      responseChunks := []
      processingFinished := m.processingFinished || m.responseComplete }) := by
  induction hChunks : m.responseChunks generalizing m with
  | nil =>
    rw [popResponseChunks]
    split
    · simp only [popResponseChunk, hChunks, Prod.mk.injEq, true_and]
      obtain ⟨_, _, _, _, _, chunks, complete, _⟩ := m
      cases hChunks
      cases complete <;> simp
    · next hCons =>
      rw [hChunks] at hCons
      cases hCons
  | cons chunk rest ih =>
    rw [popResponseChunks]
    split
    · next hNil =>
      rw [hChunks] at hNil
      cases hNil
    · next chunk' rest' hCons =>
      rw [hChunks] at hCons
      cases hCons
      rw [ih _ (by simp [popResponseChunk, hChunks])]
      simp [popResponseChunk, hChunks]

section Batches

variable {σ ρ : Type} {route : ρ} {m m' : HTTP3TreeMessage}

/-- The chunks of a batch that are pushed. -/
def payloads (batch : List SharedSpan) : List SharedSpan :=
  batch.filter fun chunk => chunk.isHeartbeat ≠ .ok true

theorem forEach_pushChunk {batch : List SharedSpan}
    (hPayload : ∀ chunk ∈ payloads batch, chunk.isHeartbeat = .ok false)
    (hPushed : m.pushRequestChunks (payloads batch) = .ok m') :
    Effectful.forEach pushChunk batch (route, m) = (.ok (), (route, m')) := by
  induction batch generalizing m with
  | nil =>
    cases hPushed
    rfl
  | cons chunk rest ih =>
    by_cases hHeartbeat : chunk.isHeartbeat = .ok true
    · have hSkip : payloads (chunk :: rest) = payloads rest := by simp [payloads, hHeartbeat]
      rw [hSkip] at hPayload hPushed
      have hBody : pushChunk chunk (route, m) = (.ok (), (route, m)) := by
        exact Effectful.bind_inspect (f := fun _ => chunk.isHeartbeat) hHeartbeat
      rw [Effectful.forEach, Effectful.bind_ok hBody]
      exact ih hPayload hPushed
    · have hKeep : payloads (chunk :: rest) = chunk :: payloads rest := by
        simp [payloads, hHeartbeat]
      rw [hKeep] at hPayload hPushed
      obtain ⟨next, hNext, hRest⟩ := Outcome.bind_eq_ok.mp hPushed
      have hFalse := hPayload chunk (List.mem_cons_self ..)
      have hBody : pushChunk chunk (route, m) = (.ok (), (route, next)) := by
        exact (Effectful.bind_inspect (f := fun _ => chunk.isHeartbeat) hFalse).trans
          (Effectful.bind_inspect (f := fun s : ρ × HTTP3TreeMessage => s.2.pushRequestChunk chunk) hNext)
      rw [Effectful.forEach, Effectful.bind_ok hBody]
      exact ih (fun c hc => hPayload c (List.mem_cons_of_mem _ hc)) hRest

end Batches

section Serving

variable {σ : Type} {B : Backend σ} {stream : StreamIdentifier} {route route' : ServerRoute σ}
  {m m' done built : HTTP3TreeMessage} {batch : List SharedSpan}

/-- A service that returns has carried out the request and encoded the response to it. -/
theorem buildResponseChunks_ok (h : buildResponseChunks B (route, m) = (.ok (), (route', built))) :
    ∃ response encoded, answer B m route = (.ok response, route') ∧
      response.encode m.requestId = .ok encoded ∧
      built = { m with
        signal := response.signal
        responseChunks := m.responseChunks ++ encoded
        responseComplete := true } := by
  rcases hAnswer : answer B m route with ⟨outcome, after⟩
  have hFirst : answerMessage B (route, m) = (outcome, (after, m)) := by
    simp only [answerMessage, hAnswer]
  cases outcome with
  | error fault =>
    rw [show buildResponseChunks B (route, m) = _ from Effectful.bind_error hFirst] at h
    cases h
  | ok response =>
    rw [show buildResponseChunks B (route, m) = _ from Effectful.bind_ok hFirst] at h
    cases hEncode : response.encode m.requestId with
    | error fault =>
      have hError : encodeResponse response (after, m) =
          (.error fault, (after, { m with signal := response.signal })) :=
        Effectful.bind_error
          (x := Effectful.inspect fun s : ServerRoute σ × HTTP3TreeMessage =>
            response.encode s.2.requestId)
          (s := (after, { m with signal := response.signal }))
          (by simp only [Effectful.inspect, hEncode])
      rw [hError] at h
      cases h
    | ok encoded =>
      have hOk : encodeResponse response (after, m) = (.ok (), (after, { m with
          signal := response.signal
          responseChunks := m.responseChunks ++ encoded
          responseComplete := true })) :=
        Effectful.bind_inspect (f := fun s : ServerRoute σ × HTTP3TreeMessage =>
          response.encode s.2.requestId) (s := (after, { m with signal := response.signal })) hEncode
      rw [hOk] at h
      cases h
      exact ⟨response, encoded, rfl, hEncode, rfl⟩

theorem serve_incomplete (hPayload : ∀ chunk ∈ payloads batch, chunk.isHeartbeat = .ok false)
    (hPushed : m.pushRequestChunks (payloads batch) = .ok m') (hNot : m'.requestComplete = false) :
    serve B batch (route, m) = (.ok [], (route, m')) := by
  rw [serve, Effectful.bind_ok (forEach_pushChunk hPayload hPushed)]
  change (if !m'.requestComplete then (pure [] : Effectful _ _) else _) (route, m') = _
  rw [hNot]
  rfl

/-- What is left of a stream's message after its response. -/
def finishedMessage (built : HTTP3TreeMessage) : HTTP3TreeMessage := (popResponseChunks built).2

/-- The chunks that complete a request make the route serve it. -/
theorem serve_build (hPayload : ∀ chunk ∈ payloads batch, chunk.isHeartbeat = .ok false)
    (hPushed : m.pushRequestChunks (payloads batch) = .ok done) (hComplete : done.requestComplete = true)
    (hFresh : done.responseComplete = false) : serve B batch (route, m) =
      (buildResponseChunks B >>= fun _ => takeResponse) (route, done) := by
  rw [serve, Effectful.bind_ok (forEach_pushChunk hPayload hPushed)]
  change (if !done.requestComplete then (pure [] : Effectful _ _)
    else if !done.responseComplete then buildResponseChunks B >>= fun _ => takeResponse
      else takeResponse) (route, done) = _
  rw [hComplete, hFresh]
  rfl

theorem serve_complete (hPayload : ∀ chunk ∈ payloads batch, chunk.isHeartbeat = .ok false)
    (hPushed : m.pushRequestChunks (payloads batch) = .ok done) (hComplete : done.requestComplete = true)
    (hFresh : done.responseComplete = false)
    (hBuild : buildResponseChunks B (route, done) = (.ok (), (route', built))) :
    serve B batch (route, m) = (.ok built.responseChunks, (route', finishedMessage built)) := by
  rw [serve_build hPayload hPushed hComplete hFresh, Effectful.bind_ok hBuild, finishedMessage]
  simp only [takeResponse, popResponseChunks_eq]

theorem processResponseStream_finished {s : RouteStreams σ} {request : List SharedSpan}
    (hMessage : s.ongoingResponses stream = some m) (hFinished : m.processingFinished = true)
    (hKeep : asksForCleanup request = .ok false) :
    processResponseStream B stream request s = (.ok [closeStream stream], s) := by
  simp only [processResponseStream, hMessage, continueStream, hFinished, hKeep, if_true]
  rfl

/-- A finished stream is closed again with every call. -/
theorem processBatches_finished {s : RouteStreams σ} {later : List (List SharedSpan)}
    (hMessage : s.ongoingResponses stream = some m) (hFinished : m.processingFinished = true)
    (hKeep : ∀ request ∈ later, asksForCleanup request = .ok false) :
    processBatches B stream later s = (.ok (later.map fun _ => [closeStream stream]), s) := by
  induction later with
  | nil => rfl
  | cons request rest ih =>
    have hFirst := processResponseStream_finished (B := B) hMessage hFinished
      (hKeep request (List.mem_cons_self ..))
    rw [processBatches, Effectful.bind_ok hFirst,
      Effectful.bind_ok (ih fun request hMem => hKeep request (List.mem_cons_of_mem _ hMem))]
    rfl

theorem processResponseStream_ongoing {s : RouteStreams σ} {outcome : Outcome (List SharedSpan)}
    (hMessage : s.ongoingResponses stream = some m) (hOpen : m.processingFinished = false)
    (hServe : serve B batch (s.route, m) = (outcome, (route', m'))) :
    processResponseStream B stream batch s =
      (outcome, ⟨route', Function.update s.ongoingResponses stream (some m')⟩) := by
  simp only [processResponseStream, hMessage, continueStream, hOpen, hServe, Bool.false_eq_true,
    if_false]

/-- A heartbeat alone does not clean a stream up. -/
theorem asksForCleanup_of_payloads_nil (h : payloads batch = []) :
    asksForCleanup batch = .ok false := by
  match batch with
  | [] => rfl
  | [chunk] =>
    have hHeartbeat : chunk.isHeartbeat = .ok true := by
      by_contra hNot
      simp [payloads, hNot] at h
    have hType : chunk.signalType ≠ 1 := by
      intro hType
      simp only [SharedSpan.isHeartbeat, SharedSpan.getPayloadSignal, hType] at hHeartbeat
      split at hHeartbeat <;> cases hHeartbeat
    simp [asksForCleanup, hType]
  | _ :: _ :: _ => rfl

/-- The calls that bring a request: none answers before the one that completes it, that
one returns the whole response, and those after it close the stream. -/
theorem processBatches_ongoing {s : RouteStreams σ} {batches : List (List SharedSpan)}
    (hMessage : s.ongoingResponses stream = some m) (hOpen : m.processingFinished = false)
    (hPending : m.requestComplete = false) (hFresh : m.responseComplete = false)
    (hPayload : ∀ chunk ∈ payloads batches.flatten, chunk.isHeartbeat = .ok false)
    (hCompletes : m.CompletesAtLast (payloads batches.flatten) done)
    (hBuild : buildResponseChunks B (s.route, done) = (.ok (), (route', built))) :
    ∃ quiet closed, processBatches B stream batches s =
      (.ok (List.replicate quiet [] ++
          built.responseChunks :: List.replicate closed [closeStream stream]),
        ⟨route', Function.update s.ongoingResponses stream (some (finishedMessage built))⟩) := by
  induction batches generalizing s m with
  | nil =>
    have hDone := hCompletes.complete
    cases hCompletes.pushed
    rw [hPending] at hDone
    cases hDone
  | cons batch rest ih =>
    have hSplit : payloads (batch :: rest).flatten = payloads batch ++ payloads rest.flatten := by
      simp [payloads]
    rw [hSplit] at hPayload hCompletes
    have hNow : ∀ chunk ∈ payloads batch, chunk.isHeartbeat = .ok false := fun c hc =>
      hPayload c (List.mem_append_left _ hc)
    by_cases hLast : payloads rest.flatten = []
    · rw [hLast, List.append_nil] at hCompletes
      have hSame := pushRequestChunks_sameResponse hCompletes.pushed
      have hServe := serve_complete hNow hCompletes.pushed hCompletes.complete
        (hSame.responseComplete.trans hFresh) hBuild
      have hFinished : (finishedMessage built).processingFinished = true := by
        obtain ⟨response, encoded, -, -, rfl⟩ := buildResponseChunks_ok hBuild
        simp [finishedMessage, popResponseChunks_eq]
      have hKeep : ∀ request ∈ rest, asksForCleanup request = .ok false := by
        intro request hMem
        apply asksForCleanup_of_payloads_nil
        rw [payloads, List.filter_eq_nil_iff] at hLast ⊢
        exact fun c hc => hLast c (List.mem_flatten_of_mem hMem hc)
      have hFound : Function.update s.ongoingResponses stream (some (finishedMessage built)) stream =
          some (finishedMessage built) := Function.update_self ..
      have hClosed := processBatches_finished (B := B)
        (s := ⟨route', Function.update s.ongoingResponses stream (some (finishedMessage built))⟩)
        hFound hFinished hKeep
      refine ⟨0, rest.length, ?_⟩
      rw [processBatches, Effectful.bind_ok (processResponseStream_ongoing hMessage hOpen hServe),
        Effectful.bind_ok hClosed]
      simp only [List.map_const', List.replicate_zero, List.nil_append]
      rfl
    · obtain ⟨next, hNext, hNot⟩ := hCompletes.before _ _ rfl hLast
      have hSame := pushRequestChunks_sameResponse hNext
      have hServe : serve B _ (s.route, m) = _ := serve_incomplete hNow hNext hNot
      obtain ⟨quiet, closed, hRest⟩ := ih
        (s := ⟨s.route, Function.update s.ongoingResponses stream (some next)⟩)
        (Function.update_self ..) (hSame.processingFinished.trans hOpen) hNot
        (hSame.responseComplete.trans hFresh)
        (fun c hc => hPayload c (List.mem_append_right _ hc)) (hCompletes.append hNext) hBuild
      refine ⟨quiet + 1, closed, ?_⟩
      rw [processBatches, Effectful.bind_ok (processResponseStream_ongoing hMessage hOpen hServe),
        Effectful.bind_ok hRest, Function.update_idem, List.replicate_succ]
      rfl

end Serving

section Calls

variable {σ α β : Type} {route : ServerRoute σ}

/-- A run that returns adds calls of the backend that have a property. -/
def Adds (x : Effectful (ServerRoute σ) α) (route : ServerRoute σ) (P : List BackendCall → Prop) :
    Prop :=
  ∀ a route', x route = (.ok a, route') →
    ∃ calls, route'.backendCalls = route.backendCalls ++ calls ∧ P calls

namespace Adds

variable {P Q R : List BackendCall → Prop}

theorem pure {a : α} (h : P []) : Adds (Pure.pure a) route P := by
  rintro b route' ⟨⟩
  exact ⟨[], (List.append_nil _).symm, h⟩

theorem call {c : BackendCall} {operation : σ → BackendReply σ α} (h : P [c]) :
    Adds (ServerRoute.call c operation) route P := by
  intro a route' hRun
  obtain rfl := congrArg Prod.snd hRun
  exact ⟨[c], rfl, h⟩

theorem bind {x : Effectful (ServerRoute σ) α} {k : α → Effectful (ServerRoute σ) β}
    (hFirst : Adds x route P)
    (hSecond : ∀ a route', x route = (.ok a, route') → Adds (k a) route' Q)
    (h : ∀ c d, P c → Q d → R (c ++ d)) : Adds (x >>= k) route R := by
  intro b route' hRun
  rcases hX : x route with ⟨outcome | a, between⟩
  · rw [Effectful.bind_error hX] at hRun
    cases hRun
  · rw [Effectful.bind_ok hX] at hRun
    obtain ⟨c, hC, hP⟩ := hFirst a between hX
    obtain ⟨d, hD, hQ⟩ := hSecond a between hX b route' hRun
    exact ⟨c ++ d, by rw [hD, hC, List.append_assoc], h c d hP hQ⟩

/-- What only reads the route adds no call. -/
theorem inspect {f : ServerRoute σ → Outcome α} {k : α → Effectful (ServerRoute σ) β}
    (h : ∀ a, f route = .ok a → Adds (k a) route P) : Adds (Effectful.inspect f >>= k) route P := by
  refine bind (P := fun calls => calls = []) (Q := P) ?_ ?_ ?_
  · rintro a route' hRun
    obtain rfl := congrArg Prod.snd hRun
    exact ⟨[], (List.append_nil _).symm, rfl⟩
  · rintro a route' hRun
    obtain rfl := congrArg Prod.snd hRun
    exact h a (congrArg Prod.fst hRun)
  · rintro c d rfl hD
    exact hD

/-- One call of the backend, and nothing after it. -/
theorem once {c : BackendCall} {operation : σ → BackendReply σ α} {k : α → β} (h : P [c]) :
    Adds (ServerRoute.call c operation >>= fun a => Pure.pure (k a)) route P :=
  bind (P := fun calls => calls = [c]) (Q := fun calls => calls = []) (call rfl)
    (fun _ _ _ => pure rfl) (by rintro _ _ rfl rfl; exact h)

end Adds

/-- A request calls the backend for its operation, except that a label is listened to
only once, and that two kinds of request have no operation. -/
def operationDue (route : ServerRoute σ) (m : HTTP3TreeMessage) : Bool :=
  match m.signal with
  | 0x19 =>
    match m.decodeRegisterNodeListenerRequest with
    | .ok (_, labelRule, some childNotify) => route.addsListener labelRule childNotify
    | _ => false
  | 0x1B => false
  | 0x21 => false
  | _ => true

theorem maintainMutablePage_adds (B : Backend σ) (labelRule : Str) :
    Adds (maintainMutablePage B labelRule) route fun calls => ∀ c ∈ calls, c.signal ≠ 0x19 := by
  have hUpsert (nodes : List TreeNode) (route : ServerRoute σ) :
      Adds (call (.upsertNode nodes) (B.upsertNode nodes) >>= fun _ => (pure () : Effectful _ Unit))
        route fun calls => ∀ c ∈ calls, c.signal ≠ 0x19 :=
    Adds.once (by simp [BackendCall.signal])
  refine Adds.inspect fun page _ => ?_
  refine Adds.bind (P := fun calls => calls = [.getNode page]) (Adds.call rfl)
    (Q := fun calls => ∀ c ∈ calls, c.signal ≠ 0x19) ?_ ?_
  · intro mutablePage route' _
    cases mutablePage with
    | none => exact hUpsert _ _
    | some mutablePage =>
      refine Adds.inspect fun children _ => ?_
      cases children with
      | none => exact Adds.pure (by simp)
      | some children => exact hUpsert _ _
  · rintro c d rfl hD
    simpa [BackendCall.signal] using hD

theorem registerListener_adds (B : Backend σ) (labelRule : Str) (childNotify : Bool) :
    Adds (registerListener B labelRule childNotify) route fun calls =>
      calls.countP (·.signal = 0x19) = if route.addsListener labelRule childNotify then 1 else 0 := by
  refine Adds.inspect fun adds hAdds => ?_
  obtain rfl := Except.ok.inj hAdds
  cases hCase : route.addsListener labelRule childNotify with
  | false => exact Adds.pure (by simp)
  | true =>
    have hListened : ∀ route' : ServerRoute σ, Adds (do
        let url ← Effectful.inspect fun route => .ok route.url
        call (.registerNodeListener url labelRule childNotify)
          (B.registerNodeListener url labelRule childNotify)
        maintainMutablePage B labelRule) route' fun calls => calls.countP (·.signal = 0x19) = 1 := by
      intro route'
      refine Adds.inspect fun url _ => ?_
      refine Adds.bind (P := fun calls => calls = [.registerNodeListener url labelRule childNotify])
        (Q := fun calls => ∀ c ∈ calls, c.signal ≠ 0x19) (Adds.call rfl)
        (fun _ _ _ => maintainMutablePage_adds B labelRule) ?_
      rintro c d rfl hD
      have hNone : d.countP (fun c => decide (c.signal = 0x19)) = 0 := by
        simpa [List.countP_eq_zero] using hD
      rw [List.singleton_append, List.countP_cons_of_pos (by rfl), hNone]
    intro a route' hRun
    obtain ⟨calls, hCalls, hCount⟩ := hListened _ a route' hRun
    exact ⟨calls, hCalls, by simpa using hCount⟩

/-- Carrying out a request calls the operation it asks for once, where it is due. -/
theorem answer_adds (B : Backend σ) (m : HTTP3TreeMessage) :
    Adds (answer B m) route fun calls =>
      calls.countP (·.signal = m.signal) = if operationDue route m then 1 else 0 := by
  have hOnce {c : BackendCall} (hSignal : c.signal = m.signal)
      (hDue : operationDue route m = true) :
      [c].countP (·.signal = m.signal) = if operationDue route m then 1 else 0 := by
    simp [hSignal, hDue]
  unfold answer
  split <;> rename_i hSignal
  case h_10 =>
    -- the listener request: the label may be listened to already
    refine Adds.inspect fun listener hListener => ?_
    obtain ⟨name, labelRule, childNotify⟩ := listener
    refine Adds.inspect fun flag hFlag => ?_
    cases childNotify with
    | none => cases hFlag
    | some childNotify =>
      obtain rfl := Except.ok.inj hFlag
      refine Adds.bind (registerListener_adds B labelRule childNotify)
        (Q := fun calls => calls = []) (fun _ _ _ => Adds.pure rfl) ?_
      rintro c d hC rfl
      have hDue : operationDue route m = route.addsListener labelRule childNotify := by
        rw [operationDue, hSignal]
        simp only [hListener]
      rw [hDue, List.append_nil, hSignal]
      exact hC
  case h_11 =>
    refine Adds.inspect fun _ _ => Adds.pure ?_
    simp [operationDue, hSignal]
  case h_14 =>
    refine Adds.inspect fun _ _ => Adds.inspect fun _ _ => Adds.pure ?_
    simp [operationDue, hSignal]
  case h_15 =>
    intro a route' hRun
    cases hRun
  all_goals
    have hDue : operationDue route m = true := by
      rw [operationDue, hSignal]
      rfl
    first
    | exact Adds.inspect fun _ _ => Adds.once (hOnce hSignal.symm hDue)
    | exact Adds.once (hOnce hSignal.symm hDue)

end Calls

section Invariance

variable {σ : Type} {B : Backend σ} {stream : StreamIdentifier} {request : List SharedSpan}

/-- The message of a request whose chunks complete it exactly at the last of them. -/
structure Recognised (stream : StreamIdentifier) (request : List SharedSpan)
    (done : HTTP3TreeMessage) : Prop where
  /-- no chunk is a heartbeat or without a payload header -/
  payload : ∀ chunk ∈ request, chunk.isHeartbeat = .ok false
  completes : ∃ first rest m, request = first :: rest ∧
    initializeResponseMessage stream first = .ok m ∧ m.CompletesAtLast request done

/-- The batches bring the chunks of the request in order, from its first one on; empty
batches and heartbeats may stand anywhere after that. -/
structure SplitOf (request : List SharedSpan) (batches : List (List SharedSpan)) : Prop where
  begins : batches.head?.bind List.head? = request.head?
  chunks : payloads batches.flatten = request

/-- Whether a chunk is the signal that closes a stream. -/
def isCloseSignal (chunk : SharedSpan) : Bool :=
  chunk.signalType = 1 && chunk.isCloseStream = .ok true

theorem isCloseSignal_closeStream (stream : StreamIdentifier) :
    isCloseSignal (closeStream stream) = true := by
  simp only [isCloseSignal, closeStream, SharedSpan.isCloseStream, SharedSpan.ofSignal,
    Chunk.ofHeader, ChunkHeader.toBytes]
  rfl

/-- However the request is split, its operation is called `count` times, the same
response goes out before the stream is closed, and then it is only closed again. -/
def ServedAlike (B : Backend σ) (stream : StreamIdentifier) (request : List SharedSpan)
    (signal : UInt8) (count : ℕ) (s : RouteStreams σ) : Prop :=
  ∃ route response calls, route.backendCalls = s.route.backendCalls ++ calls ∧
    calls.countP (·.signal = signal) = count ∧
    ∀ batches, SplitOf request batches → ∃ responses after,
      processBatches B stream batches s = (.ok responses, after) ∧ after.route = route ∧
        responses.flatten.takeWhile (!isCloseSignal ·) = response ∧
        ∀ later : List (List SharedSpan), (∀ r ∈ later, asksForCleanup r = .ok false) →
          processBatches B stream later after = (.ok (later.map fun _ => [closeStream stream]), after)

theorem takeWhile_response {response : List SharedSpan} (h : AllPayload response) (quiet closed : ℕ) :
    (List.replicate quiet [] ++ response :: List.replicate closed [closeStream stream]).flatten.takeWhile
      (!isCloseSignal ·) = response := by
  have hResponse : ∀ chunk ∈ response, (!isCloseSignal chunk) = true := by
    intro chunk hMem
    simp [isCloseSignal, h chunk hMem]
  rw [List.flatten_append, List.flatten_cons]
  simp only [List.flatten_replicate_nil, List.nil_append]
  rw [List.takeWhile_append_of_pos hResponse]
  cases closed with
  | zero => simp
  | succ closed => simp [List.replicate_succ, isCloseSignal_closeStream]

theorem initializeResponseMessage_ok {first : SharedSpan} {m : HTTP3TreeMessage}
    (h : initializeResponseMessage stream first = .ok m) :
    ∃ signal, m = { requestId := stream.logicalId, signal } := by
  obtain ⟨requestId, -, h⟩ := Outcome.bind_eq_ok.mp h
  split at h
  · cases h
  · obtain ⟨signal, -, h⟩ := Outcome.bind_eq_ok.mp h
    exact ⟨signal, (Except.ok.inj h).symm⟩

/-- The first call of a stream continues with a message made from the first chunk. -/
theorem processBatches_start {s : RouteStreams σ} {batches : List (List SharedSpan)}
    {first : SharedSpan} {m : HTTP3TreeMessage} (hIdle : s.ongoingResponses stream = none)
    (hBegins : batches.head?.bind List.head? = some first)
    (hInitial : initializeResponseMessage stream first = .ok m) :
    processBatches B stream batches s = processBatches B stream batches
      { s with ongoingResponses := Function.update s.ongoingResponses stream (some m) } := by
  match batches with
  | (front :: rest) :: more =>
    obtain rfl : front = first := by simpa using hBegins
    have hSame : processResponseStream B stream (front :: rest) s =
        processResponseStream B stream (front :: rest)
          { s with ongoingResponses := Function.update s.ongoingResponses stream (some m) } := by
      simp only [processResponseStream, hIdle, hInitial, Function.update_self]
    exact Effectful.bind_congr hSame _

/-- A request that is decoded, carried out and answered is answered once, however it is split,
and its stream is only closed after that. -/
theorem processBatches_split {s : RouteStreams σ} {route' : ServerRoute σ} {done built : HTTP3TreeMessage}
    {batches : List (List SharedSpan)} (hIdle : s.ongoingResponses stream = none)
    (hRequest : Recognised stream request done)
    (hBuild : buildResponseChunks B (s.route, done) = (.ok (), (route', built)))
    (hSplit : SplitOf request batches) : ∃ responses after,
      processBatches B stream batches s = (.ok responses, after) ∧ after.route = route' ∧
        responses.flatten.takeWhile (!isCloseSignal ·) = built.responseChunks ∧
        ∀ later : List (List SharedSpan), (∀ r ∈ later, asksForCleanup r = .ok false) →
          processBatches B stream later after = (.ok (later.map fun _ => [closeStream stream]), after) := by
  obtain ⟨first, rest, m, hFirst, hInitial, hCompletes⟩ := hRequest.completes
  obtain ⟨response, encoded, hAnswer, hEncode, hBuilt⟩ := buildResponseChunks_ok hBuild
  obtain ⟨signal, rfl⟩ := initializeResponseMessage_ok hInitial
  have hSame := pushRequestChunks_sameResponse hCompletes.pushed
  -- the first call makes the message that the others find
  have hStart := processBatches_start (B := B) hIdle
    (hSplit.begins.trans (congrArg List.head? hFirst)) hInitial
  have hPayload : ∀ chunk ∈ payloads batches.flatten, chunk.isHeartbeat = .ok false := by
    rw [hSplit.chunks]
    exact hRequest.payload
  obtain ⟨quiet, closed, hRun⟩ := processBatches_ongoing (B := B)
    (s := { s with ongoingResponses := Function.update s.ongoingResponses stream (some _) })
    (Function.update_self ..) rfl rfl rfl hPayload (by rw [hSplit.chunks]; exact hCompletes) hBuild
  rw [hStart, hRun]
  refine ⟨_, _, rfl, rfl, takeWhile_response ?_ quiet closed, fun later hLater => ?_⟩
  · rw [hBuilt, hSame.responseChunks]
    exact MessageCall.encode_payload hEncode
  · refine processBatches_finished (Function.update_self ..) ?_ hLater
    rw [hBuilt]
    simp [finishedMessage, popResponseChunks_eq]

/-- Batching does not matter: for a request that is decoded, carried out and answered. -/
theorem servedAlike {s : RouteStreams σ} {route' : ServerRoute σ} {done built : HTTP3TreeMessage}
    (hIdle : s.ongoingResponses stream = none) (hRequest : Recognised stream request done)
    (hBuild : buildResponseChunks B (s.route, done) = (.ok (), (route', built))) :
    ServedAlike B stream request done.signal (if operationDue s.route done then 1 else 0) s := by
  obtain ⟨response, encoded, hAnswer, -, -⟩ := buildResponseChunks_ok hBuild
  obtain ⟨calls, hCalls, hCount⟩ := answer_adds B done _ _ hAnswer
  exact ⟨route', built.responseChunks, calls, hCalls, hCount,
    fun batches hSplit => processBatches_split hIdle hRequest hBuild hSplit⟩

/-- A backend without nodes. All its functions return. -/
def emptyBackend : Backend Unit where
  getNode _ _ := .ok none
  upsertNode _ s := { outcome := .ok true, after := s }
  deleteNode _ s := { outcome := .ok true, after := s }
  getPageTree _ _ := .ok []
  queryNodes _ _ := .ok []
  openTransactionLayer _ s := { outcome := .ok true, after := s }
  closeTransactionLayers s := { outcome := .ok true, after := s }
  applyTransaction _ s := { outcome := .ok true, after := s }
  getFullTree _ := .ok []
  registerNodeListener _ _ _ s := { outcome := .ok (), after := s }
  notifyListeners _ _ s := { outcome := .ok (), after := s }
  processNotifications s := { outcome := .ok (), after := s }

/-- A route that has served nothing. -/
def idleStreams : RouteStreams Unit where
  route := .create () 10 (str "wwatp/") (str "MutableNodes")
  ongoingResponses _ := none

/-- A request of one chunk is complete with it. -/
theorem recognised_singleton {chunk : SharedSpan} {m done : HTTP3TreeMessage}
    (hPayload : chunk.isHeartbeat = .ok false)
    (hInitial : initializeResponseMessage stream chunk = .ok m)
    (hPushed : m.pushRequestChunks [chunk] = .ok done) (hComplete : done.requestComplete = true) :
    Recognised stream [chunk] done where
  payload := List.forall_mem_singleton.mpr hPayload
  completes := by
    refine ⟨chunk, [], m, rfl, hInitial, hPushed, hComplete, fun front back hSplit hMore => ?_⟩
    obtain ⟨rfl, -⟩ | ⟨-, rfl⟩ := List.singleton_eq_append_iff.mp hSplit
    · refine ⟨m, rfl, ?_⟩
      obtain ⟨signal, rfl⟩ := initializeResponseMessage_ok hInitial
      rfl
    · exact absurd rfl hMore

/-- A request for a node that does not exist. -/
theorem servedAlike_getNode :
    ServedAlike emptyBackend ⟨[], 1⟩ [payloadSpan 1 0x07 (str "A")] 0x07 1 idleStreams := by
  have hRequest : Recognised ⟨[], 1⟩ [payloadSpan 1 0x07 (str "A")]
      { requestId := 1, signal := 0x07, isInitialized := true,
        requestChunks := [payloadSpan 1 0x07 (str "A")], requestComplete := true } :=
    recognised_singleton rfl rfl rfl rfl
  exact servedAlike (B := emptyBackend) (s := idleStreams) rfl hRequest rfl

/-- `openTransactionLayer` is asked for without a node: the chunk is a complete request,
but decoding it throws, and the backend is not called. -/
theorem not_servedAlike_nothing :
    (∃ done, Recognised ⟨[], 1⟩ [payloadSpan 1 0x11 (leBytes 8 7 ++ str "Nothing")] done) ∧
      (∀ node, (emptyBackend.openTransactionLayer node ()).outcome = .ok true) ∧
      ¬ServedAlike emptyBackend ⟨[], 1⟩ [payloadSpan 1 0x11 (leBytes 8 7 ++ str "Nothing")] 0x11 1
        idleStreams := by
  refine ⟨⟨_, recognised_singleton rfl rfl rfl rfl⟩, fun _ => rfl, ?_⟩
  rintro ⟨route, response, calls, -, -, hSplits⟩
  obtain ⟨responses, after, hRun, -⟩ := hSplits
    [[payloadSpan 1 0x11 (leBytes 8 7 ++ str "Nothing")]] ⟨rfl, rfl⟩
  have hThrows : (processBatches emptyBackend ⟨[], 1⟩
      [[payloadSpan 1 0x11 (leBytes 8 7 ++ str "Nothing")]] idleStreams).1 =
      .error (.invalidArgument (str "TreeNode is nothing")) := rfl
  rw [hRun] at hThrows
  cases hThrows

end Invariance

end ServerRoute

end Wwatp
