import Wwatp.Cxx.Transitions
import Wwatp.Transport.StreamTables

/-! Workers append chunks and close streams while the thread of the connection plans what to
send and takes it, every step under its own lock. -/
namespace Wwatp

open Cxx

/-- The calls that hand chunks over to the table of outgoing chunks. -/
inductive Worker
  | connectorRequest
  | connectorResponse
  | listenerRequest
  | listenerResponse
  /-- `prepareStaticHandler`, which appends even no chunks -/
  | listenerStatic
  deriving DecidableEq, Repr

/-- What the call makes of the chunks that its callback has returned. -/
def Worker.sort (t : StreamTables) (stream : StreamIdentifier) (processed : List SharedSpan) :
    Worker → Outcome Processed
  | connectorRequest => QuicConnector.sortRequested processed
  | connectorResponse => sortProcessed processed
  | listenerRequest => sortProcessed processed
  | listenerResponse => QuicListener.sortResponse t stream processed
  | listenerStatic => .ok .queued

/-- The tables with the calls of `planForNOutgoingChunks` begun so far. `appended`, `popped`
and `closed` record what happened to the chunks of each stream. -/
structure SendQueues where
  tables : StreamTables := {}
  plans : List Plan := []
  appended : StreamIdentifier → List SharedSpan := fun _ => []
  popped : StreamIdentifier → List SharedSpan := fun _ => []
  closed : List StreamIdentifier := []

namespace SendQueues

inductive Action
  | process (worker : Worker) (stream : StreamIdentifier) (processed : List SharedSpan)
  | cleanup (stream : StreamIdentifier)
  | insertReturnPath (stream : StreamIdentifier) (req : Request)
  | pop (streams : List StreamIdentifier) (n : ℕ)
  | plan (dcid : Str) (n : ℕ) (req : Request)
  | filter (call : ℕ)
  | choose (call draw : ℕ)

def step (s : SendQueues) : Action → Option SendQueues
  | .process worker stream processed =>
    match worker.sort s.tables stream processed with
    | .ok .queued =>
      some { s with
        tables := s.tables.appendOutgoing stream processed
        appended := Function.update s.appended stream (s.appended stream ++ processed) }
    | _ => some s
  | .cleanup stream =>
    some { s with tables := s.tables.cleanup stream, closed := stream :: s.closed }
  | .insertReturnPath stream req =>
    some { s with tables := s.tables.insertReturnPath stream req }
  | .pop streams n =>
    let (tables, pieces) := s.tables.popPieces streams n
    some { s with
      tables := tables
      popped := fun stream => s.popped stream ++ KeyedQueues.takenFrom pieces stream }
  | .plan dcid n req =>
    some { s with
      plans := s.plans ++ [.collected dcid n req (s.tables.potentialIdentifiers dcid)] }
  | .filter call => do
    let plan ← s.plans[call]?
    let next ← plan.filter s.tables
    return { s with plans := s.plans.set call next }
  | .choose call draw => do
    let plan ← s.plans[call]?
    let next ← plan.choose s.tables draw
    return { s with plans := s.plans.set call next }

/-- The chunks that wait for a stream. -/
def queued (s : SendQueues) : StreamIdentifier → List SharedSpan := s.tables.outgoingChunks.queued

variable {s t : SendQueues} {action : Action} {stream : StreamIdentifier}

/-- What a step can come to: chunks are appended, a stream is cleaned up, chunks are popped,
a stream gets its return path, a call of `planForNOutgoingChunks` begins or goes on, or
nothing changes. -/
inductive Moves (s : SendQueues) : SendQueues → Prop
  | append (stream : StreamIdentifier) (processed : List SharedSpan) : Moves s { s with
      tables := s.tables.appendOutgoing stream processed
      appended := Function.update s.appended stream (s.appended stream ++ processed) }
  | cleanup (stream : StreamIdentifier) : Moves s { s with
      tables := s.tables.cleanup stream
      closed := stream :: s.closed }
  | pop (streams : List StreamIdentifier) (n : ℕ) : Moves s { s with
      tables := (s.tables.popPieces streams n).1
      popped := fun stream =>
        s.popped stream ++ KeyedQueues.takenFrom (s.tables.popPieces streams n).2 stream }
  | returnPath (stream : StreamIdentifier) (req : Request) : Moves s { s with
      tables := s.tables.insertReturnPath stream req }
  | plan (dcid : Str) (n : ℕ) (req : Request) : Moves s { s with
      plans := s.plans ++ [.collected dcid n req (s.tables.potentialIdentifiers dcid)] }
  | goOn (call : ℕ) (plan next : Plan) (hPlan : s.plans[call]? = some plan)
      (hNext : plan.filter s.tables = some next ∨ ∃ draw, plan.choose s.tables draw = some next) :
      Moves s { s with plans := s.plans.set call next }
  | stay : Moves s s

theorem step_moves (hStep : step s action = some t) : Moves s t := by
  cases action with
  | process worker stream processed =>
    rw [step] at hStep
    split at hStep
    · obtain rfl := Option.some.inj hStep
      exact .append stream processed
    · obtain rfl := Option.some.inj hStep
      exact .stay
  | cleanup stream =>
    obtain rfl := Option.some.inj hStep
    exact .cleanup stream
  | insertReturnPath stream req =>
    obtain rfl := Option.some.inj hStep
    exact .returnPath stream req
  | pop streams n =>
    obtain rfl := Option.some.inj hStep
    exact .pop streams n
  | plan dcid n req =>
    obtain rfl := Option.some.inj hStep
    exact .plan dcid n req
  | filter call =>
    obtain ⟨plan, hPlan, hStep⟩ := Option.bind_eq_some_iff.mp hStep
    obtain ⟨next, hNext, hStep⟩ := Option.bind_eq_some_iff.mp hStep
    obtain rfl := Option.some.inj hStep
    exact .goOn call plan next hPlan (.inl hNext)
  | choose call draw =>
    obtain ⟨plan, hPlan, hStep⟩ := Option.bind_eq_some_iff.mp hStep
    obtain ⟨next, hNext, hStep⟩ := Option.bind_eq_some_iff.mp hStep
    obtain rfl := Option.some.inj hStep
    exact .goOn call plan next hPlan (.inr ⟨draw, hNext⟩)

/-- A stream that is open after a step was open before it. -/
theorem not_mem_closed (hStep : step s action = some t) (hOpen : stream ∉ t.closed) :
    stream ∉ s.closed := by
  cases step_moves hStep with
  | cleanup other => exact fun hClosed => hOpen (List.mem_cons_of_mem other hClosed)
  | append | pop | returnPath | plan | goOn | stay => exact hOpen

/-- A step keeps, for a stream it does not close, that nothing is lost, duplicated or
reordered. -/
theorem step_popped_append_queued (hStep : step s action = some t) (hOpen : stream ∉ t.closed)
    (h : s.popped stream ++ s.queued stream = s.appended stream) :
    t.popped stream ++ t.queued stream = t.appended stream := by
  cases step_moves hStep with
  | append other processed =>
    simp only [queued, StreamTables.appendOutgoing, KeyedQueues.queued_append]
    by_cases hStream : stream = other
    · subst hStream
      rw [Function.update_self, Function.update_self, ← h, List.append_assoc]
      rfl
    · rw [Function.update_of_ne hStream, Function.update_of_ne hStream]
      exact h
  | cleanup other =>
    have hStream : stream ≠ other := fun hStream => hOpen (hStream ▸ List.mem_cons_self)
    simp only [queued, StreamTables.cleanup, KeyedQueues.queued_erase]
    rw [Function.update_of_ne hStream]
    exact h
  | pop streams n =>
    rw [← h, List.append_assoc]
    exact congrArg _ (KeyedQueues.takenFrom_append_queued s.tables.outgoingChunks streams n stream)
  | returnPath | plan | goOn | stay => exact h

/-- Until a stream is closed, the chunks popped for it and those still queued are the chunks
appended for it, in order. -/
theorem popped_append_queued (hRun : Reaches step anyStep {} s) :
    ∀ stream ∉ s.closed, s.popped stream ++ s.queued stream = s.appended stream := by
  refine hRun.invariant (P := fun s => ∀ stream ∉ s.closed, s.popped stream ++ s.queued stream =
    s.appended stream) (fun _ _ => rfl) fun s action t hInvariant _ hStep stream hOpen => ?_
  exact step_popped_append_queued hStep hOpen (hInvariant stream (not_mem_closed hStep hOpen))

section Plans

/-- A stream of the connection that belongs to the request. -/
def Belongs (t : StreamTables) (dcid : Str) (req : Request) (stream : StreamIdentifier) : Prop :=
  stream.cid = dcid ∧ t.returnPaths stream = some req

/-- The identifiers that a call holds are distinct and those it was made for. -/
def PlanSound (t : StreamTables) : Plan → Prop
  | .collected dcid _ _ potential => potential.Nodup ∧ ∀ stream ∈ potential, stream.cid = dcid
  | .choosing dcid _ req unused used _ _ =>
    (used ++ unused).Nodup ∧ ∀ stream ∈ used ++ unused, Belongs t dcid req stream
  | .threw => True

/-- A return path is never changed. -/
theorem step_returnPaths (hStep : step s action = some t) {req : Request}
    (h : s.tables.returnPaths stream = some req) : t.tables.returnPaths stream = some req := by
  cases step_moves hStep with
  | returnPath other req' =>
    simp only [StreamTables.insertReturnPath]
    by_cases hStream : stream = other
    · subst hStream
      rw [Function.update_self, h]
      rfl
    · rwa [Function.update_of_ne hStream]
  | append | cleanup | pop | plan | goOn | stay => exact h

/-- A chosen identifier moves from those not used to those used. -/
theorem perm_eraseIdx {α : Type} {unused : List α} (used : List α) {i : ℕ} {a : α} (h : unused[i]? = some a) :
    (used ++ [a] ++ unused.eraseIdx i).Perm (used ++ unused) := by
  obtain ⟨hIn, rfl⟩ := List.getElem?_eq_some_iff.mp h
  rw [List.append_assoc, List.perm_append_left_iff]
  exact List.getElem_cons_eraseIdx_perm hIn

theorem planSound_filter {tables : StreamTables} {plan next : Plan} (h : PlanSound tables plan)
    (hNext : plan.filter tables = some next) : PlanSound tables next := by
  cases plan with
  | collected dcid n req potential =>
    obtain rfl := Option.some.inj hNext
    obtain ⟨hNodup, hCid⟩ := h
    refine ⟨hNodup.filter _, fun stream hStream => ?_⟩
    obtain ⟨hPotential, hReq⟩ := List.mem_filter.mp hStream
    exact ⟨hCid stream hPotential, of_decide_eq_true hReq⟩
  | choosing dcid n req unused used left size => cases hNext
  | threw => cases hNext

theorem planSound_choose {tables : StreamTables} {plan next : Plan} {draw : ℕ}
    (h : PlanSound tables plan) (hNext : plan.choose tables draw = some next) :
    PlanSound tables next := by
  cases plan with
  | collected dcid n req potential => cases hNext
  | choosing dcid n req unused used left size =>
    rw [Plan.choose] at hNext
    split_ifs at hNext with hLeft
    split at hNext
    · cases hNext
    next stream hStream =>
    have hPerm := perm_eraseIdx used hStream
    dsimp only at hNext
    split at hNext
    · obtain rfl := Option.some.inj hNext
      exact trivial
    · obtain rfl := Option.some.inj hNext
      exact ⟨hPerm.nodup_iff.mpr h.1, fun other hOther => h.2 other (hPerm.subset hOther)⟩
  | threw => cases hNext

theorem planSound_mono (hPaths : ∀ stream req, s.tables.returnPaths stream = some req →
    t.tables.returnPaths stream = some req) {plan : Plan} (h : PlanSound s.tables plan) :
    PlanSound t.tables plan := by
  cases plan with
  | collected dcid n req potential => exact h
  | choosing dcid n req unused used left size =>
    exact ⟨h.1, fun stream hStream => ⟨(h.2 stream hStream).1, hPaths _ _ (h.2 stream hStream).2⟩⟩
  | threw => exact trivial

/-- The calls hold distinct identifiers of their connection and request, however the steps
are interleaved. -/
theorem plansSound (hRun : Reaches step anyStep {} s) :
    ∀ plan ∈ s.plans, PlanSound s.tables plan := by
  refine hRun.invariant (P := fun s => ∀ plan ∈ s.plans, PlanSound s.tables plan)
    (fun _ hPlan => absurd hPlan List.not_mem_nil) fun s action t hInvariant _ hStep plan hPlan => ?_
  refine planSound_mono (fun _ _ => step_returnPaths hStep) ?_
  cases step_moves hStep with
  | plan dcid n req =>
    rcases List.mem_append.mp hPlan with hOld | hNew
    · exact hInvariant plan hOld
    · obtain rfl := List.mem_singleton.mp hNew
      refine ⟨Std.ExtTreeMap.nodup_keys.filter _, fun stream hStream => ?_⟩
      exact of_decide_eq_true (List.mem_filter.mp hStream).2
  | goOn call old next hOld hNext =>
    rcases List.mem_or_eq_of_mem_set hPlan with hOther | rfl
    · exact hInvariant plan hOther
    · have hSound := hInvariant old (List.mem_of_getElem? hOld)
      rcases hNext with hNext | ⟨draw, hNext⟩
      · exact planSound_filter hSound hNext
      · exact planSound_choose hSound hNext
  | append | cleanup | pop | returnPath | stay => exact hInvariant plan hPlan

/-- A step that leaves every queue as it is: nothing is appended, taken or cleaned up. -/
def Quiet (s : SendQueues) (action : Action) : Prop :=
  ∀ t, step s action = some t → t.queued = s.queued

/-- The size that a call has counted so far is that of the chunks next in line. -/
def PlanCounts (queue : StreamIdentifier → List SharedSpan) : Plan → Prop
  | .choosing _ n _ _ used left size =>
    sentSizes (KeyedQueues.nextInLine queue used n) = .ok size ∧
      left = n - (used.map fun stream => (queue stream).length).sum
  | _ => True

theorem sentSizes_append {chunks more : List SharedSpan} {size size' : ℕ}
    (h : sentSizes chunks = .ok size) (h' : sentSizes more = .ok size') :
    sentSizes (chunks ++ more) = .ok (size + size') := by
  induction chunks generalizing size with
  | nil =>
    obtain rfl := Except.ok.inj h
    rw [Nat.zero_add]
    exact h'
  | cons chunk chunks ih =>
    obtain ⟨first, hFirst, h⟩ := Outcome.bind_eq_ok.mp h
    obtain ⟨rest, hRest, h⟩ := Outcome.bind_eq_ok.mp h
    obtain rfl := Except.ok.inj h
    rw [List.cons_append, sentSizes, hFirst, Outcome.ok_bind, ih hRest, Outcome.ok_bind, Nat.add_assoc]
    rfl

theorem planCounts_filter {tables : StreamTables} {plan next : Plan}
    {queue : StreamIdentifier → List SharedSpan} (hNext : plan.filter tables = some next) :
    PlanCounts queue next := by
  cases plan with
  | collected dcid n req potential =>
    obtain rfl := Option.some.inj hNext
    exact ⟨rfl, rfl⟩
  | choosing dcid n req unused used left size => cases hNext
  | threw => cases hNext

theorem planCounts_choose {tables : StreamTables} {plan next : Plan} {draw : ℕ}
    (h : PlanCounts tables.outgoingChunks.queued plan) (hNext : plan.choose tables draw = some next) :
    PlanCounts tables.outgoingChunks.queued next := by
  cases plan with
  | collected dcid n req potential => cases hNext
  | choosing dcid n req unused used left size =>
    obtain ⟨hSize, hLeft⟩ := h
    rw [Plan.choose] at hNext
    split_ifs at hNext with hMore
    split at hNext
    · cases hNext
    next stream hStream =>
    dsimp only at hNext
    split at hNext
    · obtain rfl := Option.some.inj hNext
      exact trivial
    next more hTotal =>
    obtain rfl := Option.some.inj hNext
    have hTake : ∀ queue : List SharedSpan, queue.take (min left queue.length) = queue.take left := by
      intro queue
      rw [← List.take_take, List.take_length]
    constructor
    · rw [hTake] at hTotal
      rw [KeyedQueues.nextInLine_append]
      refine sentSizes_append hSize ?_
      rw [← hLeft, KeyedQueues.nextInLine, KeyedQueues.nextInLine, List.append_nil]
      exact hTotal
    · rw [List.map_append, List.sum_append, List.map_singleton, List.sum_singleton]
      omega
  | threw => cases hNext

/-- The calls begun after a state count right as long as the steps are quiet. -/
theorem plansCount (hRun : Reaches step Quiet s t) :
    t.queued = s.queued ∧ s.plans.length ≤ t.plans.length ∧ ∀ call plan, s.plans.length ≤ call →
      t.plans[call]? = some plan → PlanCounts s.queued plan := by
  refine hRun.invariant (P := fun t => t.queued = s.queued ∧ s.plans.length ≤ t.plans.length ∧
    ∀ call plan, s.plans.length ≤ call → t.plans[call]? = some plan → PlanCounts s.queued plan)
    ⟨rfl, Nat.le_refl _, fun call plan hCall hPlan => ?_⟩ fun t action u hInvariant hQuiet hStep => ?_
  · rw [List.getElem?_eq_none hCall] at hPlan
    cases hPlan
  obtain ⟨hQueued, hLength, hCounts⟩ := hInvariant
  refine ⟨(hQuiet u hStep).trans hQueued, ?_⟩
  cases step_moves hStep with
  | plan dcid n req =>
    refine ⟨by rw [List.length_append]; omega, fun call plan hCall hPlan => ?_⟩
    rcases Nat.lt_or_ge call t.plans.length with hBefore | hAfter
    · rw [List.getElem?_append_left hBefore] at hPlan
      exact hCounts call plan hCall hPlan
    · rw [List.getElem?_append_right hAfter, List.getElem?_singleton] at hPlan
      split_ifs at hPlan
      obtain rfl := Option.some.inj hPlan
      exact trivial
  | goOn number old next hOld hNext =>
    refine ⟨by rw [List.length_set]; exact hLength, fun call plan hCall hPlan => ?_⟩
    rw [List.getElem?_set] at hPlan
    split_ifs at hPlan with hNumber hIn
    · obtain rfl := Option.some.inj hPlan
      subst hNumber
      have hBefore := hCounts number old hCall hOld
      rw [← hQueued] at hBefore ⊢
      rcases hNext with hNext | ⟨draw, hNext⟩
      · exact planCounts_filter hNext
      · exact planCounts_choose hBefore hNext
    · exact hCounts call plan hCall hPlan
  | append | cleanup | pop | returnPath | stay => exact ⟨hLength, hCounts⟩

end Plans

/-- Whatever workers and the thread of the connection do in turn: until a stream is closed,
its chunks are sent once and in order; no more chunks are popped than were asked for; a plan
selects streams of its connection and request; and a plan begins and ends without a change
of the queues only with the size of the chunks that are then popped. -/
theorem outgoing_queues (hRun : Reaches step anyStep {} s) :
    (∀ stream ∉ s.closed, s.popped stream ++ s.queued stream = s.appended stream) ∧
      (∀ streams n, (s.tables.popNOutgoingChunks streams n).2.length ≤ n) ∧
      (∀ dcid n req unused used left size,
        Plan.choosing dcid n req unused used left size ∈ s.plans → ∀ stream ∈ used,
          stream.cid = dcid ∧ s.tables.returnPaths stream = some req) ∧
      ∀ t, Reaches step Quiet s t → ∀ call plan, s.plans.length ≤ call →
        t.plans[call]? = some plan → ∀ n size used, plan.result = some (n, size, used) →
          sentSizes (t.tables.popNOutgoingChunks used n).2 = .ok size := by
  refine ⟨popped_append_queued hRun, fun streams n => ?_, ?_, ?_⟩
  · exact KeyedQueues.length_takeEach_le s.tables.outgoingChunks streams n
  · intro dcid n req unused used left size hPlan stream hStream
    exact (plansSound hRun _ hPlan).2 stream (List.mem_append_left _ hStream)
  · intro t hQuiet call plan hCall hPlan n size used hResult
    have hAll : Reaches step anyStep {} t := hRun.trans (hQuiet.mono fun _ _ _ => trivial)
    obtain ⟨hQueued, -, hCounts⟩ := plansCount hQuiet
    have hSound := plansSound hAll plan (List.mem_of_getElem? hPlan)
    have hPlanCounts := hCounts call plan hCall hPlan
    cases plan with
    | collected dcid n' req potential => cases hResult
    | choosing dcid n' req unused used' left size' =>
      rw [Plan.result, Option.ite_none_right_eq_some] at hResult
      obtain ⟨rfl, hPair⟩ := Prod.mk.inj (Option.some.inj hResult.2)
      obtain ⟨rfl, rfl⟩ := Prod.mk.inj hPair
      have hNodup : used'.Nodup := (List.nodup_append.mp hSound.1).1
      rw [← hQueued] at hPlanCounts
      rw [StreamTables.popNOutgoingChunks, StreamTables.popPieces]
      dsimp only
      rw [KeyedQueues.flatMap_takeEach _ hNodup]
      exact hPlanCounts.1
    | threw => cases hResult

/-- A listener's worker appends two chunks to a stream, and one of them is popped. -/
theorem outgoing_queues_popped : ∃ s : SendQueues, Reaches step anyStep {} s ∧
    s.appended ⟨[], 1⟩ = [closeStream ⟨[], 1⟩, closeStream ⟨[], 2⟩] ∧
    s.popped ⟨[], 1⟩ ++ s.queued ⟨[], 1⟩ = [closeStream ⟨[], 1⟩, closeStream ⟨[], 2⟩] := by
  have hAppend : Reaches step anyStep {} _ := .single trivial (show step {} (.process
    .listenerResponse ⟨[], 1⟩ [closeStream ⟨[], 1⟩, closeStream ⟨[], 2⟩]) = some _ from rfl)
  have hRun := hAppend.tail trivial (show step _ (.pop [⟨[], 1⟩] 1) = some _ from rfl)
  have hAppended := (outgoing_queues hRun).1 ⟨[], 1⟩ List.not_mem_nil
  exact ⟨_, hRun, rfl, hAppended⟩

end SendQueues

end Wwatp
