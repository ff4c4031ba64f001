import Wwatp.Cxx.Transitions
import Wwatp.Tree.Node

/-! A client backend in blocking mode: one thread calls it, and the updater's thread
hands it the responses of the server. Each section that holds a mutex is one step. -/
namespace Wwatp

open Cxx

/-- The member in which the response to a request is left for the waiting call. -/
inductive ResponseSlot
  | boolResponse
  | vectorTreeResponse
  | chunksResponse
  | nothing
  deriving DecidableEq

/-- The functions of the client that send a request. -/
inductive Call
  | upsertNode
  | deleteNode
  | openTransactionLayer
  | closeTransactionLayers
  | applyTransaction
  | requestFullTreeSync
  | getMutablePageTree
  | requestStaticNodeData
  | processNotifications
  | registerNodeListener
  | deregisterNodeListener
  | notifyListeners
  deriving DecidableEq

namespace Call

def slot : Call → ResponseSlot
  | requestFullTreeSync | getMutablePageTree => .vectorTreeResponse
  | requestStaticNodeData => .chunksResponse
  | processNotifications => .nothing
  | _ => .boolResponse

/-- Whether the call waits for the response to its request. -/
def awaits : Call → Bool
  | registerNodeListener | deregisterNodeListener | notifyListeners => false
  | _ => true

/-- Whether the call queues its request only while `serverSyncOn_` is set. -/
def checksServerSync : Call → Bool
  | requestFullTreeSync | getMutablePageTree | requestStaticNodeData => false
  | _ => true

theorem slot_of_not_awaits {call : Call} (h : call.awaits = false) : call.slot = .boolResponse := by
  cases call <;> simp_all [awaits, slot]

end Call

/-- What a response carries. -/
inductive Reply
  | success (result : Bool)
  | nodes (nodes : List TreeNode)
  | chunks (chunks : List Chunk)
  | processed
  deriving DecidableEq

def Reply.slot : Reply → ResponseSlot
  | success _ => .boolResponse
  | nodes _ => .vectorTreeResponse
  | chunks _ => .chunksResponse
  | processed => .nothing

/-- Some response to a request of the slot. -/
def Reply.ofSlot : ResponseSlot → Reply
  | .boolResponse => .success false
  | .vectorTreeResponse => .nodes []
  | .chunksResponse => .chunks []
  | .nothing => .processed

@[simp] theorem Reply.slot_ofSlot (slot : ResponseSlot) : (Reply.ofSlot slot).slot = slot := by
  cases slot <;> rfl

/-- Where a call is between two of its sections. -/
inductive Phase
  /-- `applyTransaction` has yet to look at `serverSyncOn_` a second time -/
  | deciding
  /-- `awaitResponse` has not been entered yet -/
  | requested
  | waiting
  /-- `awaitResponse` has returned, the result has not been read yet -/
  | woken
  deriving DecidableEq

/-- A call that has not returned. `request` numbers the request it queued; an
`applyTransaction` that met `serverSyncOn_` unset has queued none. -/
structure CallInProgress where
  phase : Phase
  call : Call
  request : Option ℕ
  deriving DecidableEq

/-- A call that waited and has returned. -/
structure Returned where
  call : Call
  request : Option ℕ
  value : Reply
  deriving DecidableEq

/-- The blocking side of `Http3ClientBackend`. `outstanding` holds the requests whose
responses have not been handled, `updater` the request whose response is stored and
not yet signalled, `answered` what each response carried, and `returned` what the calls
that waited got from `await...Response`. -/
structure BlockingClient where
  nextRequest : ℕ := 0
  outstanding : List (ℕ × Call) := []
  serverSyncOn : Bool := true
  responseReady : Bool := false
  boolResponse : Bool := false
  vectorTreeResponse : List TreeNode := []
  chunksResponse : List Chunk := []
  caller : Option CallInProgress := none
  updater : Option ℕ := none
  answered : List (ℕ × Reply) := []
  returned : List Returned := []
  deriving DecidableEq

namespace BlockingClient

inductive Action
  /-- `enableServerSync` or `disableServerSync`, of either thread -/
  | setServerSync (on : Bool)
  /-- a call begins: it queues its request -/
  | call (call : Call)
  /-- `applyTransaction` looks at `serverSyncOn_` outside of any section -/
  | recheck
  /-- `awaitResponse` resets `responseReady` and waits -/
  | await
  /-- the wait ends -/
  | wake
  /-- the call reads its result and returns -/
  | read
  /-- `processHTTP3Response` stores what the response to a request carries -/
  | store (request : ℕ) (reply : Reply)
  | responseSignal
  deriving DecidableEq

/-- The request of a call joins `pendingRequests_`. -/
def queue (s : BlockingClient) (call : Call) : BlockingClient :=
  { s with
    nextRequest := s.nextRequest + 1
    outstanding := s.outstanding ++ [(s.nextRequest, call)]
    caller := if call.awaits then
        some ⟨if call = .applyTransaction then .deciding else .requested, call, some s.nextRequest⟩
      else none }

/-- A call without its request: it returns what the local backend did, except that
`applyTransaction` goes on to look at `serverSyncOn_` again. -/
def skipRequest (s : BlockingClient) (call : Call) : BlockingClient :=
  if call = .applyTransaction then { s with caller := some ⟨.deciding, call, none⟩ } else s

def storeReply (s : BlockingClient) : Reply → BlockingClient
  | .success result => { s with boolResponse := result }
  | .nodes nodes => { s with vectorTreeResponse := nodes }
  | .chunks chunks => { s with chunksResponse := s.chunksResponse ++ chunks }
  | .processed => s

/-- What a call that was woken finds. -/
def result (s : BlockingClient) : ResponseSlot → Reply
  | .boolResponse => .success s.boolResponse
  | .vectorTreeResponse => .nodes s.vectorTreeResponse
  | .chunksResponse => .chunks s.chunksResponse
  | .nothing => .processed

/-- "Reset for next response". -/
def resetSlot (s : BlockingClient) : ResponseSlot → BlockingClient
  | .boolResponse => { s with boolResponse := false }
  | .vectorTreeResponse => { s with vectorTreeResponse := [] }
  | .chunksResponse => { s with chunksResponse := [] }
  | .nothing => s

/-- One section of one of the threads; `none` where the thread is not at that section. -/
def step (s : BlockingClient) : Action → Option BlockingClient
  | .setServerSync on => some { s with serverSyncOn := on }
  | .call call =>
    match s.caller with
    | some _ => none
    | none =>
      some (if call.checksServerSync && !s.serverSyncOn then s.skipRequest call else s.queue call)
  | .recheck =>
    match s.caller with
    | some ⟨.deciding, call, request⟩ =>
      some { s with caller := if s.serverSyncOn then some ⟨.requested, call, request⟩ else none }
    | _ => none
  | .await =>
    match s.caller with
    | some ⟨.requested, call, request⟩ =>
      some { s with caller := some ⟨.waiting, call, request⟩, responseReady := false }
    | _ => none
  | .wake =>
    match s.caller with
    | some ⟨.waiting, call, request⟩ =>
      if s.responseReady then some { s with caller := some ⟨.woken, call, request⟩ } else none
    | _ => none
  | .read =>
    match s.caller with
    | some ⟨.woken, call, request⟩ =>
      some { s.resetSlot call.slot with
        caller := none
        returned := s.returned ++ [⟨call, request, s.result call.slot⟩] }
    | _ => none
  | .store request reply =>
    match s.updater, s.outstanding.find? (·.1 = request) with
    | none, some (_, call) =>
      if reply.slot = call.slot then
        some { s.storeReply reply with
          outstanding := s.outstanding.filter (·.1 ≠ request)
          updater := some request
          answered := s.answered ++ [(request, reply)] }
      else none
    | _, _ => none
  | .responseSignal =>
    match s.updater with
    | some _ => some { s with updater := none, responseReady := true }
    | none => none

@[simp] theorem storeReply_caller (s : BlockingClient) (reply : Reply) :
    (s.storeReply reply).caller = s.caller := by
  cases reply <;> rfl

@[simp] theorem storeReply_responseReady (s : BlockingClient) (reply : Reply) :
    (s.storeReply reply).responseReady = s.responseReady := by
  cases reply <;> rfl

/-- What a step can do, action by action. -/
inductive Moves (s : BlockingClient) : Action → BlockingClient → Prop
  | setServerSync (on : Bool) : Moves s (.setServerSync on) { s with serverSyncOn := on }
  | skipRequest (call : Call) (hIdle : s.caller = none) : Moves s (.call call) (s.skipRequest call)
  | queue (call : Call) (hIdle : s.caller = none) : Moves s (.call call) (s.queue call)
  | recheck {call : Call} {request : Option ℕ} (hCaller : s.caller = some ⟨.deciding, call, request⟩) :
    Moves s .recheck
      { s with caller := if s.serverSyncOn then some ⟨.requested, call, request⟩ else none }
  | await {call : Call} {request : Option ℕ} (hCaller : s.caller = some ⟨.requested, call, request⟩) :
    Moves s .await { s with caller := some ⟨.waiting, call, request⟩, responseReady := false }
  | wake {call : Call} {request : Option ℕ} (hCaller : s.caller = some ⟨.waiting, call, request⟩)
    (hReady : s.responseReady = true) :
    Moves s .wake { s with caller := some ⟨.woken, call, request⟩ }
  | read {call : Call} {request : Option ℕ} (hCaller : s.caller = some ⟨.woken, call, request⟩) :
    Moves s .read
      { s.resetSlot call.slot with
        caller := none
        returned := s.returned ++ [⟨call, request, s.result call.slot⟩] }
  | store {request : ℕ} {call : Call} {reply : Reply} (hIdle : s.updater = none)
    (hSent : (request, call) ∈ s.outstanding) (hFits : reply.slot = call.slot) :
    Moves s (.store request reply)
      { s.storeReply reply with
        outstanding := s.outstanding.filter (·.1 ≠ request)
        updater := some request
        answered := s.answered ++ [(request, reply)] }
  | responseSignal {request : ℕ} (hStored : s.updater = some request) :
    Moves s .responseSignal { s with updater := none, responseReady := true }

theorem moves_of_step {s t : BlockingClient} {action : Action} (h : s.step action = some t) :
    s.Moves action t := by
  cases action with
  | setServerSync on =>
    cases h
    exact .setServerSync on
  | call call =>
    cases hCaller : s.caller with
    | some busy => simp [step, hCaller] at h
    | none =>
      simp only [step, hCaller, Option.some.injEq] at h
      subst h
      split
      · exact .skipRequest call hCaller
      · exact .queue call hCaller
  | recheck =>
    simp only [step] at h
    split at h
    · next hCaller =>
      cases h
      exact .recheck hCaller
    · cases h
  | await =>
    simp only [step] at h
    split at h
    · next hCaller =>
      cases h
      exact .await hCaller
    · cases h
  | wake =>
    simp only [step] at h
    split at h
    · next hCaller =>
      rw [Option.ite_none_right_eq_some] at h
      obtain ⟨hReady, h⟩ := h
      cases h
      exact .wake hCaller hReady
    · cases h
  | read =>
    simp only [step] at h
    split at h
    · next hCaller =>
      cases h
      exact .read hCaller
    · cases h
  | store request reply =>
    simp only [step] at h
    split at h
    · next hIdle hFound =>
      rw [Option.ite_none_right_eq_some] at h
      obtain ⟨hFits, h⟩ := h
      cases h
      have hKey := List.find?_some hFound
      simp only [decide_eq_true_eq] at hKey
      subst hKey
      exact .store hIdle (List.mem_of_find?_eq_some hFound) hFits
    · cases h
  | responseSignal =>
    simp only [step] at h
    split at h
    · next hStored =>
      cases h
      exact .responseSignal hStored
    · cases h

/-- What is reached from a client without calls. -/
abbrev Reached (allowed : BlockingClient → Action → Prop) (s : BlockingClient) : Prop :=
  Reaches step allowed {} s

end BlockingClient

end Wwatp
