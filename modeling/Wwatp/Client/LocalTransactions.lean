import Wwatp.Cxx.Effects
import Wwatp.Message.ServerMessage
import Wwatp.Memory.TreeChanges

/-! The writing calls of a client that does not wait for the server: each works on the local
backend and queues a request. All of them work locally first, except `applyTransaction`. -/
namespace Wwatp

open Cxx Cxx.Effectful

/-- `encode_...Request` on a message made with request id 0. -/
def MessageCall.request (call : MessageCall) : Outcome HTTP3TreeMessage := do
  let encoded ← call.encode 0
  return { signal := call.signal, isInitialized := true, requestChunks := encoded }

/-- An `Http3ClientBackend` with `blockingMode_` off, over a `SimpleBackend`. -/
structure NonBlockingClient (Callback : Type) where
  localBackend : SimpleBackend Callback
  pendingRequests : List HTTP3TreeMessage
  serverSyncOn : Bool

namespace NonBlockingClient

variable {Callback : Type}

/-- The part of a call under `backendMutex_`. A call of a `SimpleBackend` returns true or throws. -/
def locally (operation : SimpleBackend Callback → Outcome (SimpleBackend Callback × List (Notice Callback))) :
    Effectful (NonBlockingClient Callback) Bool := do
  let (after, _) ← inspect fun c => operation c.localBackend
  change fun c => { c with localBackend := after }
  return true

/-- The part of a call under `handlerMutex_`. -/
def queue (call : MessageCall) : Effectful (NonBlockingClient Callback) Unit := do
  if ← look serverSyncOn then do
    let request ← inspect fun _ => call.request
    change fun c => { c with pendingRequests := c.pendingRequests ++ [request] }

/-- Most calls work on the local backend first. -/
def locallyThenQueue
    (operation : SimpleBackend Callback → Outcome (SimpleBackend Callback × List (Notice Callback)))
    (call : MessageCall) : Effectful (NonBlockingClient Callback) Bool := do
  let result ← locally operation
  if result then queue call
  return result

def upsertNode (nodes : List TreeNode) : Effectful (NonBlockingClient Callback) Bool :=
  locallyThenQueue (fun b => b.upsertNode nodes) (.upsertNodeRequest nodes)

def deleteNode (labelRule : Str) : Effectful (NonBlockingClient Callback) Bool :=
  locallyThenQueue (fun b => b.deleteNode labelRule) (.deleteNodeRequest labelRule)

def openTransactionLayer (node : TreeNode) : Effectful (NonBlockingClient Callback) Bool :=
  locallyThenQueue (fun _ =>
      throw (.runtimeError (str "SimpleBackend does not support opening transaction layers")))
    (.openTransactionLayerRequest node)

def closeTransactionLayers : Effectful (NonBlockingClient Callback) Bool :=
  locallyThenQueue (fun _ =>
      throw (.runtimeError (str "SimpleBackend does not support closing transaction layers")))
    .closeTransactionLayersRequest

/-- `applyTransaction` queues the request before it turns to the local backend. -/
def applyTransaction (transaction : Transaction) : Effectful (NonBlockingClient Callback) Bool := do
  queue (.applyTransactionRequest transaction)
  locally fun b => b.applyTransaction transaction

/-- The local backend rejects a transaction. -/
def Rejects (c : NonBlockingClient Callback) (transaction : Transaction) : Prop :=
  (c.localBackend.memoryTree.applyTransaction transaction).Throws

section

variable {c : NonBlockingClient Callback} {transaction : Transaction}

theorem locally_error
    {operation : SimpleBackend Callback → Outcome (SimpleBackend Callback × List (Notice Callback))}
    {fault : Fault} (h : operation c.localBackend = .error fault) :
    locally operation c = (.error fault, c) :=
  bind_error (congrArg (·, c) h)

/-- A call that works locally first queues nothing when the local backend throws. -/
theorem locallyThenQueue_error
    {operation : SimpleBackend Callback → Outcome (SimpleBackend Callback × List (Notice Callback))}
    {call : MessageCall} {fault : Fault} (h : operation c.localBackend = .error fault) :
    locallyThenQueue operation call c = (.error fault, c) :=
  bind_error (locally_error h)

theorem queue_off {call : MessageCall} (h : c.serverSyncOn = false) : queue call c = (.ok (), c) := by
  have hLook : look serverSyncOn c = (.ok false, c) := by rw [look, h]
  rw [queue, bind_ok hLook]
  rfl

theorem queue_on {call : MessageCall} (h : c.serverSyncOn = true) : queue call c =
    match call.request with
    | .ok request => (.ok (), { c with pendingRequests := c.pendingRequests ++ [request] })
    | .error fault => (.error fault, c) := by
  have hLook : look serverSyncOn c = (.ok true, c) := by rw [look, h]
  rw [queue, bind_ok hLook, if_pos rfl]
  cases call.request <;> rfl

/-- A rejected transaction leaves the local backend alone, and adds what `queue` has added. -/
theorem applyTransaction_rejected (h : c.Rejects transaction) :
    (applyTransaction transaction c).2 = (queue (.applyTransactionRequest transaction) c).2 := by
  obtain ⟨fault, hFault, -⟩ := h
  have hLocal (d : NonBlockingClient Callback) (hSame : d.localBackend = c.localBackend) :
      locally (fun b => b.applyTransaction transaction) d = (.error fault, d) := by
    apply locally_error
    rw [hSame, SimpleBackend.applyTransaction, hFault]
    rfl
  have hQueue : (queue (.applyTransactionRequest transaction) c).2.localBackend = c.localBackend := by
    cases hSync : c.serverSyncOn with
    | false => rw [queue_off hSync]
    | true =>
        rw [queue_on hSync]
        cases (MessageCall.applyTransactionRequest transaction).request <;> rfl
  rcases hQueued : queue (.applyTransactionRequest transaction) c with ⟨fault' | ⟨⟩, d⟩
  · rw [applyTransaction, bind_error hQueued]
  · rw [hQueued] at hQueue
    rw [applyTransaction, bind_ok hQueued, hLocal d hQueue]

/-- A rejected transaction leaves both the local backend and the queue as they were exactly
when the server is not kept in sync or the request for it cannot be encoded. -/
theorem unchanged_if_rejected_iff (c : NonBlockingClient Callback) (transaction : Transaction) :
    (c.Rejects transaction →
      (applyTransaction transaction c).2.localBackend = c.localBackend ∧
        (applyTransaction transaction c).2.pendingRequests = c.pendingRequests) ↔
      c.serverSyncOn = false ∨
        (∀ request, (MessageCall.applyTransactionRequest transaction).request ≠ .ok request) ∨
        ¬ c.Rejects transaction := by
  by_cases hRejects : c.Rejects transaction
  · rw [forall_prop_of_true hRejects, applyTransaction_rejected hRejects]
    cases hSync : c.serverSyncOn with
    | false => simp [queue_off hSync]
    | true =>
        rw [queue_on hSync]
        cases (MessageCall.applyTransactionRequest transaction).request with
        | error fault => simp
        | ok request => simp [hRejects]
  · simp [hRejects]

/-- The deletion of a node `A` that should have version 0. -/
def staleDeletion : Transaction := [⟨⟨some 0, str "A", none⟩, []⟩]

/-- A client without nodes, kept in sync with the server. -/
def emptyClient : NonBlockingClient Unit := ⟨⟨.empty, .empty⟩, [], true⟩

theorem emptyClient_rejects : emptyClient.Rejects staleDeletion := ⟨_, rfl, nofun⟩

/-- The request for a rejected transaction is queued all the same. -/
theorem queued_although_rejected :
    emptyClient.Rejects staleDeletion ∧
      (applyTransaction staleDeletion emptyClient).2.pendingRequests ≠ emptyClient.pendingRequests := by
  refine ⟨emptyClient_rejects, ?_⟩
  have hRequest : (MessageCall.applyTransactionRequest staleDeletion).request = .ok _ := rfl
  rw [applyTransaction_rejected emptyClient_rejects, queue_on rfl, hRequest]
  exact List.cons_ne_nil _ _

end

end NonBlockingClient
end Wwatp
