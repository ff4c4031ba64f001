import Wwatp.Cxx.Locks
import Wwatp.Cxx.Transitions
import Wwatp.Memory.ListenerCalls
import Wwatp.Memory.TreeChanges

/-! `ThreadsafeBackend` over a `SimpleBackend`, as one thread calls it. The listeners that it
registers with the tree only queue their notifications; `processNotifications` takes them
from the stack and calls the listeners' own callbacks, which may call the backend again. -/
namespace Wwatp

open Cxx Cxx.Locking

/-- A callback that the tree calls: one wrapped by `registerNodeListener`, or one registered
with the tree itself, which stays away from the threadsafe backend. -/
inductive TreeListener (Callback : Type)
  | wrapped (callback : Callback)
  | direct

/-- An entry of `notification_stack_`: the callback, and what it is to be called with. -/
structure QueuedNotification (Callback : Type) where
  labelRule : Str
  node : Option TreeNode
  callback : Callback

/-- What happens to a notification: it is put on the stack, or taken from it to be delivered. -/
inductive NotificationEvent (Callback : Type)
  | queued (notification : QueuedNotification Callback)
  | delivered (notification : QueuedNotification Callback)

structure ThreadsafeBackend (Callback : Type) where
  tree : SimpleBackend (TreeListener Callback)
  /-- the entry at the back first -/
  notificationStack : List (QueuedNotification Callback)
  /-- Nothing reads the history; it is kept for statements about runs. -/
  history : List (NotificationEvent Callback)

namespace ThreadsafeBackend

variable {Callback : Type}

/-- `tree_mutex_` and `notification_mutex_`. -/
inductive Mutex
  | tree
  | notification
  deriving DecidableEq

/-- A call of one thread on the backend. -/
abbrev Call (Callback α : Type) := Locking Mutex (ThreadsafeBackend Callback) α

/-- A call that reads the tree under `tree_mutex_`. -/
def readTree {α : Type} (read : SimpleBackend (TreeListener Callback) → Outcome α) : Call Callback α :=
  guarded .tree (run (Effectful.inspect fun b => read b.tree))

def getNode (labelRule : Str) : Call Callback (Option TreeNode) :=
  readTree fun tree => .ok (tree.getNode labelRule)

def getPageTree (pageNodeLabelRule : Str) : Call Callback (List TreeNode) :=
  readTree fun tree => .ok (tree.getPageTree pageNodeLabelRule)

def relativeGetPageTree (node : TreeNode) (pageNodeLabelRule : Str) : Call Callback (List TreeNode) :=
  readTree fun tree => tree.relativeGetPageTree node pageNodeLabelRule

def queryNodes (labelRule : Str) : Call Callback (List TreeNode) :=
  readTree fun tree => .ok (tree.queryNodes labelRule)

def relativeQueryNodes (node : TreeNode) (labelRule : Str) : Call Callback (List TreeNode) :=
  readTree fun tree => .ok (tree.relativeQueryNodes node labelRule)

def getFullTree : Call Callback (List TreeNode) :=
  readTree fun tree => .ok tree.getFullTree

def openTransactionLayer (node : TreeNode) : Call Callback Unit :=
  readTree fun tree => tree.openTransactionLayer node

def closeTransactionLayers : Call Callback Unit :=
  readTree fun tree => tree.closeTransactionLayers

/-- `notification_stack_.emplace_back` -/
def push (b : ThreadsafeBackend Callback) (notification : QueuedNotification Callback) :
    ThreadsafeBackend Callback :=
  { b with
    notificationStack := notification :: b.notificationStack
    history := b.history ++ [.queued notification] }

/-- The call of a listener by the tree. A wrapped one queues the notification under
`notification_mutex_`. -/
def callListener (notice : Notice (TreeListener Callback)) : Call Callback Unit :=
  match notice.listener.callback with
  | .direct => pure ()
  | .wrapped callback => guarded .notification
      (run (Effectful.change fun b => b.push ⟨notice.labelRule, notice.node, callback⟩))

/-- A writing call, with the listeners that the tree calls before it returns. -/
def changeTree (change : TreeChange) : Call Callback Unit :=
  guarded .tree do
    let (tree, notices) ← run (Effectful.inspect fun b => b.tree.perform change)
    run (Effectful.change fun b => { b with tree := tree })
    forEach callListener notices

def upsertNode (nodes : List TreeNode) : Call Callback Unit := changeTree (.upsertNode nodes)

def deleteNode (labelRule : Str) : Call Callback Unit := changeTree (.deleteNode labelRule)

def applyTransaction (transaction : Transaction) : Call Callback Unit :=
  changeTree (.applyTransaction transaction)

def changeListeners (f : ListenerTable (TreeListener Callback) → ListenerTable (TreeListener Callback)) :
    Call Callback Unit :=
  guarded .tree (run (Effectful.change fun b =>
    { b with tree := { b.tree with nodeListeners := f b.tree.nodeListeners } }))

def registerNodeListener (listenerName labelRule : Str) (childNotify : Bool) (callback : Callback) :
    Call Callback Unit :=
  changeListeners fun t => t.registerNodeListener listenerName labelRule childNotify (.wrapped callback)

def deregisterNodeListener (listenerName labelRule : Str) : Call Callback Unit :=
  changeListeners fun t => t.deregisterNodeListener listenerName labelRule

/-- `notifyListeners`, which holds `notification_mutex_` and not `tree_mutex_`. -/
def notifyListeners (labelRule : Str) (node : Option TreeNode) : Call Callback Unit :=
  guarded .notification do
    let notices ← run (Effectful.inspect fun b => b.tree.notifyListeners labelRule node)
    forEach callListener notices

/-- `notification_stack_.back()` and `pop_back()`, unless the stack is empty. -/
def pop : Effectful (ThreadsafeBackend Callback) (Option (QueuedNotification Callback)) := fun b =>
  match b.notificationStack with
  | [] => (.ok none, b)
  | notification :: rest =>
      (.ok (some notification),
        { b with notificationStack := rest, history := b.history ++ [.delivered notification] })

/-- One turn of the loop of `processNotifications`: the lock is taken, and given up again before
the callback is called or the loop left. -/
def takeNotification : Call Callback (Option (QueuedNotification Callback)) := guarded .notification (run pop)

end ThreadsafeBackend

/-- The operations of a `ThreadsafeBackend` other than `processNotifications`. -/
inductive ThreadsafeCall (Callback : Type)
  | getNode (labelRule : Str)
  | change (change : TreeChange)
  | getPageTree (pageNodeLabelRule : Str)
  | relativeGetPageTree (node : TreeNode) (pageNodeLabelRule : Str)
  | queryNodes (labelRule : Str)
  | relativeQueryNodes (node : TreeNode) (labelRule : Str)
  | openTransactionLayer (node : TreeNode)
  | closeTransactionLayers
  | getFullTree
  | registerNodeListener (listenerName labelRule : Str) (childNotify : Bool) (callback : Callback)
  | deregisterNodeListener (listenerName labelRule : Str)
  | notifyListeners (labelRule : Str) (node : Option TreeNode)

namespace ThreadsafeCall

variable {Callback : Type}

open ThreadsafeBackend in
/-- The operation, without its result. -/
def perform : ThreadsafeCall Callback → ThreadsafeBackend.Call Callback Unit
  | getNode labelRule => do let _ ← ThreadsafeBackend.getNode labelRule
  | change (.upsertNode nodes) => ThreadsafeBackend.upsertNode nodes
  | change (.deleteNode labelRule) => ThreadsafeBackend.deleteNode labelRule
  | change (.applyTransaction transaction) => ThreadsafeBackend.applyTransaction transaction
  | getPageTree label => do let _ ← ThreadsafeBackend.getPageTree label
  | relativeGetPageTree node label => do let _ ← ThreadsafeBackend.relativeGetPageTree node label
  | queryNodes labelRule => do let _ ← ThreadsafeBackend.queryNodes labelRule
  | relativeQueryNodes node labelRule => do let _ ← ThreadsafeBackend.relativeQueryNodes node labelRule
  | openTransactionLayer node => ThreadsafeBackend.openTransactionLayer node
  | closeTransactionLayers => ThreadsafeBackend.closeTransactionLayers
  | getFullTree => do let _ ← ThreadsafeBackend.getFullTree
  | registerNodeListener name labelRule childNotify callback =>
      ThreadsafeBackend.registerNodeListener name labelRule childNotify callback
  | deregisterNodeListener name labelRule => ThreadsafeBackend.deregisterNodeListener name labelRule
  | notifyListeners labelRule node => ThreadsafeBackend.notifyListeners labelRule node

theorem perform_change (c : TreeChange) :
    (change c : ThreadsafeCall Callback).perform = ThreadsafeBackend.changeTree c := by
  cases c <;> rfl

end ThreadsafeCall

/-- A thread at work: what it holds, and for each call of `processNotifications` under way the
notification whose callback it waits for, the innermost first. -/
structure BackendThread (Callback : Type) where
  holding : Holding ThreadsafeBackend.Mutex (ThreadsafeBackend Callback)
  running : List (QueuedNotification Callback)

namespace BackendThread

variable {Callback : Type}

/-- What the thread does next, at its top level or in a callback. -/
inductive Action (Callback : Type)
  | call (operation : ThreadsafeCall Callback)
  | processNotifications
  | callbackReturns
  | callbackThrows

def backend (s : BackendThread Callback) : ThreadsafeBackend Callback := s.holding.state

/-- The loop of `processNotifications` goes on to its next callback, or ends. -/
def deliverNext (s : BackendThread Callback) (outer : List (QueuedNotification Callback)) :
    Option (BackendThread Callback) :=
  match ThreadsafeBackend.takeNotification s.holding with
  | (.finished (.ok none), after) => some ⟨after, outer⟩
  | (.finished (.ok (some notification)), after) => some ⟨after, notification :: outer⟩
  | _ => none

/-- The thread after an action that completes with defined behaviour. An exception leaves what
was done before it; one thrown by a callback ends the `processNotifications` that called it. -/
def step (s : BackendThread Callback) : Action Callback → Option (BackendThread Callback)
  | .call operation =>
      match operation.perform s.holding with
      | (.finished (.error (.undefined _)), _) => none
      | (.finished _, after) => some { s with holding := after }
      | (.blocked, _) => none
  | .processNotifications => s.deliverNext s.running
  | .callbackReturns =>
      match s.running with
      | [] => none
      | _ :: outer => s.deliverNext outer
  | .callbackThrows =>
      match s.running with
      | [] => none
      | _ :: outer => some { s with running := outer }

/-- The action comes to a mutex that its own thread holds. -/
def Blocks (s : BackendThread Callback) : Action Callback → Prop
  | .call operation => (operation.perform s.holding).1 = .blocked
  | .processNotifications | .callbackReturns => (ThreadsafeBackend.takeNotification s.holding).1 = .blocked
  | .callbackThrows => False

/-- A call of `notifyListeners` for a label of which no wrapped listener is told; any other action. -/
def MeetsNoWrapped (s : BackendThread Callback) : Action Callback → Prop
  | .call (.notifyListeners labelRule _) =>
      ∀ reg, s.backend.tree.nodeListeners.Calls labelRule reg → reg.2.callback = .direct
  | _ => True

end BackendThread
end Wwatp
