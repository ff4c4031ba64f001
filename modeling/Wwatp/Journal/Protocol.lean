import Wwatp.Cxx.NumberedLog
import Wwatp.Tree.Node

/-! The journal protocol: the server route numbers and keeps the latest changes,
a client polls for those after its last notification. -/
namespace Wwatp

open Cxx

/-- The number `(uint64_t)-1`, which marks a notification as unsolicited. -/
def unsolicited : UInt64 := .ofNat (2 ^ 64 - 1)

/-- The journal of `Http3ServerRoute`. -/
structure Http3ServerRoute where
  journal : List SequentialNotification
  maxJournalSize : ℕ
  deriving DecidableEq

namespace Http3ServerRoute

def create (maxJournalSize : ℕ) : Http3ServerRoute :=
  ⟨[⟨0, [], none⟩], maxJournalSize⟩

/-- The notification a change is journaled as: it follows the latest one. -/
def nextNotification (route : Http3ServerRoute) (label : Str) (node : Option TreeNode) :
    SequentialNotification where
  number := match route.journal.getLast? with
    | some latest => latest.number + 1
    | none => 0
  labelRule := label
  node := node

/-- The callback that a `REGISTER_LISTENER` request registers. -/
def journalCallback (route : Http3ServerRoute) (label : Str) (node : Option TreeNode) :
    Http3ServerRoute :=
  let journal := route.journal ++ [route.nextNotification label node]
  { route with journal := if journal.length > route.maxJournalSize then journal.drop 1 else journal }

/-- The notifications sent for a `GET_JOURNAL` request. The marker numbered 0, 2 and
latest says that the journal does not reach back to the last notification. -/
def getJournal (route : Http3ServerRoute) (lastNotification : SequentialNotification) :
    Outcome (List SequentialNotification) := do
  let last := lastNotification.number
  let found ← lowerBound (fun n => decide (n.number < last)) route.journal
  match route.journal.head?, route.journal.getLast? with
  | some oldest, some latest =>
    if (found = [] ∧ last ≠ latest.number) ∨ last < oldest.number then
      return [⟨0, [], none⟩, ⟨2, [], none⟩, ⟨latest.number, [], none⟩]
    else
      return found
  | _, _ => throw (.undefined .index)

end Http3ServerRoute

/-- A call on the client's local backend. -/
inductive LocalChange
  | upsertNode (node : TreeNode)
  | deleteNode (labelRule : Str)
  deriving DecidableEq

/-- What a client does while it handles the response to a poll. -/
inductive ClientEvent
  | applied (number : UInt64) (change : LocalChange)
  /-- a request for the page tree of `labelRule` is queued, as part of the journal's sync -/
  | pageTreeRequested (labelRule : Str)
  | advanced (last : SequentialNotification)
  deriving DecidableEq

/-- The journal side of `Http3ClientBackend`. -/
structure Http3ClientBackend where
  lastNotification : SequentialNotification := ⟨0, [], none⟩
  notificationBlock : Bool := false
  deriving DecidableEq

namespace Http3ClientBackend

def solicitJournalRequest (client : Http3ClientBackend) : SequentialNotification :=
  client.lastNotification

/-- The call a notification asks for. -/
def localChange (notification : SequentialNotification) : LocalChange :=
  match notification.node with
  | some node => .upsertNode node
  | none => .deleteNode notification.labelRule

def processOneNotification (notification : SequentialNotification) : List ClientEvent :=
  if notification.labelRule = [] then []
  else [.applied notification.number (localChange notification)]

/-- The first loop over a response: whether a number is left out after `current`. -/
def findGap (current : UInt64) : List SequentialNotification → Bool
  | [] => false
  | n :: rest =>
    if n.number = unsolicited then findGap current rest
    else if n.number > current + 1 then true
    else findGap n.number rest

/-- The second loop: what it applies, and the last notification that is not unsolicited. -/
def applyLoop (notificationGap : Bool) (last : UInt64) (lastValid : SequentialNotification) :
    List SequentialNotification → List ClientEvent × SequentialNotification
  | [] => ([], lastValid)
  | n :: rest =>
    let applied := if !notificationGap ∧ n.number > last then processOneNotification n else []
    let lastValid := if n.number = unsolicited then lastValid else n
    let (events, valid) := applyLoop notificationGap last lastValid rest
    (applied ++ events, valid)

def getMutablePageTreeInMode : List ClientEvent :=
  [.pageTreeRequested (str "MutableNodes")]

def updateLastNotification (client : Http3ClientBackend) (notification : SequentialNotification) :
    Http3ClientBackend × List ClientEvent :=
  if notification.number = unsolicited then (client, [])
  else ({ client with lastNotification := notification, notificationBlock := false },
    [.advanced notification])

/-- The case `GET_JOURNAL_RESPONSE` of `processHTTP3Response`. -/
def processGetJournalResponse (client : Http3ClientBackend)
    (notifications : List SequentialNotification) :
    Outcome (Http3ClientBackend × List ClientEvent) :=
  match notifications with
  | [] => throw (.undefined .index)
  | front :: _ =>
    let last := client.lastNotification.number
    let notificationGap := decide (last < front.number) || findGap front.number notifications
    let (applied, lastValid) := applyLoop notificationGap last front notifications
    let requested := if notificationGap then getMutablePageTreeInMode else []
    let client := if notificationGap then client else { client with notificationBlock := false }
    let (client, advanced) := client.updateLastNotification lastValid
    .ok (client, applied ++ requested ++ advanced)

end Http3ClientBackend

/-- The message of the outstanding poll. -/
inductive PollMessage
  | request (lastNotification : SequentialNotification)
  | response (notifications : List SequentialNotification)
  deriving DecidableEq

/-- A response handled by the client, with its last notification before and after. -/
structure Delivery where
  previous : SequentialNotification
  events : List ClientEvent
  current : SequentialNotification
  deriving DecidableEq

/-- The server route and one client. At most one poll is outstanding; `history` keeps
every journaled notification and `deliveries` every response the client has handled. -/
structure JournalSystem where
  server : Http3ServerRoute
  client : Http3ClientBackend
  outstanding : Option PollMessage
  history : List SequentialNotification
  deliveries : List Delivery
  deriving DecidableEq

namespace JournalSystem

def create (maxJournalSize : ℕ) : JournalSystem where
  server := .create maxJournalSize
  client := {}
  outstanding := none
  history := (Http3ServerRoute.create maxJournalSize).journal
  deliveries := []

inductive Action
  /-- a change below a listened label reaches the journal's callback -/
  | change (label : Str) (node : Option TreeNode)
  /-- the client sends a poll unless one is outstanding (`journalRequestWaiting_`) -/
  | poll
  /-- the server answers the outstanding poll -/
  | serve
  /-- the client handles the response -/
  | deliver
  deriving DecidableEq

def step (s : JournalSystem) : Action → Outcome JournalSystem
  | .change label node =>
    .ok { s with
      server := s.server.journalCallback label node
      history := s.history ++ [s.server.nextNotification label node] }
  | .poll =>
    match s.outstanding with
    | none => .ok { s with outstanding := some (.request s.client.solicitJournalRequest) }
    | some _ => .ok s
  | .serve =>
    match s.outstanding with
    | some (.request last) => do
      let notifications ← s.server.getJournal last
      return { s with outstanding := some (.response notifications) }
    | _ => .ok s
  | .deliver =>
    match s.outstanding with
    | some (.response notifications) => do
      let (client, events) ← s.client.processGetJournalResponse notifications
      return { s with
        client, outstanding := none
        deliveries := s.deliveries ++
          [⟨s.client.lastNotification, events, client.lastNotification⟩] }
    | _ => .ok s

/-- The steps one after another, in the order in which they interleave. -/
def run (s : JournalSystem) : List Action → Outcome JournalSystem
  | [] => .ok s
  | action :: rest => do run (← s.step action) rest

/-- Only changes of a non-empty label are journaled. -/
def Labelled (actions : List Action) : Prop :=
  ∀ label node, Action.change label node ∈ actions → label ≠ []

/-- The number of changes the server journals in a run. -/
def changeCount (actions : List Action) : ℕ :=
  actions.countP fun | .change _ _ => true | _ => false

/-- The notifications numbered after `previous` and up to `current`. -/
def between (history : List SequentialNotification) (previous current : SequentialNotification) :
    List SequentialNotification :=
  history.filter fun n => decide (previous.number < n.number ∧ n.number ≤ current.number)

end JournalSystem

namespace Delivery

/-- The notifications a delivery applied. -/
def appliedNumbers (d : Delivery) : List UInt64 :=
  d.events.filterMap fun | .applied number _ => some number | _ => none

/-- The client applies every notification between its previous and its new last one, in
their order and each once, or it asks for the page tree; only then it advances. -/
def Faithful (history : List SequentialNotification) (d : Delivery) : Prop :=
  d.previous.number ≤ d.current.number ∧
    (d.events = (JournalSystem.between history d.previous d.current).map
        (fun n => .applied n.number (Http3ClientBackend.localChange n)) ++ [.advanced d.current] ∨
      d.events = [.pageTreeRequested (str "MutableNodes"), .advanced d.current])

end Delivery

/-- Every response was handled faithfully, and over the whole run no notification is
applied after a later one or twice. -/
def JournalSystem.Faithful (s : JournalSystem) : Prop :=
  (∀ d ∈ s.deliveries, d.Faithful s.history) ∧
    (s.deliveries.flatMap Delivery.appliedNumbers).Pairwise (· < ·)

end Wwatp
