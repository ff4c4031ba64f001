import Wwatp.Memory.SelfDeadlock

/-! The notifications of a `ThreadsafeBackend` are taken from a stack: each of them is
delivered once, and among those that are waiting the newest comes first. -/
namespace Wwatp

open Cxx Cxx.Locking

namespace NotificationEvent

variable {Callback : Type}

def queuedNotification : NotificationEvent Callback → Option (QueuedNotification Callback)
  | queued notification => some notification
  | delivered _ => none

def deliveredNotification : NotificationEvent Callback → Option (QueuedNotification Callback)
  | queued _ => none
  | delivered notification => some notification

/-- Events that begin with one stack of waiting notifications and end with another, where every
delivery is of the newest notification that waits. -/
def NewestFirst (waiting : List (QueuedNotification Callback)) :
    List (NotificationEvent Callback) → List (QueuedNotification Callback) → Prop
  | [], after => waiting = after
  | queued notification :: events, after => NewestFirst (notification :: waiting) events after
  | delivered notification :: events, after =>
      ∃ rest, waiting = notification :: rest ∧ NewestFirst rest events after

variable {waiting after : List (QueuedNotification Callback)} {events : List (NotificationEvent Callback)}

theorem newestFirst_append {more : List (NotificationEvent Callback)} :
    NewestFirst waiting (events ++ more) after ↔
      ∃ between, NewestFirst waiting events between ∧ NewestFirst between more after := by
  induction events generalizing waiting with
  | nil => simp only [List.nil_append, NewestFirst, exists_eq_left']
  | cons event events ih =>
      cases event with
      | queued notification => exact ih
      | delivered notification =>
          simp only [List.cons_append, NewestFirst, ih]
          constructor
          · rintro ⟨rest, rfl, between, hFirst, hMore⟩
            exact ⟨between, ⟨rest, rfl, hFirst⟩, hMore⟩
          · rintro ⟨between, ⟨rest, rfl, hFirst⟩, hMore⟩
            exact ⟨rest, rfl, between, hFirst, hMore⟩

/-- Events leave one stack. -/
theorem NewestFirst.unique {other : List (QueuedNotification Callback)}
    (h : NewestFirst waiting events after) (hOther : NewestFirst waiting events other) : after = other := by
  induction events generalizing waiting with
  | nil => exact h.symm.trans hOther
  | cons event events ih =>
      cases event with
      | queued notification => exact ih h hOther
      | delivered notification =>
          obtain ⟨rest, rfl, hRest⟩ := h
          obtain ⟨rest', hEq, hRest'⟩ := hOther
          obtain rfl := (List.cons.inj hEq).2
          exact ih hRest hRest'

/-- What waited and what is queued is what is delivered and what waits then. -/
theorem NewestFirst.perm (h : NewestFirst waiting events after) :
    (waiting ++ events.filterMap queuedNotification).Perm
      (events.filterMap deliveredNotification ++ after) := by
  induction events generalizing waiting with
  | nil =>
      obtain rfl : waiting = after := h
      simp
  | cons event events ih =>
      cases event with
      | queued notification => exact List.perm_middle.trans (ih h)
      | delivered notification =>
          obtain ⟨rest, rfl, hRest⟩ := h
          exact (ih hRest).cons notification

theorem newestFirst_queue (queue : List (QueuedNotification Callback)) :
    NewestFirst waiting (queue.map queued) (queue.reverse ++ waiting) := by
  induction queue generalizing waiting with
  | nil => rfl
  | cons notification queue ih =>
      rw [List.reverse_cons, List.append_assoc]
      exact ih

theorem newestFirst_deliver_iff {deliveries : List (QueuedNotification Callback)} :
    NewestFirst waiting (deliveries.map delivered) after ↔ waiting = deliveries ++ after := by
  induction deliveries generalizing waiting with
  | nil => rfl
  | cons notification deliveries ih =>
      simp only [List.map_cons, NewestFirst, ih, List.cons_append]
      constructor
      · rintro ⟨rest, rfl, rfl⟩
        rfl
      · rintro rfl
        exact ⟨_, rfl, rfl⟩

/-- Notifications that wait together are delivered in the reverse order of their changes. -/
theorem NewestFirst.reverse_of_drained {queue deliveries : List (QueuedNotification Callback)}
    (hBefore : NewestFirst waiting events [])
    (hAfter : NewestFirst waiting (events ++ queue.map queued ++ deliveries.map delivered) []) :
    deliveries = queue.reverse := by
  obtain ⟨between, hQueued, hDelivered⟩ := newestFirst_append.mp hAfter
  have hBetween := (newestFirst_append.mpr ⟨_, hBefore, newestFirst_queue queue⟩).unique hQueued
  rw [newestFirst_deliver_iff, ← hBetween, List.append_nil, List.append_nil] at hDelivered
  exact hDelivered.symm

end NotificationEvent

namespace ThreadsafeBackend

open NotificationEvent

variable {Callback : Type}

/-- The stack is what the history leaves. -/
def Consistent (b : ThreadsafeBackend Callback) : Prop := NewestFirst [] b.history b.notificationStack

theorem Consistent.push {b : ThreadsafeBackend Callback} (h : b.Consistent)
    (notification : QueuedNotification Callback) : (b.push notification).Consistent :=
  newestFirst_append.mpr ⟨b.notificationStack, h, rfl⟩

theorem readTree_keeps {α : Type} (read : SimpleBackend (TreeListener Callback) → Outcome α) :
    Keeps Consistent (readTree read) :=
  keeps_guarded (keeps_run (Effectful.keeps_inspect _))

theorem callListener_keeps (notice : Notice (TreeListener Callback)) : Keeps Consistent (callListener notice) := by
  unfold callListener
  split
  · exact keeps_pure ()
  · exact keeps_guarded (keeps_run fun _ h => h.push _)

theorem changeTree_keeps (change : TreeChange) :
    Keeps Consistent (changeTree change : Call Callback Unit) := by
  refine keeps_guarded (keeps_bind (keeps_run (Effectful.keeps_inspect _)) fun after => ?_)
  exact keeps_bind (keeps_run fun _ h => h) fun _ => keeps_forEach fun notice _ => callListener_keeps notice

theorem changeListeners_keeps
    (f : ListenerTable (TreeListener Callback) → ListenerTable (TreeListener Callback)) :
    Keeps Consistent (changeListeners f) :=
  keeps_guarded (keeps_run fun _ h => h)

theorem notifyListeners_keeps (labelRule : Str) (node : Option TreeNode) :
    Keeps Consistent (notifyListeners labelRule node : Call Callback Unit) :=
  keeps_guarded (keeps_bind (keeps_run (Effectful.keeps_inspect _)) fun _ =>
    keeps_forEach fun notice _ => callListener_keeps notice)

theorem pop_keeps : Effectful.Keeps (@Consistent Callback) pop := by
  intro b h
  unfold pop
  split
  · exact h
  · next notification rest hStack =>
      exact newestFirst_append.mpr ⟨b.notificationStack, h, rest, hStack, rfl⟩

theorem takeNotification_keeps :
    Keeps Consistent (takeNotification : Call Callback (Option (QueuedNotification Callback))) :=
  keeps_guarded (keeps_run pop_keeps)

/-- Several notifications are queued in turn. -/
def pushAll (b : ThreadsafeBackend Callback) (queue : List (QueuedNotification Callback)) :
    ThreadsafeBackend Callback :=
  queue.foldl push b

theorem history_pushAll (b : ThreadsafeBackend Callback) (queue : List (QueuedNotification Callback)) :
    (b.pushAll queue).history = b.history ++ queue.map queued := by
  induction queue generalizing b with
  | nil => exact (List.append_nil _).symm
  | cons notification queue ih => exact (ih _).trans (List.append_assoc b.history [queued notification] _)

/-- What a call of a listener queues: the notification, for the callback that was wrapped. -/
def toQueue (notice : Notice (TreeListener Callback)) : Option (QueuedNotification Callback) :=
  match notice.listener.callback with
  | .direct => none
  | .wrapped callback => some ⟨notice.labelRule, notice.node, callback⟩

theorem forEach_callListener_eq (notices : List (Notice (TreeListener Callback)))
    {s : Holding Mutex (ThreadsafeBackend Callback)} (hFree : s.held .notification = false) :
    forEach callListener notices s =
      (.finished (.ok ()), { s with state := s.state.pushAll (notices.filterMap toQueue) }) := by
  induction notices generalizing s with
  | nil => rfl
  | cons notice notices ih =>
      have hCall : callListener notice s = (.finished (.ok ()),
          { s with state := s.state.pushAll (toQueue notice).toList }) := by
        cases hCallback : notice.listener.callback with
        | direct =>
            rw [callListener, toQueue, hCallback]
            rfl
        | wrapped callback =>
            rw [callListener, toQueue, hCallback]
            exact guarded_run hFree _
      have hRest := @ih { s with state := s.state.pushAll (toQueue notice).toList } hFree
      refine (bind_ok hCall).trans (hRest.trans ?_)
      cases hNotice : toQueue notice with
      | none =>
          rw [List.filterMap_cons_none hNotice]
          rfl
      | some notification =>
          rw [List.filterMap_cons_some hNotice]
          rfl

/-- A change that is made queues one notification for each wrapped listener that the tree calls. -/
theorem changeTree_eq {change : TreeChange} {s : Holding Mutex (ThreadsafeBackend Callback)}
    (hHeld : ∀ m, s.held m = false) {tree : SimpleBackend (TreeListener Callback)}
    {notices : List (Notice (TreeListener Callback))} (h : s.state.tree.perform change = .ok (tree, notices)) :
    changeTree change s = (.finished (.ok ()),
      { s with state := { s.state with tree := tree }.pushAll (notices.filterMap toQueue) }) := by
  have hRead : run (Effectful.inspect fun b => b.tree.perform change)
      { s with held := Function.update s.held .tree true } =
        (.finished (.ok (tree, notices)), { s with held := Function.update s.held .tree true }) := by
    rw [run, Effectful.inspect, h]
  have hOther : Mutex.notification ≠ .tree := by simp
  have hFree : Function.update s.held .tree true .notification = false :=
    (Function.update_of_ne hOther true s.held).trans (hHeld .notification)
  have hCalls := @forEach_callListener_eq _ notices
    ⟨{ s.state with tree := tree }, Function.update s.held .tree true⟩ hFree
  refine (guarded_of_finished (hHeld .tree) ((bind_ok hRead).trans ((bind_ok rfl).trans hCalls))).trans ?_
  rw [update_unlocked (hHeld .tree)]

end ThreadsafeBackend

namespace ThreadsafeCall

open ThreadsafeBackend

variable {Callback : Type}

theorem perform_keeps (operation : ThreadsafeCall Callback) : Keeps Consistent operation.perform := by
  have hRead {α : Type} (read : SimpleBackend (TreeListener Callback) → Outcome α) :
      Keeps Consistent (do let _ ← readTree read) :=
    keeps_bind (readTree_keeps read) fun _ => keeps_pure ()
  cases operation with
  | getNode labelRule => exact hRead _
  | change c =>
      rw [perform_change]
      exact changeTree_keeps c
  | getPageTree label => exact hRead _
  | relativeGetPageTree node label => exact hRead _
  | queryNodes labelRule => exact hRead _
  | relativeQueryNodes node labelRule => exact hRead _
  | openTransactionLayer node => exact readTree_keeps fun tree => tree.openTransactionLayer node
  | closeTransactionLayers => exact readTree_keeps fun tree => tree.closeTransactionLayers
  | getFullTree => exact hRead _
  | registerNodeListener name labelRule childNotify callback =>
      exact changeListeners_keeps fun t => t.registerNodeListener name labelRule childNotify (.wrapped callback)
  | deregisterNodeListener name labelRule =>
      exact changeListeners_keeps fun t => t.deregisterNodeListener name labelRule
  | notifyListeners labelRule node => exact notifyListeners_keeps labelRule node

end ThreadsafeCall

namespace BackendThread

open ThreadsafeBackend NotificationEvent

variable {Callback : Type} {s t : BackendThread Callback}

/-- The loop goes on to the newest notification, or has found the stack empty. -/
theorem HoldsNothing.deliverNext_cases (h : s.HoldsNothing) {outer : List (QueuedNotification Callback)}
    (hNext : s.deliverNext outer = some t) :
    (t.running = outer ∧ t.backend.notificationStack = []) ∨
      ∃ notification, t.running = notification :: outer := by
  rw [BackendThread.deliverNext, takeNotification, guarded_run (h .notification), pop] at hNext
  cases hStack : s.holding.state.notificationStack with
  | nil =>
      rw [hStack] at hNext
      obtain rfl := Option.some.inj hNext
      exact .inl ⟨rfl, hStack⟩
  | cons notification rest =>
      rw [hStack] at hNext
      obtain rfl := Option.some.inj hNext
      exact .inr ⟨notification, rfl⟩

theorem consistent_deliverNext (h : s.backend.Consistent) {outer : List (QueuedNotification Callback)}
    (hNext : s.deliverNext outer = some t) : t.backend.Consistent := by
  have hTaken := takeNotification_keeps s.holding h
  unfold deliverNext at hNext
  split at hNext
  · next hEq =>
      rw [hEq] at hTaken
      exact Option.some.inj hNext ▸ hTaken
  · next hEq =>
      rw [hEq] at hTaken
      exact Option.some.inj hNext ▸ hTaken
  · cases hNext

theorem consistent_step (h : s.backend.Consistent) {action : Action Callback}
    (hStep : s.step action = some t) : t.backend.Consistent := by
  cases action with
  | call operation =>
      obtain ⟨outcome, hCall, -, -⟩ := step_call hStep
      have hAfter := operation.perform_keeps s.holding h
      rwa [hCall] at hAfter
  | processNotifications => exact consistent_deliverNext h hStep
  | callbackReturns =>
      simp only [BackendThread.step] at hStep
      split at hStep
      · cases hStep
      · exact consistent_deliverNext h hStep
  | callbackThrows =>
      simp only [BackendThread.step] at hStep
      split at hStep
      · cases hStep
      · exact Option.some.inj hStep ▸ h

/-- With the action a call of `processNotifications` returns: no callback is left to be called. -/
def EndsProcessing (s t : BackendThread Callback) : Action Callback → Prop
  | .processNotifications => t.running = s.running
  | .callbackReturns => t.running = s.running.tail
  | _ => False

theorem HoldsNothing.stack_of_endsProcessing (h : s.HoldsNothing) {action : Action Callback}
    (hStep : s.step action = some t) (hEnds : s.EndsProcessing t action) :
    t.backend.notificationStack = [] := by
  have hEmpty {outer : List (QueuedNotification Callback)} (hNext : s.deliverNext outer = some t)
      (hRunning : t.running = outer) : t.backend.notificationStack = [] := by
    rcases h.deliverNext_cases hNext with ⟨-, hStack⟩ | ⟨notification, hMore⟩
    · exact hStack
    · exact absurd (hMore.symm.trans hRunning) (List.cons_ne_self _ _)
  cases action with
  | call operation => exact hEnds.elim
  | processNotifications => exact hEmpty hStep hEnds
  | callbackReturns =>
      simp only [BackendThread.step] at hStep
      split at hStep
      · cases hStep
      · next hRunning =>
          rw [EndsProcessing, hRunning] at hEnds
          exact hEmpty hStep hEnds
  | callbackThrows => exact hEnds.elim

/-- The thread starts with nothing locked and nothing queued. -/
structure Unused (s : BackendThread Callback) : Prop where
  holdsNothing : s.HoldsNothing
  history : s.backend.history = []
  notificationStack : s.backend.notificationStack = []

theorem Unused.consistent (h : s.Unused) (hRun : Reaches step anyStep s t) : t.backend.Consistent := by
  refine hRun.invariant (P := fun t => t.backend.Consistent) ?_ fun _ _ _ h _ hStep => consistent_step h hStep
  rw [Consistent, h.history, h.notificationStack]
  rfl

/-- A change queues one notification for every wrapped listener that the tree calls, with the
callback that was wrapped. Each is delivered once, and among those that wait the newest comes
first; when `processNotifications` returns, all have been delivered. Those that wait together
are delivered in the reverse order of their changes. -/
theorem delivered_once_newest_first (hStart : s.Unused) (hRun : Reaches step anyStep s t) :
    NewestFirst [] t.backend.history t.backend.notificationStack ∧
      (∀ change tree notices u, t.backend.tree.perform change = .ok (tree, notices) →
        t.step (.call (.change change)) = some u →
        u.backend.history = t.backend.history ++ (notices.filterMap toQueue).map queued) ∧
      (∀ action u, t.step action = some u → t.EndsProcessing u action →
        u.backend.notificationStack = [] ∧
          (u.backend.history.filterMap queuedNotification).Perm
            (u.backend.history.filterMap deliveredNotification)) ∧
      ∀ u (queue deliveries : List (QueuedNotification Callback)), Reaches step anyStep t u →
        t.backend.notificationStack = [] → u.backend.notificationStack = [] →
        u.backend.history = t.backend.history ++ queue.map queued ++ deliveries.map delivered →
        deliveries = queue.reverse := by
  have hHolds : t.HoldsNothing := hStart.holdsNothing.reaches hRun
  have hConsistent := hStart.consistent hRun
  refine ⟨hConsistent, ?_, ?_, ?_⟩
  · intro change tree notices u hPerform hStep
    obtain ⟨outcome, hCall, -, -⟩ := step_call hStep
    rw [ThreadsafeCall.perform_change, changeTree_eq hHolds hPerform] at hCall
    rw [backend, ← congrArg (fun r => r.2.state.history) hCall]
    exact history_pushAll _ _
  · intro action u hStep hEnds
    have hStack := hHolds.stack_of_endsProcessing hStep hEnds
    have hPerm := (consistent_step hConsistent hStep).perm
    rw [hStack, List.append_nil, List.nil_append] at hPerm
    exact ⟨hStack, hPerm⟩
  · intro u queue deliveries hMore hEmpty hDrained hHistory
    have hAfter := hStart.consistent (hRun.trans hMore)
    rw [Consistent, hHistory, hDrained] at hAfter
    rw [Consistent, hEmpty] at hConsistent
    exact hConsistent.reverse_of_drained hAfter

/-- A node of `A`, and a node that replaces it. -/
def oldA : TreeNode := { labelRule := str "A", description := str "old" }
def newA : TreeNode := { labelRule := str "A", description := str "new" }

theorem unused_fresh : fresh.Unused := ⟨fun _ => rfl, rfl, rfl⟩

/-- The thread registers a listener for `A`, writes the two nodes and begins to process the two
notifications. -/
def writeTwo : List (Action Unit) :=
  [registerA, .call (.change (.upsertNode [oldA])), .call (.change (.upsertNode [newA])),
    .processNotifications, .callbackReturns]

theorem delivered_once_newest_first_two : ∃ t u, runAllowed step anyStep fresh writeTwo = some t ∧
    t.step .callbackReturns = some u ∧ (u.backend.history.filterMap queuedNotification).length = 2 ∧
    (u.backend.history.filterMap queuedNotification).Perm
      (u.backend.history.filterMap deliveredNotification) := by
  have hRun : runAllowed step anyStep fresh writeTwo = some _ := rfl
  have hAll := delivered_once_newest_first unused_fresh (reaches_of_runAllowed hRun)
  exact ⟨_, _, hRun, rfl, rfl, (hAll.2.2.1 .callbackReturns _ rfl rfl).2⟩

/-- The listener is told of the new node first, and is left with the old one. -/
theorem last_delivered_is_old : ∃ t, Reaches step anyStep fresh t ∧
    t.running = [] ∧ t.backend.notificationStack = [] ∧
    t.backend.tree.getNode (str "A") = some newA.assign ∧
    ∃ last, (t.backend.history.filterMap deliveredNotification).getLast? = some last ∧
      last.node = some oldA ∧ last.node ≠ t.backend.tree.getNode (str "A") := by
  have hRun : runAllowed step anyStep fresh (writeTwo ++ [.callbackReturns]) = some _ := rfl
  refine ⟨_, reaches_of_runAllowed hRun, rfl, rfl, rfl, _, rfl, rfl, ?_⟩
  decide

end BackendThread

end Wwatp
