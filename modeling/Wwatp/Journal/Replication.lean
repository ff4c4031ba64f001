import Wwatp.Client.Resync
import Wwatp.Cxx.Transitions
import Wwatp.Journal.Runs
import Wwatp.Mediator.Cloning
import Wwatp.Server.JournalOnce

/-! A client's copy of the server's tree. The client starts with an equal tree and makes the journaled changes one by one
with its own calls. As long as the journal reaches back far enough, its copy is always a tree that the server has had. -/
namespace Wwatp

open Cxx

namespace TreeChange

/-- What a client makes of an announced change. -/
def replay (t : MemoryTree) (entry : Str × Option TreeNode) : MemoryTree :=
  match entry.2 with
  | some node => t.set node.labelRule node
  | none => (t.deleteNode entry.1).1

/-- Each write of the changes can be made by a call of its own: a node goes to its own label, and a removed label takes
nothing along. -/
def Separate (t : MemoryTree) : List (Str × Str × Option TreeNode) → Prop
  | [] => True
  | entry :: later =>
    (match entry.2.2 with
      | some node => entry.1 = node.labelRule
      | none => (t.deleteNode entry.2.1).1 = t.erase entry.1) ∧ Separate (t.put entry.1 entry.2.2) later

/-- A client that makes the announced changes comes to the tree that the call makes. -/
def Replayable (t : MemoryTree) : TreeChange → Prop
  | applyTransaction transaction => Separate t (applyTransaction transaction).keyed
  | _ => True

theorem foldl_replay_of_separate {t : MemoryTree} {entries : List (Str × Str × Option TreeNode)} (h : Separate t entries) :
    (entries.map Prod.snd).foldl replay t = entries.foldl (fun t entry => t.put entry.1 entry.2.2) t := by
  induction entries generalizing t with
  | nil => rfl
  | cons entry later ih =>
      obtain ⟨hEntry, hLater⟩ := h
      have hFirst : replay t entry.2 = t.put entry.1 entry.2.2 := by
        cases hNode : entry.2.2 with
        | some node =>
            rw [hNode] at hEntry
            rw [replay, hNode, show entry.1 = node.labelRule from hEntry]
            rfl
        | none =>
            rw [hNode] at hEntry
            rw [replay, hNode]
            exact hEntry
      rw [List.map_cons, List.foldl_cons, List.foldl_cons, hFirst]
      exact ih hLater

theorem separate_upsertNode (t : MemoryTree) (nodes : List TreeNode) : Separate t (upsertNode nodes).keyed := by
  induction nodes generalizing t with
  | nil => trivial
  | cons node nodes ih => exact ⟨rfl, ih _⟩

theorem foldl_replay_announced {t u : MemoryTree} {change : TreeChange} (h : change.Replayable t)
    (hPerform : change.perform t = .ok u) : change.announced.foldl replay t = u := by
  have hKeyed (hNot : ∀ labelRule, change ≠ deleteNode labelRule) (hSeparate : Separate t change.keyed) :
      change.announced.foldl replay t = u := by
    rw [announced_eq_keyed, foldl_replay_of_separate hSeparate, perform_eq_keyed hPerform hNot]
  cases change with
  | upsertNode nodes => exact hKeyed (fun _ hSame => by cases hSame) (separate_upsertNode t nodes)
  | deleteNode labelRule => exact Except.ok.inj hPerform
  | applyTransaction transaction => exact hKeyed (fun _ hSame => by cases hSame) h

end TreeChange

/-- The tree after some notifications. -/
def replayAll (t : MemoryTree) (notifications : List SequentialNotification) : MemoryTree :=
  notifications.foldl (fun t n => TreeChange.replay t (n.labelRule, n.node)) t

theorem replayAll_append (t : MemoryTree) (front back : List SequentialNotification) :
    replayAll t (front ++ back) = replayAll (replayAll t front) back :=
  List.foldl_append

namespace CachingClient

variable {Callback : Type} {c after : CachingClient Callback} {requested : List Str}

/-- The notifications of a response, made by the client's own calls. -/
theorem handle_applied {notifications : List SequentialNotification} {last : SequentialNotification}
    (h : c.handle (notifications.map (fun n => .applied n.number (Http3ClientBackend.localChange n)) ++ [.advanced last]) =
      .ok (after, requested)) :
    after.localBackend.memoryTree = replayAll c.localBackend.memoryTree notifications := by
  induction notifications generalizing c with
  | nil =>
      cases h
      rfl
  | cons n rest ih =>
      rw [List.map_cons, List.cons_append, Http3ClientBackend.localChange] at h
      have hReplay : replayAll c.localBackend.memoryTree (n :: rest) =
          replayAll (TreeChange.replay c.localBackend.memoryTree (n.labelRule, n.node)) rest := rfl
      rw [hReplay, TreeChange.replay]
      cases hNode : n.node with
      | some node =>
          rw [hNode] at h
          obtain ⟨next, hNext, hRest⟩ := Outcome.bind_eq_ok.mp h
          rw [ih hRest, upsertNode_ok hNext]
          rfl
      | none =>
          rw [hNode] at h
          obtain ⟨next, hNext, hRest⟩ := Outcome.bind_eq_ok.mp h
          obtain ⟨⟨backend, notices⟩, hBackend, hPair⟩ := Outcome.bind_eq_ok.mp hNext
          obtain rfl := Except.ok.inj hPair
          rw [ih hRest, SimpleBackend.deleteNode_ok hBackend]

theorem processGetJournalResponse_eq {notifications : List SequentialNotification} {journal : Http3ClientBackend}
    {events : List ClientEvent} (h : c.journal.processGetJournalResponse notifications = .ok (journal, events)) :
    c.processGetJournalResponse notifications = handle { c with journal } events := by
  rw [processGetJournalResponse, h]
  rfl

end CachingClient

namespace Http3ServerRoute.Keeps

variable {route : Http3ServerRoute} {history : List SequentialNotification} {last : SequentialNotification}

/-- A journal that reaches back to the client's last notification sends it and what follows. -/
theorem getJournal_reached (h : route.Keeps history) (hLast : last.index < history.length)
    (hReached : history.length ≤ last.index + route.maxJournalSize) :
    route.getJournal last = .ok (history.drop last.index) := by
  obtain ⟨latest, hLatest, hLatestIndex⟩ := h.getLast?_journal
  obtain ⟨oldest, hOldest, hOldestIndex⟩ := h.head?_journal
  have hFound : route.journal.drop (last.index - (history.length - route.maxJournalSize)) = history.drop last.index := by
    rw [h.window, List.drop_drop]
    congr 1
    omega
  have hSent : ¬((history.drop last.index = [] ∧ last.number ≠ latest.number) ∨ last.index < oldest.index) := by
    rw [List.drop_eq_nil_iff]
    omega
  simp only [Http3ServerRoute.getJournal, hOldest, hLatest, SequentialNotification.number_lt_iff]
  rw [h.journal_numbered.lowerBound_lt (show history.length - route.maxJournalSize ≤ last.index by omega), hFound]
  simp only [Outcome.ok_bind, if_neg hSent, Outcome.pure_eq_ok]

end Http3ServerRoute.Keeps

/-- A server's backend whose changes are journaled, and a client that polls for them and makes them on its local backend.
`past` keeps the trees the server has had, each with the length of the history at that time. -/
structure ReplicatedTree (Callback : Type) where
  backend : SimpleBackend RouteListener
  journal : JournalSystem
  localBackend : SimpleBackend Callback
  past : List (ℕ × MemoryTree)

namespace ReplicatedTree

variable {Callback : Type}

/-- The journal of a new route, and a client with the server's tree. -/
def start (backend : SimpleBackend RouteListener) (localBackend : SimpleBackend Callback) (maxJournalSize : ℕ) :
    ReplicatedTree Callback where
  backend := backend
  journal := .create maxJournalSize
  localBackend := localBackend
  past := [(1, backend.memoryTree)]

inductive Action
  | change (change : TreeChange)
  | poll
  | serve
  | deliver

/-- What a call of the backend adds to the journal. -/
def journalAll (journal : JournalSystem) (entries : List (Str × Option TreeNode)) : Outcome JournalSystem :=
  journal.run (entries.map fun entry => .change entry.1 entry.2)

def step (s : ReplicatedTree Callback) : Action → Option (ReplicatedTree Callback)
  | .change change =>
    let reply := ServerRoute.changeShared change s.backend
    match journalAll s.journal reply.journaled with
    | .ok journal => some { s with
        backend := reply.after
        journal
        past := s.past ++ [(journal.history.length, reply.after.memoryTree)] }
    | .error _ => none
  | .poll => (s.journal.step .poll).toOption.map fun journal => { s with journal }
  | .serve => (s.journal.step .serve).toOption.map fun journal => { s with journal }
  | .deliver =>
    match s.journal.outstanding with
    | some (.response notifications) =>
      let client : CachingClient Callback := { journal := s.journal.client, localBackend := s.localBackend }
      match client.processGetJournalResponse notifications, s.journal.step .deliver with
      | .ok (client, _), .ok journal => some { s with journal, localBackend := client.localBackend }
      | _, _ => none
    | _ => some s

/-- A change that returns is journaled as it is announced, under labels that are not empty, and can be replayed; the
numbers have room for it. A poll is served while the journal reaches back to the client's last notification. -/
def InTime (s : ReplicatedTree Callback) : Action → Prop
  | .change change => (ServerRoute.changeShared change s.backend).outcome = .ok true →
      (ServerRoute.changeShared change s.backend).journaled = change.announced ∧
        (∀ entry ∈ change.announced, entry.1 ≠ []) ∧ change.Replayable s.backend.memoryTree ∧
        s.journal.history.length + change.announced.length ≤ 2 ^ 64 - 1
  | .serve => s.journal.history.length ≤ s.journal.client.lastNotification.index + s.journal.server.maxJournalSize
  | _ => True

/-- The tree after the first notifications of the history. -/
def treeAt (initial : MemoryTree) (s : ReplicatedTree Callback) (length : ℕ) : MemoryTree :=
  replayAll initial ((s.journal.history.take length).drop 1)

/-- The server has had the tree of the first notifications. -/
def HasHad (initial : MemoryTree) (s : ReplicatedTree Callback) (length : ℕ) : Prop :=
  (length, treeAt initial s length) ∈ s.past

/-- Server and client have the trees of the history, up to its end and up to the client's last notification. -/
structure Replicated (initial : MemoryTree) (s : ReplicatedTree Callback) : Prop where
  journal : s.journal.Invariant
  room : s.journal.history.length ≤ 2 ^ 64 - 1
  server : s.backend.memoryTree = treeAt initial s s.journal.history.length
  now : HasHad initial s s.journal.history.length
  copy : s.localBackend.memoryTree = treeAt initial s (s.journal.client.lastNotification.index + 1)
  shown : HasHad initial s (s.journal.client.lastNotification.index + 1)
  message : ∀ notifications, s.journal.outstanding = some (.response notifications) →
    ∃ upTo, s.journal.client.lastNotification.index < upTo ∧ upTo ≤ s.journal.history.length ∧
      notifications = (s.journal.history.take upTo).drop s.journal.client.lastNotification.index ∧ HasHad initial s upTo

section Steps

variable {initial : MemoryTree} {s t : ReplicatedTree Callback}

theorem Replicated.start {backend : SimpleBackend RouteListener} {localBackend : SimpleBackend Callback} {maxJournalSize : ℕ}
    (hMax : 1 ≤ maxJournalSize) (hSame : localBackend.memoryTree = backend.memoryTree) :
    Replicated backend.memoryTree (start backend localBackend maxJournalSize) where
  journal := .create hMax
  room := show 1 ≤ 2 ^ 64 - 1 by decide
  server := rfl
  now := List.mem_cons_self
  copy := hSame
  shown := List.mem_cons_self
  message := by
    intro notifications h
    cases h

/-- Journaled changes are appended to the history, and nothing else happens to the journal. -/
structure Appends (entries : List (Str × Option TreeNode)) (s t : JournalSystem) : Prop where
  history : ∃ added, t.history = s.history ++ added ∧ added.map (fun n => (n.labelRule, n.node)) = entries
  client : t.client = s.client
  outstanding : t.outstanding = s.outstanding

theorem journalAll_ok {entries : List (Str × Option TreeNode)} {journal after : JournalSystem}
    (h : journalAll journal entries = .ok after) : Appends entries journal after := by
  induction entries generalizing journal with
  | nil =>
      obtain rfl := Except.ok.inj h
      exact ⟨⟨[], (List.append_nil _).symm, rfl⟩, rfl, rfl⟩
  | cons entry rest ih =>
      obtain ⟨next, hNext, hRest⟩ := Outcome.bind_eq_ok.mp h
      obtain rfl := Except.ok.inj hNext
      obtain ⟨⟨added, hHistory, hAdded⟩, hClient, hOutstanding⟩ := ih hRest
      refine ⟨⟨journal.server.nextNotification entry.1 entry.2 :: added, ?_, ?_⟩, hClient, hOutstanding⟩
      · rw [hHistory, List.append_assoc, List.singleton_append]
      · rw [List.map_cons, hAdded]
        rfl

theorem changeCount_journaled (entries : List (Str × Option TreeNode)) :
    JournalSystem.changeCount (entries.map fun entry => .change entry.1 entry.2) = entries.length := by
  rw [JournalSystem.changeCount, List.countP_map, ← List.countP_true]
  rfl

/-- The journal of the entries is kept by what holds of it before. -/
theorem invariant_journalAll {entries : List (Str × Option TreeNode)} {journal : JournalSystem}
    (h : journal.Invariant) (hLabels : ∀ entry ∈ entries, entry.1 ≠ [])
    (hRoom : journal.history.length + entries.length ≤ 2 ^ 64 - 1) :
    ∃ after, journalAll journal entries = .ok after ∧ after.Invariant := by
  refine h.run (fun label node hMem => ?_) (by rwa [changeCount_journaled])
  obtain ⟨entry, hEntry, hSame⟩ := List.mem_map.mp hMem
  obtain ⟨rfl, -⟩ := JournalSystem.Action.change.inj hSame
  exact hLabels entry hEntry

theorem treeAt_of_append {added : List SequentialNotification} (hHistory : t.journal.history = s.journal.history ++ added)
    {length : ℕ} (hLength : length ≤ s.journal.history.length) : treeAt initial t length = treeAt initial s length := by
  rw [treeAt, treeAt, hHistory, List.take_append_of_le_length hLength]

theorem treeAt_of_same (hHistory : t.journal.history = s.journal.history) (length : ℕ) :
    treeAt initial t length = treeAt initial s length := by
  rw [treeAt, treeAt, hHistory]

/-- The tree of a longer part of the history. -/
theorem treeAt_trans {front back : ℕ} (hFront : 1 ≤ front) (hBack : front ≤ back) :
    treeAt initial s back = replayAll (treeAt initial s front) ((s.journal.history.take back).drop front) := by
  rw [treeAt, treeAt, ← replayAll_append]
  congr 1
  have hTake : s.journal.history.take front = (s.journal.history.take back).take front := by
    rw [List.take_take, Nat.min_eq_left hBack]
  by_cases hLong : 1 ≤ ((s.journal.history.take back).take front).length
  · rw [hTake, ← List.drop_append_of_le_length hLong, List.take_append_drop]
  · have hNone : s.journal.history.take back = [] := by
      rw [List.length_take, Nat.not_le, Nat.lt_one_iff] at hLong
      rw [← List.length_eq_zero_iff]
      omega
    rw [hTake, hNone]
    simp

theorem HasHad.congr {length : ℕ} (h : HasHad initial s length) (hTree : treeAt initial t length = treeAt initial s length)
    (hPast : ∀ entry ∈ s.past, entry ∈ t.past) : HasHad initial t length := by
  rw [HasHad, hTree]
  exact hPast _ h

/-- What happens to the journal alone. -/
theorem Replicated.of_journal {journal : JournalSystem} (h : Replicated initial s) (hInvariant : journal.Invariant)
    (hHistory : journal.history = s.journal.history) (hClient : journal.client = s.journal.client)
    (hMessage : ∀ notifications, journal.outstanding = some (.response notifications) →
      ∃ upTo, s.journal.client.lastNotification.index < upTo ∧ upTo ≤ s.journal.history.length ∧
        notifications = (s.journal.history.take upTo).drop s.journal.client.lastNotification.index ∧ HasHad initial s upTo) :
    Replicated initial { s with journal } := by
  have hTree (length : ℕ) : treeAt initial { s with journal } length = treeAt initial s length := treeAt_of_same hHistory length
  refine ⟨hInvariant, ?_, ?_, ?_, ?_, ?_, ?_⟩
  · rw [hHistory]
    exact h.room
  · rw [hTree, hHistory]
    exact h.server
  · rw [HasHad, hTree, hHistory]
    exact h.now
  · rw [hTree, hClient]
    exact h.copy
  · rw [HasHad, hTree, hClient]
    exact h.shown
  · intro notifications hOutstanding
    obtain ⟨upTo, hLast, hUpTo, hNotifications, hHad⟩ := hMessage notifications hOutstanding
    refine ⟨upTo, ?_, ?_, ?_, ?_⟩
    · rw [hClient]
      exact hLast
    · rw [hHistory]
      exact hUpTo
    · rw [hHistory, hClient]
      exact hNotifications
    · rw [HasHad, hTree]
      exact hHad

theorem Replicated.poll (h : Replicated initial s) (hStep : step s .poll = some t) : Replicated initial t := by
  have hLabelled : JournalSystem.Labelled [.poll] := fun _ _ hMem => by cases List.mem_singleton.mp hMem
  obtain ⟨after, hAfter, hInvariant, -⟩ := h.journal.step hLabelled h.room
  rw [step, hAfter] at hStep
  obtain rfl := Option.some.inj hStep
  cases hOutstanding : s.journal.outstanding with
  | none =>
      simp only [JournalSystem.step, hOutstanding, Except.ok.injEq] at hAfter
      subst hAfter
      refine h.of_journal hInvariant rfl rfl fun notifications hResponse => ?_
      cases hResponse
  | some message =>
      simp only [JournalSystem.step, hOutstanding, Except.ok.injEq] at hAfter
      subst hAfter
      exact h

theorem Replicated.serve (h : Replicated initial s) (hAllowed : InTime s .serve) (hStep : step s .serve = some t) :
    Replicated initial t := by
  have hLabelled : JournalSystem.Labelled [.serve] := fun _ _ hMem => by cases List.mem_singleton.mp hMem
  obtain ⟨after, hAfter, hInvariant, -⟩ := h.journal.step hLabelled h.room
  rw [step, hAfter] at hStep
  obtain rfl := Option.some.inj hStep
  rcases hOutstanding : s.journal.outstanding with _ | last | notifications
  · simp only [JournalSystem.step, hOutstanding, Except.ok.injEq] at hAfter
    subst hAfter
    exact h
  · have hLast : last = s.journal.client.lastNotification := by
      have hMessage := h.journal.message
      simpa only [JournalSystem.MessageFits, hOutstanding] using hMessage
    have hServed := h.journal.keeps.getJournal_reached h.journal.covered hAllowed
    simp only [JournalSystem.step, hOutstanding, hLast, hServed, Outcome.ok_bind, Outcome.pure_eq_ok,
      Except.ok.injEq] at hAfter
    subst hAfter
    refine h.of_journal hInvariant rfl rfl fun notifications hResponse => ?_
    obtain rfl := PollMessage.response.inj (Option.some.inj hResponse)
    exact ⟨s.journal.history.length, h.journal.covered, Nat.le_refl _, by rw [List.take_length], h.now⟩
  · simp only [JournalSystem.step, hOutstanding, Except.ok.injEq] at hAfter
    subst hAfter
    exact h

/-- The notifications that are new to a client are the history between its old and its new last one. -/
theorem between_eq_drop {history : List SequentialNotification} (hNumbered : NumberedFrom SequentialNotification.index 0 history)
    (previous current : SequentialNotification) : JournalSystem.between history previous current =
      (history.take (current.index + 1)).drop (previous.index + 1) := by
  have hFilter := hNumbered.filter_between previous.index current.index
  rw [Nat.sub_zero, Nat.sub_zero] at hFilter
  simpa only [JournalSystem.between, SequentialNotification.number_lt_iff, SequentialNotification.number_le_iff]
    using hFilter

theorem Replicated.deliver (h : Replicated initial s) (hStep : step s .deliver = some t) : Replicated initial t := by
  have hLabelled : JournalSystem.Labelled [.deliver] := fun _ _ hMem => by cases List.mem_singleton.mp hMem
  obtain ⟨after, hAfter, hInvariant, -⟩ := h.journal.step hLabelled h.room
  rcases hOutstanding : s.journal.outstanding with _ | last | notifications
  · simp only [step, hOutstanding, Option.some.injEq] at hStep
    exact hStep ▸ h
  · simp only [step, hOutstanding, Option.some.injEq] at hStep
    exact hStep ▸ h
  · obtain ⟨upTo, hLast, hUpTo, rfl, hHad⟩ := h.message _ hOutstanding
    obtain ⟨current, hCurrent, hProcessed⟩ := Http3ClientBackend.processGetJournalResponse_segment
      h.journal.keeps.numbered h.room h.journal.labelled hLast hUpTo
    have hDone := hAfter
    simp only [JournalSystem.step, hOutstanding, hProcessed, Outcome.ok_bind, Outcome.pure_eq_ok, Except.ok.injEq] at hDone
    have hPolled := CachingClient.processGetJournalResponse_eq (c := { journal := s.journal.client, localBackend := s.localBackend })
      hProcessed
    simp only [step, hOutstanding, hAfter, hPolled] at hStep
    split at hStep
    · next client requested _ hClient hSame =>
        obtain rfl := Except.ok.inj hSame
        obtain rfl := Option.some.inj hStep
        have hTree := CachingClient.handle_applied hClient
        rw [between_eq_drop h.journal.keeps.numbered, hCurrent] at hTree
        have hTrans : treeAt initial s upTo = replayAll (treeAt initial s (s.journal.client.lastNotification.index + 1))
            ((s.journal.history.take upTo).drop (s.journal.client.lastNotification.index + 1)) :=
          treeAt_trans (by omega) (by omega)
        have hCopy : client.localBackend.memoryTree = treeAt initial s upTo := by
          rw [hTree, hTrans, ← h.copy]
        subst hDone
        refine ⟨hInvariant, h.room, h.server, h.now, ?_, ?_, ?_⟩
        · rw [hCurrent]
          exact hCopy
        · rw [hCurrent]
          exact hHad
        · intro notifications hNone
          cases hNone
    · cases hStep

/-- A change of the server's tree that is journaled as it is announced. -/
theorem Replicated.of_change (h : Replicated initial s) {journal : JournalSystem} {backend : SimpleBackend RouteListener}
    {entries : List (Str × Option TreeNode)} (hInvariant : journal.Invariant) (hAppends : Appends entries s.journal journal)
    (hRoom : journal.history.length ≤ 2 ^ 64 - 1)
    (hTree : backend.memoryTree = entries.foldl TreeChange.replay s.backend.memoryTree) :
    Replicated initial { s with
      backend
      journal
      past := s.past ++ [(journal.history.length, backend.memoryTree)] } := by
  obtain ⟨added, hHistory, rfl⟩ := hAppends.history
  have hOne := h.journal.keeps.nonempty
  have hLonger : s.journal.history.length ≤ journal.history.length := by
    rw [hHistory, List.length_append]
    exact Nat.le_add_right _ _
  let t : ReplicatedTree Callback :=
    { s with backend, journal, past := s.past ++ [(journal.history.length, backend.memoryTree)] }
  have hKept {length : ℕ} (hLength : length ≤ s.journal.history.length) : treeAt initial t length = treeAt initial s length :=
    treeAt_of_append hHistory hLength
  have hHad {length : ℕ} (hLength : length ≤ s.journal.history.length) (hHad : HasHad initial s length) :
      HasHad initial t length :=
    hHad.congr (hKept hLength) fun _ hMem => List.mem_append_left _ hMem
  have hNow : backend.memoryTree = treeAt initial t journal.history.length := by
    have hAdded : (t.journal.history.take journal.history.length).drop s.journal.history.length = added := by
      rw [show t.journal.history = journal.history from rfl, List.take_length, hHistory, List.drop_left]
    rw [treeAt_trans hOne hLonger, hKept (Nat.le_refl _), ← h.server, hAdded, hTree, List.foldl_map]
    rfl
  have hCovered : s.journal.client.lastNotification.index + 1 ≤ s.journal.history.length := h.journal.covered
  refine ⟨hInvariant, hRoom, hNow, ?_, ?_, ?_, ?_⟩
  · rw [HasHad, show t.journal.history.length = journal.history.length from rfl, ← hNow]
    exact List.mem_append_right _ List.mem_cons_self
  · rw [show t.journal.client = s.journal.client from hAppends.client, hKept hCovered]
    exact h.copy
  · rw [show t.journal.client = s.journal.client from hAppends.client]
    exact hHad hCovered h.shown
  · intro notifications hOutstanding
    obtain ⟨upTo, hLast, hUpTo, hNotifications, hShown⟩ := h.message notifications (hAppends.outstanding ▸ hOutstanding)
    refine ⟨upTo, ?_, Nat.le_trans hUpTo hLonger, ?_, hHad hUpTo hShown⟩
    · rw [show t.journal.client = s.journal.client from hAppends.client]
      exact hLast
    · rw [show t.journal.client = s.journal.client from hAppends.client, hNotifications,
        show t.journal.history = journal.history from rfl, hHistory, List.take_append_of_le_length hUpTo]

theorem Replicated.change {change : TreeChange} (h : Replicated initial s) (hAllowed : InTime s (.change change))
    (hStep : step s (.change change) = some t) : Replicated initial t := by
  have hReply : ∃ entries after outcome, ServerRoute.changeShared change s.backend = ⟨outcome, after, entries⟩ ∧
      after.memoryTree = entries.foldl TreeChange.replay s.backend.memoryTree ∧ (∀ entry ∈ entries, entry.1 ≠ []) ∧
      s.journal.history.length + entries.length ≤ 2 ^ 64 - 1 := by
    cases hPerform : s.backend.perform change with
    | error fault =>
        refine ⟨[], s.backend, .error fault, by rw [ServerRoute.changeShared, hPerform], rfl, List.forall_mem_nil _, ?_⟩
        simpa using h.room
    | ok result =>
        obtain ⟨after, notices⟩ := result
        have hShared : ServerRoute.changeShared change s.backend = ⟨.ok true, after, ServerRoute.journalEntries notices⟩ := by
          rw [ServerRoute.changeShared, hPerform]
        obtain ⟨hJournaled, hLabels, hReplayable, hRoom⟩ := hAllowed (by rw [hShared])
        rw [hShared] at hJournaled
        obtain ⟨tree, hTree, rfl, -⟩ := (SimpleBackend.perform_eq_ok _).mp hPerform
        refine ⟨_, _, _, hShared, ?_, ?_, ?_⟩
        · rw [show ServerRoute.journalEntries notices = change.announced from hJournaled]
          exact (TreeChange.foldl_replay_announced hReplayable hTree).symm
        · rw [show ServerRoute.journalEntries notices = change.announced from hJournaled]
          exact hLabels
        · rw [show ServerRoute.journalEntries notices = change.announced from hJournaled]
          exact hRoom
  obtain ⟨entries, after, outcome, hShared, hTree, hLabels, hRoom⟩ := hReply
  obtain ⟨journal, hJournal, hInvariant⟩ := invariant_journalAll h.journal hLabels hRoom
  have hAppends := journalAll_ok hJournal
  simp only [step, hShared, hJournal, Option.some.injEq] at hStep
  subst hStep
  refine h.of_change hInvariant hAppends ?_ hTree
  obtain ⟨added, hHistory, hAdded⟩ := hAppends.history
  rw [hHistory, List.length_append]
  rw [← hAdded, List.length_map] at hRoom
  exact hRoom

theorem Replicated.step {action : Action} (h : Replicated initial s) (hAllowed : InTime s action)
    (hStep : ReplicatedTree.step s action = some t) : Replicated initial t := by
  cases action with
  | change change => exact h.change hAllowed hStep
  | poll => exact h.poll hStep
  | serve => exact h.serve hAllowed hStep
  | deliver => exact h.deliver hStep

end Steps

section Runs

variable {backend : SimpleBackend RouteListener} {localBackend : SimpleBackend Callback} {maxJournalSize : ℕ}
  {s : ReplicatedTree Callback}

end Runs

end ReplicatedTree

end Wwatp
