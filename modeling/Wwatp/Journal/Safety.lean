import Wwatp.Journal.Protocol

/-! Safety of the journal protocol over every interleaving of changes and polls. -/
namespace Wwatp

open Cxx

namespace SequentialNotification

/-- The place of a notification in the history. -/
def index (n : SequentialNotification) : ℕ := n.number.toNat

theorem number_lt_iff {m n : SequentialNotification} : m.number < n.number ↔ m.index < n.index :=
  UInt64.lt_iff_toNat_lt

theorem number_le_iff {m n : SequentialNotification} : m.number ≤ n.number ↔ m.index ≤ n.index :=
  UInt64.le_iff_toNat_le

theorem number_ne_unsolicited {n : SequentialNotification} (h : n.index < 2 ^ 64 - 1) :
    n.number ≠ unsolicited := by
  intro hEq
  rw [index, hEq] at h
  exact Nat.lt_irrefl _ h

end SequentialNotification

namespace Http3ClientBackend

/-- The first loop finds no gap in consecutive numbers that follow `current`. -/
theorem findGap_eq_false {first : ℕ} {current : UInt64} {notifications : List SequentialNotification}
    (h : NumberedFrom SequentialNotification.index first notifications)
    (hFirst : first ≤ current.toNat + 1) (hSmall : first + notifications.length ≤ 2 ^ 64 - 1)
    (hCurrent : current.toNat < 2 ^ 64 - 1) : findGap current notifications = false := by
  induction notifications generalizing first current with
  | nil => rfl
  | cons n rest ih =>
      obtain ⟨hIndex, hRest⟩ := NumberedFrom.cons_iff.mp h
      rw [List.length_cons] at hSmall
      have hNext : ¬ n.number > current + 1 := by
        rw [gt_iff_lt, UInt64.lt_iff_toNat_lt, UInt64.toNat_add, UInt64.toNat_one,
          Nat.mod_eq_of_lt (by omega)]
        rw [SequentialNotification.index] at hIndex
        omega
      rw [findGap, if_neg (SequentialNotification.number_ne_unsolicited (by omega)), if_neg hNext]
      rw [SequentialNotification.index] at hIndex
      exact ih hRest (by omega) (by omega) (by omega)

/-- The second loop applies the notifications after the last one, unless there is a gap. -/
theorem applyLoop_events (notificationGap : Bool) (last : UInt64)
    (lastValid : SequentialNotification) (notifications : List SequentialNotification) :
    (applyLoop notificationGap last lastValid notifications).1 =
      if notificationGap then []
      else (notifications.filter (fun n => decide (n.number > last))).flatMap
        processOneNotification := by
  induction notifications generalizing lastValid with
  | nil => cases notificationGap <;> rfl
  | cons n rest ih =>
      simp only [applyLoop, ih]
      cases notificationGap with
      | true => simp
      | false =>
          rcases Decidable.em (n.number > last) with hNew | hOld
          · simp [hNew]
          · simp [hOld]

/-- Without unsolicited notifications the last valid one is the last of the response. -/
theorem applyLoop_lastValid (notificationGap : Bool) (last : UInt64)
    (lastValid : SequentialNotification) {notifications : List SequentialNotification}
    (h : ∀ n ∈ notifications, n.number ≠ unsolicited) :
    (applyLoop notificationGap last lastValid notifications).2 =
      notifications.getLast?.getD lastValid := by
  induction notifications generalizing lastValid with
  | nil => rfl
  | cons n rest ih =>
      simp only [applyLoop, ih _ (fun m hm => h m (List.mem_cons_of_mem _ hm)),
        if_neg (h n List.mem_cons_self), List.getLast?_cons, Option.getD_some]

theorem flatMap_processOneNotification {notifications : List SequentialNotification}
    (h : ∀ n ∈ notifications, n.labelRule ≠ []) :
    notifications.flatMap processOneNotification =
      notifications.map (fun n => .applied n.number (localChange n)) := by
  rw [List.map_eq_flatMap]
  apply List.flatMap_congr
  intro n hn
  rw [processOneNotification, if_neg (h n hn)]

end Http3ClientBackend

/-- What the journal holds after the changes recorded in `history`: the latest of
them, numbered by their places. -/
structure Http3ServerRoute.Keeps (route : Http3ServerRoute) (history : List SequentialNotification) :
    Prop where
  positive : 1 ≤ route.maxJournalSize
  numbered : NumberedFrom SequentialNotification.index 0 history
  nonempty : 0 < history.length
  window : route.journal = history.drop (history.length - route.maxJournalSize)

/-- What the server answers a client whose last notification is `last`: the history
from there on, or the marker with a later number. -/
def ResponseFor (history : List SequentialNotification) (last : SequentialNotification)
    (notifications : List SequentialNotification) : Prop :=
  (∃ upTo, last.index < upTo ∧ upTo ≤ history.length ∧
      notifications = (history.take upTo).drop last.index) ∨
    ∃ latest : SequentialNotification, last.index ≤ latest.index ∧ latest.index < history.length ∧
      notifications = [⟨0, [], none⟩, ⟨2, [], none⟩, ⟨latest.number, [], none⟩]

theorem ResponseFor.append {history notifications : List SequentialNotification}
    {last : SequentialNotification}
    (h : ResponseFor history last notifications) (n : SequentialNotification) :
    ResponseFor (history ++ [n]) last notifications := by
  rcases h with ⟨upTo, hLast, hUpTo, hEq⟩ | ⟨latest, hLast, hLatest, hEq⟩
  · refine .inl ⟨upTo, hLast, by simp; omega, ?_⟩
    rw [hEq, List.take_append_of_le_length hUpTo]
  · exact .inr ⟨latest, hLast, by simp; omega, hEq⟩

namespace Http3ServerRoute.Keeps

variable {route : Http3ServerRoute} {history : List SequentialNotification}

theorem journal_numbered (h : route.Keeps history) :
    NumberedFrom SequentialNotification.index (history.length - route.maxJournalSize)
      route.journal := by
  have hDrop := h.numbered.drop (history.length - route.maxJournalSize)
  rwa [Nat.zero_add, ← h.window] at hDrop

theorem journal_length (h : route.Keeps history) :
    route.journal.length = min history.length route.maxJournalSize := by
  rw [h.window, List.length_drop]
  omega

theorem getLast?_journal (h : route.Keeps history) :
    ∃ latest, route.journal.getLast? = some latest ∧ latest.index + 1 = history.length := by
  have hLength := h.journal_length
  have hPositive := h.positive
  have hNonempty := h.nonempty
  refine ⟨route.journal[route.journal.length - 1], ?_, ?_⟩
  · rw [List.getLast?_eq_getElem?, List.getElem?_eq_getElem]
  · rw [h.journal_numbered.key_getElem]
    omega

theorem head?_journal (h : route.Keeps history) :
    ∃ oldest, route.journal.head? = some oldest ∧
      oldest.index = history.length - route.maxJournalSize := by
  have hLength := h.journal_length
  have hPositive := h.positive
  have hNonempty := h.nonempty
  refine ⟨route.journal[0], ?_, ?_⟩
  · rw [List.head?_eq_getElem?, List.getElem?_eq_getElem]
  · rw [h.journal_numbered.key_getElem, Nat.add_zero]

theorem create {maxJournalSize : ℕ} (h : 1 ≤ maxJournalSize) :
    (Http3ServerRoute.create maxJournalSize).Keeps
      (Http3ServerRoute.create maxJournalSize).journal where
  positive := h
  numbered := rfl
  nonempty := Nat.zero_lt_one
  window := by
    change _ = List.drop (1 - maxJournalSize) _
    rw [Nat.sub_eq_zero_of_le h, List.drop_zero]

/-- A journaled change gets the next place in the history. -/
theorem nextNotification_index (h : route.Keeps history) (hSmall : history.length < 2 ^ 64)
    (label : Str) (node : Option TreeNode) :
    (route.nextNotification label node).index = history.length := by
  obtain ⟨latest, hLatest, hIndex⟩ := h.getLast?_journal
  simp only [nextNotification, hLatest, SequentialNotification.index] at hIndex ⊢
  rw [UInt64.toNat_add, UInt64.toNat_one, hIndex, Nat.mod_eq_of_lt hSmall]

theorem journalCallback (h : route.Keeps history) (hSmall : history.length < 2 ^ 64)
    (label : Str) (node : Option TreeNode) :
    (route.journalCallback label node).Keeps (history ++ [route.nextNotification label node]) where
  positive := h.positive
  numbered := h.numbered.append_singleton
    (by rw [h.nextNotification_index hSmall, Nat.zero_add])
  nonempty := by simp
  window := by
    have hLength := h.journal_length
    have hPositive := h.positive
    simp only [Http3ServerRoute.journalCallback, List.length_append, List.length_singleton, hLength]
    rcases Nat.lt_or_ge history.length route.maxJournalSize with hRoom | hFull
    · rw [if_neg (by omega), h.window, Nat.sub_eq_zero_of_le (by omega),
        Nat.sub_eq_zero_of_le (by omega), List.drop_zero, List.drop_zero]
    · -- the oldest notification makes room for the new one
      rw [if_pos (by omega), h.window, ← List.drop_append_of_le_length (by omega), List.drop_drop]
      congr 1
      omega

/-- The server answers every client whose last notification it has journaled. -/
theorem getJournal (h : route.Keeps history) {last : SequentialNotification}
    (hLast : last.index < history.length) :
    ∃ notifications, route.getJournal last = .ok notifications ∧
      ResponseFor history last notifications := by
  obtain ⟨latest, hLatest, hLatestIndex⟩ := h.getLast?_journal
  obtain ⟨oldest, hOldest, hOldestIndex⟩ := h.head?_journal
  simp only [Http3ServerRoute.getJournal, hOldest, hLatest, SequentialNotification.number_lt_iff]
  rcases Nat.lt_or_ge last.index oldest.index with hGap | hReached
  · -- the client's last notification has been trimmed away
    rw [h.journal_numbered.lowerBound_before
      (show last.index ≤ history.length - route.maxJournalSize by omega)]
    simp only [Outcome.ok_bind, if_pos (Or.inr hGap), Outcome.pure_eq_ok]
    exact ⟨_, rfl, .inr ⟨latest, by omega, by omega, rfl⟩⟩
  · rw [h.journal_numbered.lowerBound_lt
      (show history.length - route.maxJournalSize ≤ last.index by omega)]
    have hFound : route.journal.drop (last.index - (history.length - route.maxJournalSize)) =
        history.drop last.index := by
      rw [h.window, List.drop_drop]
      congr 1
      omega
    have hSent : ¬((history.drop last.index = [] ∧ last.number ≠ latest.number) ∨
        last.index < oldest.index) := by
      rw [List.drop_eq_nil_iff]
      omega
    simp only [Outcome.ok_bind, hFound, if_neg hSent, Outcome.pure_eq_ok]
    exact ⟨_, rfl, .inl ⟨history.length, hLast, Nat.le_refl _, by rw [List.take_length]⟩⟩

end Http3ServerRoute.Keeps

namespace Http3ClientBackend

variable {client : Http3ClientBackend} {history notifications : List SequentialNotification}

/-- The response to a poll without a gap, handled in terms of its entries. -/
theorem processGetJournalResponse_consecutive {current : SequentialNotification}
    (hNumbered : NumberedFrom SequentialNotification.index client.lastNotification.index notifications)
    (hSmall : client.lastNotification.index + notifications.length ≤ 2 ^ 64 - 1)
    (hCurrent : notifications.getLast? = some current) :
    client.processGetJournalResponse notifications =
      .ok (⟨current, false⟩,
        (notifications.filter (fun n => decide (n.number > client.lastNotification.number))).flatMap
          processOneNotification ++ [.advanced current]) := by
  have hSolicited : ∀ n ∈ notifications, n.number ≠ unsolicited := by
    intro n hn
    have hIndex := hNumbered.key_mem hn
    exact SequentialNotification.number_ne_unsolicited (by omega)
  cases notifications with
  | nil => cases hCurrent
  | cons front rest =>
      have hFront := (NumberedFrom.cons_iff.mp hNumbered).1
      rw [List.length_cons] at hSmall
      have hStart : ¬ client.lastNotification.number < front.number := by
        rw [SequentialNotification.number_lt_iff]
        omega
      have hNoGap : findGap front.number (front :: rest) = false := by
        rw [← hFront] at hNumbered hSmall
        exact findGap_eq_false hNumbered (Nat.le_succ _) (by simpa using hSmall)
          (show front.index < _ by omega)
      have hValid : (applyLoop false client.lastNotification.number front (front :: rest)).2 =
          current := by
        rw [applyLoop_lastValid _ _ _ hSolicited, hCurrent, Option.getD_some]
      simp only [processGetJournalResponse, hStart, hNoGap, decide_false, Bool.or_self,
        applyLoop_events, hValid, updateLastNotification,
        if_neg (hSolicited _ (List.mem_of_getLast? hCurrent)), Bool.false_eq_true, if_false,
        List.append_nil]

/-- The entries of a segment that are new to the client are those numbered between
its ends. -/
theorem between_eq_filter (hNumbered : NumberedFrom SequentialNotification.index 0 history)
    (previous : SequentialNotification) {current : SequentialNotification}
    (hCurrent : current.index < history.length) :
    JournalSystem.between history previous current =
      ((history.take (current.index + 1)).drop previous.index).filter
        (fun n => decide (n.number > previous.number)) := by
  have hTake := hNumbered.take (current.index + 1)
  have hBounded : ((history.take (current.index + 1)).drop previous.index).filter
      (fun n => decide (n.index > previous.index)) =
      ((history.take (current.index + 1)).drop previous.index).filter
        (fun n => decide (previous.index < n.index ∧ n.index ≤ current.index)) := by
    apply List.filter_congr
    intro n hn
    have hIndex := hTake.key_mem (List.mem_of_mem_drop hn)
    rw [List.length_take] at hIndex
    rw [decide_eq_decide]
    omega
  simp only [JournalSystem.between, gt_iff_lt, SequentialNotification.number_lt_iff,
    SequentialNotification.number_le_iff] at hBounded ⊢
  have hAll : ((history.take (current.index + 1)).drop previous.index).take
      (current.index + 1 - previous.index) = (history.take (current.index + 1)).drop previous.index :=
    List.take_of_length_le (by rw [List.length_drop, List.length_take]; omega)
  rw [hBounded, hNumbered.filter_between, (hTake.drop previous.index).filter_between, Nat.zero_add,
    hAll, List.drop_drop, Nat.sub_zero, Nat.sub_zero]
  congr 1
  omega

/-- Handling the history from the last notification on applies the rest of it. -/
theorem processGetJournalResponse_segment (hNumbered : NumberedFrom SequentialNotification.index 0 history)
    (hSmall : history.length ≤ 2 ^ 64 - 1)
    (hLabelled : ∀ n ∈ history, n.number ≠ 0 → n.labelRule ≠ []) {upTo : ℕ}
    (hLast : client.lastNotification.index < upTo) (hUpTo : upTo ≤ history.length) :
    ∃ current, current.index + 1 = upTo ∧
      client.processGetJournalResponse ((history.take upTo).drop client.lastNotification.index) =
        .ok (⟨current, false⟩,
          (JournalSystem.between history client.lastNotification current).map
            (fun n => .applied n.number (localChange n)) ++ [.advanced current]) := by
  have hSegment := (hNumbered.take upTo).drop client.lastNotification.index
  have hLength : ((history.take upTo).drop client.lastNotification.index).length =
      upTo - client.lastNotification.index := by
    rw [List.length_drop, List.length_take, Nat.min_eq_left hUpTo]
  have hGet : history[upTo - 1].index + 1 = upTo := by
    rw [hNumbered.key_getElem]
    omega
  have hCurrent : ((history.take upTo).drop client.lastNotification.index).getLast? =
      some history[upTo - 1] := by
    rw [List.getLast?_eq_getElem?, hLength, List.getElem?_drop, List.getElem?_take_of_lt (by omega),
      List.getElem?_eq_some_iff]
    exact ⟨by omega, by congr 1; omega⟩
  refine ⟨history[upTo - 1], hGet, ?_⟩
  rw [Nat.zero_add] at hSegment
  rw [processGetJournalResponse_consecutive hSegment (by omega) hCurrent,
    between_eq_filter hNumbered _ (by omega), hGet, flatMap_processOneNotification]
  intro n hn
  obtain ⟨hIn, hNew⟩ := List.mem_filter.mp hn
  refine hLabelled n (List.mem_of_mem_take (List.mem_of_mem_drop hIn)) ?_
  intro hZero
  simp [hZero] at hNew

/-- The marker makes the client ask for the page tree, apply nothing, and advance. -/
theorem processGetJournalResponse_marker {latest : UInt64} (hLatest : latest ≠ unsolicited) :
    client.processGetJournalResponse [⟨0, [], none⟩, ⟨2, [], none⟩, ⟨latest, [], none⟩] =
      .ok (⟨⟨latest, [], none⟩, false⟩,
        [.pageTreeRequested (str "MutableNodes"), .advanced ⟨latest, [], none⟩]) := by
  have hGap : findGap 0 [⟨0, [], none⟩, ⟨2, [], none⟩, ⟨latest, [], none⟩] = true := rfl
  have hSolicited : ∀ n ∈ [⟨0, [], none⟩, ⟨2, [], none⟩, (⟨latest, [], none⟩ : SequentialNotification)],
      n.number ≠ unsolicited := by
    simpa [unsolicited] using hLatest
  simp only [processGetJournalResponse, hGap, Bool.or_true, applyLoop_events, if_true,
    applyLoop_lastValid _ _ _ hSolicited, getMutablePageTreeInMode, updateLastNotification]
  simp [hLatest]

end Http3ClientBackend
end Wwatp
