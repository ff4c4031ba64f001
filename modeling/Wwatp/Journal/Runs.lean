import Wwatp.Journal.Safety

/-! The invariant of the journal protocol, and what it says of whole runs. -/
namespace Wwatp

open Cxx

namespace JournalSystem

theorem between_append {history : List SequentialNotification}
    {previous current n : SequentialNotification} (h : current.index < n.index) :
    between (history ++ [n]) previous current = between history previous current := by
  have hLater : ¬(previous.number < n.number ∧ n.number ≤ current.number) := by
    rw [SequentialNotification.number_le_iff]
    omega
  rw [between, List.filter_append, List.filter_cons_of_neg (by simpa using hLater),
    List.filter_nil, List.append_nil, between]

end JournalSystem

namespace Delivery

variable {d : Delivery} {history : List SequentialNotification}

theorem Faithful.append (h : d.Faithful history) {n : SequentialNotification}
    (hNew : d.current.index < n.index) : d.Faithful (history ++ [n]) := by
  rwa [Faithful, JournalSystem.between_append hNew]

/-- A faithful delivery applies numbers after the previous last one, up to the new
one, and in increasing order. -/
theorem Faithful.appliedNumbers (h : d.Faithful history)
    (hNumbered : NumberedFrom SequentialNotification.index 0 history) :
    d.appliedNumbers.Pairwise (· < ·) ∧
      ∀ number ∈ d.appliedNumbers, d.previous.number < number ∧ number ≤ d.current.number := by
  rcases h.2 with hEvents | hEvents
  · have hApplied : d.appliedNumbers =
        (JournalSystem.between history d.previous d.current).map SequentialNotification.number := by
      rw [Delivery.appliedNumbers, hEvents, List.filterMap_append, List.filterMap_map]
      simp
    rw [hApplied]
    constructor
    · rw [List.pairwise_map]
      apply List.Pairwise.filter
      exact hNumbered.pairwise_lt.imp SequentialNotification.number_lt_iff.mpr
    · intro number hMem
      obtain ⟨n, hn, rfl⟩ := List.mem_map.mp hMem
      simpa using (List.mem_filter.mp hn).2
  · simp [Delivery.appliedNumbers, hEvents]

end Delivery

namespace JournalSystem

/-- The outstanding message belongs to the client's last notification. -/
def MessageFits (s : JournalSystem) : Prop :=
  match s.outstanding with
  | none => True
  | some (.request last) => last = s.client.lastNotification
  | some (.response notifications) => ResponseFor s.history s.client.lastNotification notifications

/-- Server, client and message agree on the history, and what has been delivered so
far was faithful and reaches up to the client's last notification. -/
structure Invariant (s : JournalSystem) : Prop where
  keeps : s.server.Keeps s.history
  labelled : ∀ n ∈ s.history, n.number ≠ 0 → n.labelRule ≠ []
  covered : s.client.lastNotification.index < s.history.length
  message : s.MessageFits
  faithful : s.Faithful
  upTo : ∀ d ∈ s.deliveries, d.current.index ≤ s.client.lastNotification.index
  applied : ∀ number ∈ s.deliveries.flatMap Delivery.appliedNumbers,
    number ≤ s.client.lastNotification.number

variable {s : JournalSystem}

theorem Invariant.create {maxJournalSize : ℕ} (h : 1 ≤ maxJournalSize) :
    (JournalSystem.create maxJournalSize).Invariant where
  keeps := .create h
  labelled := by simp [JournalSystem.create, Http3ServerRoute.create]
  covered := Nat.zero_lt_one
  message := trivial
  faithful := ⟨by simp [JournalSystem.create], List.Pairwise.nil⟩
  upTo := by simp [JournalSystem.create]
  applied := by simp [JournalSystem.create]

/-- A journaled change leaves what is covered, in flight and delivered as it is. -/
theorem Invariant.change (h : s.Invariant) (hSmall : s.history.length < 2 ^ 64)
    {label : Str} (hLabel : label ≠ []) (node : Option TreeNode) :
    Invariant { s with
      server := s.server.journalCallback label node
      history := s.history ++ [s.server.nextNotification label node] } where
  keeps := h.keeps.journalCallback hSmall label node
  labelled := by
    intro n hn hNumber
    rcases List.mem_append.mp hn with hOld | hNew
    · exact h.labelled n hOld hNumber
    · rw [List.mem_singleton.mp hNew]
      exact hLabel
  covered := by
    rw [List.length_append]
    exact Nat.lt_add_right _ h.covered
  message := by
    have hMessage := h.message
    unfold MessageFits at hMessage ⊢
    split at hMessage <;> rename_i hOutstanding <;> simp only [hOutstanding]
    · exact hMessage
    · exact hMessage.append _
  faithful := by
    refine ⟨?_, h.faithful.2⟩
    intro d hd
    apply (h.faithful.1 d hd).append
    rw [h.keeps.nextNotification_index hSmall]
    exact Nat.lt_of_le_of_lt (h.upTo d hd) h.covered
  upTo := h.upTo
  applied := h.applied

theorem Invariant.poll (h : s.Invariant) :
    Invariant { s with outstanding := some (.request s.client.solicitJournalRequest) } :=
  { h with message := rfl }

/-- The answer to an outstanding request is one the client can handle. -/
theorem Invariant.serve (h : s.Invariant) {last : SequentialNotification}
    (hRequest : s.outstanding = some (.request last)) :
    ∃ notifications, s.server.getJournal last = .ok notifications ∧
      Invariant { s with outstanding := some (.response notifications) } := by
  have hLast : last = s.client.lastNotification := by
    have hMessage := h.message
    simpa only [MessageFits, hRequest] using hMessage
  obtain ⟨notifications, hServed, hFits⟩ := h.keeps.getJournal (hLast ▸ h.covered)
  rw [hLast] at hFits
  exact ⟨notifications, hServed, { h with message := hFits }⟩

/-- A delivery that is faithful and advances the client to a journaled notification
keeps the invariant. -/
theorem Invariant.advance (h : s.Invariant) {current : SequentialNotification}
    {events : List ClientEvent} (hCurrent : current.index < s.history.length)
    (hDelivery : Delivery.Faithful s.history ⟨s.client.lastNotification, events, current⟩)
    (block : Bool) :
    Invariant { s with
      client := ⟨current, block⟩
      outstanding := none
      deliveries := s.deliveries ++ [⟨s.client.lastNotification, events, current⟩] } := by
  have hAdvance := hDelivery.1
  obtain ⟨hOrdered, hBetween⟩ := hDelivery.appliedNumbers h.keeps.numbered
  refine { h with covered := hCurrent, message := trivial, faithful := ⟨?_, ?_⟩, upTo := ?_, applied := ?_ }
  · intro d hd
    rcases List.mem_append.mp hd with hOld | hNew
    · exact h.faithful.1 d hOld
    · rwa [List.mem_singleton.mp hNew]
  · rw [List.flatMap_append, List.flatMap_singleton, List.pairwise_append]
    refine ⟨h.faithful.2, hOrdered, ?_⟩
    intro old hOld new hNew
    exact UInt64.lt_of_le_of_lt (h.applied old hOld) (hBetween new hNew).1
  · intro d hd
    rcases List.mem_append.mp hd with hOld | hNew
    · exact Nat.le_trans (h.upTo d hOld) (SequentialNotification.number_le_iff.mp hAdvance)
    · rw [List.mem_singleton.mp hNew]
  · intro number hNumber
    rw [List.flatMap_append, List.flatMap_singleton] at hNumber
    rcases List.mem_append.mp hNumber with hOld | hNew
    · exact UInt64.le_trans (h.applied number hOld) hAdvance
    · exact (hBetween number hNew).2

/-- The client handles a response it polled for faithfully. -/
theorem Invariant.deliver (h : s.Invariant) (hSmall : s.history.length ≤ 2 ^ 64 - 1)
    {notifications : List SequentialNotification}
    (hFits : ResponseFor s.history s.client.lastNotification notifications) :
    ∃ client events, s.client.processGetJournalResponse notifications = .ok (client, events) ∧
      Invariant { s with
        client, outstanding := none
        deliveries := s.deliveries ++ [⟨s.client.lastNotification, events, client.lastNotification⟩] } := by
  rcases hFits with ⟨upTo, hLast, hUpTo, rfl⟩ | ⟨latest, hLast, hLatest, rfl⟩
  · obtain ⟨current, hCurrent, hProcessed⟩ :=
      Http3ClientBackend.processGetJournalResponse_segment h.keeps.numbered hSmall h.labelled hLast hUpTo
    have hAdvance : s.client.lastNotification.number ≤ current.number :=
      SequentialNotification.number_le_iff.mpr (by omega)
    exact ⟨_, _, hProcessed, h.advance (by omega) ⟨hAdvance, .inl rfl⟩ _⟩
  · let current : SequentialNotification := ⟨latest.number, [], none⟩
    have hSolicited : current.number ≠ unsolicited :=
      SequentialNotification.number_ne_unsolicited (show latest.index < _ by omega)
    have hAdvance : s.client.lastNotification.number ≤ current.number :=
      SequentialNotification.number_le_iff.mpr hLast
    exact ⟨_, _, Http3ClientBackend.processGetJournalResponse_marker hSolicited,
      h.advance (show current.index < _ from hLatest) ⟨hAdvance, .inr rfl⟩ _⟩

/-- Every step succeeds and keeps the invariant while the numbers have room. -/
theorem Invariant.step (h : s.Invariant) {action : Action} (hLabelled : Labelled [action])
    (hSmall : s.history.length + changeCount [action] ≤ 2 ^ 64 - 1) :
    ∃ after, s.step action = .ok after ∧ after.Invariant ∧
      after.history.length = s.history.length + changeCount [action] := by
  cases action with
  | change label node =>
      have hLabel : label ≠ [] := hLabelled label node List.mem_cons_self
      have hCount : changeCount [.change label node] = 1 := rfl
      rw [hCount] at hSmall ⊢
      exact ⟨_, rfl, h.change (by omega) hLabel node, List.length_append⟩
  | poll =>
      cases hOutstanding : s.outstanding with
      | none => exact ⟨_, by simp only [JournalSystem.step, hOutstanding], h.poll, rfl⟩
      | some message => exact ⟨s, by simp only [JournalSystem.step, hOutstanding], h, rfl⟩
  | serve =>
      rcases hOutstanding : s.outstanding with _ | last | notifications
      · exact ⟨s, by simp only [JournalSystem.step, hOutstanding], h, rfl⟩
      · obtain ⟨notifications, hServed, hInvariant⟩ := h.serve hOutstanding
        exact ⟨_, by simp only [JournalSystem.step, hOutstanding, hServed, Outcome.ok_bind]; rfl,
          hInvariant, rfl⟩
      · exact ⟨s, by simp only [JournalSystem.step, hOutstanding], h, rfl⟩
  | deliver =>
      rcases hOutstanding : s.outstanding with _ | last | notifications
      · exact ⟨s, by simp only [JournalSystem.step, hOutstanding], h, rfl⟩
      · exact ⟨s, by simp only [JournalSystem.step, hOutstanding], h, rfl⟩
      · have hFits := h.message
        simp only [MessageFits, hOutstanding] at hFits
        obtain ⟨client, events, hProcessed, hInvariant⟩ := h.deliver (by omega) hFits
        exact ⟨_, by simp only [JournalSystem.step, hOutstanding, hProcessed, Outcome.ok_bind]; rfl,
          hInvariant, rfl⟩

theorem changeCount_cons (action : Action) (rest : List Action) :
    changeCount (action :: rest) = changeCount [action] + changeCount rest := by
  rw [changeCount, ← List.singleton_append, List.countP_append]
  rfl

theorem run_cons {action : Action} {middle : JournalSystem} (h : s.step action = .ok middle)
    (rest : List Action) : s.run (action :: rest) = middle.run rest := by
  rw [run, h, Outcome.ok_bind]

/-- A run succeeds and keeps the invariant while the numbers have room. -/
theorem Invariant.run {actions : List Action} (h : s.Invariant) (hLabelled : Labelled actions)
    (hSmall : s.history.length + changeCount actions ≤ 2 ^ 64 - 1) :
    ∃ after, s.run actions = .ok after ∧ after.Invariant := by
  induction actions generalizing s with
  | nil => exact ⟨s, rfl, h⟩
  | cons action rest ih =>
      rw [changeCount_cons] at hSmall
      have hFirst : Labelled [action] := fun label node hMem =>
        hLabelled label node (List.mem_cons.mpr (.inl (List.mem_singleton.mp hMem)))
      obtain ⟨middle, hStep, hInvariant, hLength⟩ := h.step hFirst (by omega)
      obtain ⟨after, hRun, hAfter⟩ := ih hInvariant
        (fun label node hMem => hLabelled label node (List.mem_cons_of_mem _ hMem)) (by omega)
      exact ⟨after, by rw [run_cons hStep, hRun], hAfter⟩

/-- In a run with fewer than `2 ^ 64 - 1` changes, in any interleaving with the polls,
the client applies every notification once and in order, or asks for the page tree
before it advances. -/
theorem run_faithful (maxJournalSize : ℕ) (actions : List Action) (hMax : 1 ≤ maxJournalSize)
    (hLabelled : Labelled actions) (hCount : changeCount actions < 2 ^ 64 - 1) :
    ∃ s, (create maxJournalSize).run actions = .ok s ∧ s.Faithful := by
  have hStart : (create maxJournalSize).history.length = 1 := rfl
  obtain ⟨s, hRun, hInvariant⟩ := (Invariant.create hMax).run hLabelled (by omega)
  exact ⟨s, hRun, hInvariant.faithful⟩

theorem run_faithful_trimmed :
    ∃ s, (create 1).run [.poll, .serve, .change (str "A") none, .deliver, .change (str "A/B") none,
      .poll, .serve, .deliver] = .ok s ∧ s.Faithful :=
  run_faithful 1 _ (Nat.le_refl 1)
    (by
      intro label node hMem hEmpty
      subst hEmpty
      revert hMem
      simp [str])
    (by decide)

theorem run_append (s : JournalSystem) (first second : List Action) :
    s.run (first ++ second) = s.run first >>= fun middle => middle.run second := by
  induction first generalizing s with
  | nil => rfl
  | cons action rest ih =>
      rw [List.cons_append, run, run, bind_assoc]
      exact bind_congr fun middle => ih middle

/-- A server that keeps two notifications, after deletions of `A` alone. -/
theorem run_deletions (s : JournalSystem) (count more : ℕ)
    (hServer : s.server =
      ⟨[⟨.ofNat count, str "A", none⟩, ⟨.ofNat (count + 1), str "A", none⟩], 2⟩) :
    ∃ history, s.run (List.replicate more (.change (str "A") none)) = .ok { s with
      server := ⟨[⟨.ofNat (count + more), str "A", none⟩,
        ⟨.ofNat (count + more + 1), str "A", none⟩], 2⟩
      history } := by
  induction more generalizing s count with
  | zero => exact ⟨s.history, by rw [Nat.add_zero, ← hServer]; rfl⟩
  | succ more ih =>
      have hNext : s.server.nextNotification (str "A") none = ⟨.ofNat (count + 1 + 1), str "A", none⟩ := by
        rw [hServer, UInt64.ofNat_add (count + 1)]
        rfl
      have hTrimmed : s.server.journalCallback (str "A") none =
          ⟨[⟨.ofNat (count + 1), str "A", none⟩, ⟨.ofNat (count + 1 + 1), str "A", none⟩], 2⟩ := by
        rw [Http3ServerRoute.journalCallback, hNext, hServer]
        rfl
      obtain ⟨history, hRun⟩ := ih { s with
        server := s.server.journalCallback (str "A") none
        history := s.history ++ [s.server.nextNotification (str "A") none] } (count + 1) hTrimmed
      refine ⟨history, ?_⟩
      rw [List.replicate_succ, run, JournalSystem.step, Outcome.ok_bind, hRun,
        Nat.add_right_comm count 1 more, Nat.add_assoc count more 1]

/-- `A` is deleted `2 ^ 64 - 2` times before the client's first poll, and once more
before its second and third. -/
def overflowRun : List Action :=
  .change (str "A") none :: .change (str "A") none ::
    (List.replicate (2 ^ 64 - 4) (.change (str "A") none) ++
      [.poll, .serve, .deliver, .change (str "A") none,
        .poll, .serve, .deliver, .poll, .serve, .deliver])

theorem overflowRun_labelled : Labelled overflowRun := by
  intro label node hMem
  have hA : Action.change label node = .change (str "A") none := by
    simpa only [overflowRun, List.mem_cons, List.mem_append, List.mem_replicate, reduceCtorEq,
      List.not_mem_nil, false_or, or_false, or_self_left, or_self, or_assoc, ne_eq,
      show ¬(2 ^ 64 - 4 = 0) by omega, not_false_eq_true, true_and] using hMem
  obtain ⟨rfl, -⟩ := Action.change.inj hA
  simp [str]

/-- The notification numbered `2 ^ 64 - 1` reads as unsolicited, so the client never
gets past it and applies it at every poll. -/
theorem overflowRun_not_faithful :
    Labelled overflowRun ∧ ∃ s, (create 2).run overflowRun = .ok s ∧
      s.deliveries.flatMap Delivery.appliedNumbers = [unsolicited, unsolicited] ∧ ¬ s.Faithful := by
  refine ⟨overflowRun_labelled, ?_⟩
  let second : JournalSystem := { create 2 with
    server := ⟨[⟨.ofNat 1, str "A", none⟩, ⟨.ofNat (1 + 1), str "A", none⟩], 2⟩
    history := [⟨0, [], none⟩, ⟨1, str "A", none⟩, ⟨2, str "A", none⟩] }
  obtain ⟨history, hDeletions⟩ := run_deletions second 1 (2 ^ 64 - 4) rfl
  let polled : JournalSystem := { second with
    server := ⟨[⟨.ofNat (1 + (2 ^ 64 - 4)), str "A", none⟩,
      ⟨.ofNat (1 + (2 ^ 64 - 4) + 1), str "A", none⟩], 2⟩
    history }
  obtain ⟨s, hTail, hApplied⟩ : ∃ s, polled.run [.poll, .serve, .deliver, .change (str "A") none,
      .poll, .serve, .deliver, .poll, .serve, .deliver] = .ok s ∧
      s.deliveries.flatMap Delivery.appliedNumbers = [unsolicited, unsolicited] :=
    ⟨_, rfl, rfl⟩
  refine ⟨s, ?_, hApplied, ?_⟩
  · have hFirst : (create 2).step (.change (str "A") none) = .ok { create 2 with
        server := ⟨[⟨0, [], none⟩, ⟨1, str "A", none⟩], 2⟩
        history := [⟨0, [], none⟩, ⟨1, str "A", none⟩] } := rfl
    have hSecond : JournalSystem.step { create 2 with
        server := ⟨[⟨0, [], none⟩, ⟨1, str "A", none⟩], 2⟩
        history := [⟨0, [], none⟩, ⟨1, str "A", none⟩] } (.change (str "A") none) = .ok second := rfl
    rw [overflowRun, run_cons hFirst, run_cons hSecond, run_append, hDeletions]
    exact hTail
  · intro hFaithful
    have hIncreasing := hFaithful.2
    rw [hApplied] at hIncreasing
    simp at hIncreasing

end JournalSystem
end Wwatp
