import Wwatp.Cxx.Transitions
import Wwatp.Server.Batching

/-! The journal of a route in use: what registrations, requests, and changes of the backend
in any order leave of it. -/
namespace Wwatp

open Cxx Cxx.Effectful

namespace Http3ServerRoute

/-- The journal after some changes have been reported to the callback. -/
def journalAll (route : Http3ServerRoute) (changes : List (Str × Option TreeNode)) : Http3ServerRoute :=
  changes.foldl (fun journal change => journal.journalCallback change.1 change.2) route

/-- `journal_.rbegin()->first` -/
def latestNumber (route : Http3ServerRoute) : Option UInt64 :=
  route.journal.getLast?.map SequentialNotification.number

/-- What holds of a journal to which `count` changes have been added since it was made. -/
structure Sound (route : Http3ServerRoute) (maxJournalSize count : ℕ) : Prop where
  size : route.maxJournalSize = maxJournalSize
  nonempty : route.journal ≠ []
  bounded : route.journal.length ≤ max 1 maxJournalSize
  consecutive : route.journal.IsChain fun earlier later => later.number = earlier.number + 1
  latest : route.latestNumber = some (.ofNat count)

theorem Sound.create (maxJournalSize : ℕ) : (create maxJournalSize).Sound maxJournalSize 0 where
  size := rfl
  nonempty := by simp [Http3ServerRoute.create]
  bounded := Nat.le_max_left _ _
  consecutive := List.isChain_singleton _
  latest := rfl

variable {route : Http3ServerRoute} {maxJournalSize count : ℕ}

/-- A journaled change follows the latest one, whether or not the oldest makes room. -/
theorem Sound.journalCallback (h : route.Sound maxJournalSize count) (label : Str)
    (node : Option TreeNode) : (route.journalCallback label node).Sound maxJournalSize (count + 1) := by
  obtain ⟨latest, hLatest, hNumber⟩ := Option.map_eq_some_iff.mp h.latest
  have hNext : (route.nextNotification label node).number = latest.number + 1 := by
    simp only [nextNotification, hLatest]
  have hChain : (route.journal ++ [route.nextNotification label node]).IsChain
      fun earlier later => later.number = earlier.number + 1 := by
    apply h.consecutive.append (List.isChain_singleton _)
    intro earlier hEarlier later hLater
    obtain rfl := Option.some.inj (hLatest.symm.trans hEarlier)
    obtain rfl := Option.some.inj hLater
    exact hNext
  have hLength : (route.journal ++ [route.nextNotification label node]).length ≤ max 1 maxJournalSize + 1 := by
    rw [List.length_append, List.length_singleton]
    exact Nat.succ_le_succ h.bounded
  have hLast : ∀ kept : List SequentialNotification, kept ≠ [] →
      kept <:+ route.journal ++ [route.nextNotification label node] →
        kept.getLast?.map SequentialNotification.number = some (.ofNat (count + 1)) := by
    rintro kept hKept ⟨dropped, hSplit⟩
    have hSame : kept.getLast? = some (route.nextNotification label node) := by
      rw [← List.getLast?_append_of_ne_nil dropped hKept, hSplit, List.getLast?_concat]
    rw [hSame, Option.map_some, hNext, hNumber, UInt64.ofNat_add]
    rfl
  have hPositive : 0 < route.journal.length := List.length_pos_iff.mpr h.nonempty
  unfold Http3ServerRoute.journalCallback
  rw [h.size]
  dsimp only
  split_ifs with hFull
  · have hSome : (route.journal ++ [route.nextNotification label node]).drop 1 ≠ [] := by
      rw [ne_eq, List.drop_eq_nil_iff, List.length_append, List.length_singleton]
      omega
    exact {
      size := rfl
      nonempty := hSome
      bounded := by rw [List.length_drop]; omega
      consecutive := hChain.drop 1
      latest := hLast _ hSome (List.drop_suffix _ _) }
  · exact {
      size := rfl
      nonempty := by simp
      bounded := Nat.le_trans (Nat.le_of_not_gt hFull) (Nat.le_max_right _ _)
      consecutive := hChain
      latest := hLast _ (by simp) List.suffix_rfl }

theorem Sound.journalAll (h : route.Sound maxJournalSize count) (changes : List (Str × Option TreeNode)) :
    (route.journalAll changes).Sound maxJournalSize (count + changes.length) := by
  induction changes generalizing route count with
  | nil => exact h
  | cons change changes ih =>
      rw [List.length_cons, ← Nat.add_assoc, Nat.add_right_comm]
      exact ih (h.journalCallback change.1 change.2)

theorem journalAll_append (route : Http3ServerRoute) (changes more : List (Str × Option TreeNode)) :
    route.journalAll (changes ++ more) = (route.journalAll changes).journalAll more :=
  List.foldl_append

/-- The journal is another one with some changes added. -/
def Extends (start route : Http3ServerRoute) : Prop := ∃ more, route = start.journalAll more

theorem Extends.refl (start : Http3ServerRoute) : start.Extends start := ⟨[], rfl⟩

theorem Extends.journalAll {start : Http3ServerRoute} (h : start.Extends route)
    (changes : List (Str × Option TreeNode)) : start.Extends (route.journalAll changes) := by
  obtain ⟨more, rfl⟩ := h
  exact ⟨more ++ changes, (journalAll_append start more changes).symm⟩

end Http3ServerRoute

namespace ServerRoute

section Calls

/-! Whatever is asked of a route, and however the call ends, changes are only added. -/

variable {σ α : Type} (B : Backend σ) (start : Http3ServerRoute)

/-- The journal of a route is the one at the start with changes added. -/
def Journaling (route : ServerRoute σ) : Prop := start.Extends route.journal

theorem keeps_call (c : BackendCall) (operation : σ → BackendReply σ α) :
    Keeps (Journaling start) (call c operation) :=
  fun _ h => h.journalAll _

/-- The upkeep of the mutable page asks for the page and writes it. -/
theorem keeps_maintainMutablePage_of {I : ServerRoute σ → Prop}
    (hAsk : ∀ (question : BackendCall) (answer : σ → Outcome (Option TreeNode)), Keeps I (ask question answer))
    (hUpsert : ∀ nodes, Keeps I (call (.upsertNode nodes) (B.upsertNode nodes))) (labelRule : Str) :
    Keeps I (maintainMutablePage B labelRule) := by
  refine keeps_bind (keeps_inspect _) fun _ page _ => keeps_bind (hAsk _ _) fun _ found _ => ?_
  cases found with
  | none => exact keeps_bind (hUpsert _) fun _ _ _ => keeps_pure _
  | some mutablePage =>
      refine keeps_bind (keeps_inspect _) fun _ children _ => ?_
      cases children with
      | none => exact keeps_pure _
      | some children => exact keeps_bind (hUpsert _) fun _ _ _ => keeps_pure _

theorem keeps_maintainMutablePage (labelRule : Str) :
    Keeps (Journaling start) (maintainMutablePage B labelRule) :=
  keeps_maintainMutablePage_of B (fun _ _ => keeps_call start _ _) (fun _ => keeps_call start _ _) labelRule

theorem keeps_registerListener (labelRule : Str) (childNotify : Bool) :
    Keeps (Journaling start) (registerListener B labelRule childNotify) := by
  refine keeps_bind (keeps_inspect _) fun _ adds _ => ?_
  cases adds with
  | false => exact keeps_pure _
  | true =>
      refine keeps_bind (fun _ h => h) fun _ _ _ => keeps_bind (keeps_inspect _) fun _ url _ => ?_
      exact keeps_bind (keeps_call start _ _) fun _ _ _ => keeps_maintainMutablePage B start labelRule

theorem keeps_answer (m : HTTP3TreeMessage) : Keeps (Journaling start) (answer B m) := by
  have hCall {β γ : Type} (c : BackendCall) (operation : σ → BackendReply σ β) (k : β → γ) :
      Keeps (Journaling start) (call c operation >>= fun b => Pure.pure (k b)) :=
    keeps_bind (keeps_call start c operation) fun _ _ _ => keeps_pure _
  unfold answer
  split
  case h_10 =>
    refine keeps_bind (keeps_inspect _) fun _ listener _ => keeps_bind (keeps_inspect _) fun _ flag _ => ?_
    exact keeps_bind (keeps_registerListener B start _ _) fun _ _ _ => keeps_pure _
  case h_11 => exact keeps_bind (keeps_inspect _) fun _ _ _ => keeps_pure _
  case h_14 =>
    exact keeps_bind (keeps_inspect _) fun _ _ _ => keeps_bind (keeps_inspect _) fun _ _ _ => keeps_pure _
  case h_15 => exact keeps_raise _
  all_goals
    first
    | exact keeps_bind (keeps_inspect _) fun _ _ _ => hCall _ _ _
    | exact hCall _ _ _

/-- The same of the route a message is served on. -/
def JournalingOn {μ : Type} (s : ServerRoute σ × μ) : Prop := Journaling start s.1

theorem keeps_buildResponseChunks : Keeps (JournalingOn start) (buildResponseChunks B) := by
  refine keeps_bind (fun s h => keeps_answer B start s.2 s.1 h) fun _ response _ => ?_
  exact keeps_bind (fun _ h => h) fun _ _ _ => keeps_bind (keeps_inspect _) fun _ _ _ _ h => h

theorem keeps_serve (request : List SharedSpan) : Keeps (JournalingOn start) (serve B request) := by
  have hTake : Keeps (JournalingOn start) (takeResponse (ρ := ServerRoute σ)) := fun _ h => h
  refine keeps_bind (keeps_forEach fun chunk _ => ?_) fun _ _ _ =>
    keeps_bind (keeps_inspect _) fun _ m _ => ?_
  · refine keeps_bind (keeps_inspect _) fun _ heartbeat _ => ?_
    cases heartbeat with
    | true => exact keeps_pure _
    | false => exact keeps_bind (keeps_inspect _) fun _ _ _ _ h => h
  · split_ifs
    · exact keeps_pure _
    · exact keeps_bind (keeps_buildResponseChunks B start) fun _ _ _ => hTake
    · exact hTake

/-- The same of all streams of a route. -/
def JournalingStreams (s : RouteStreams σ) : Prop := Journaling start s.route

theorem keeps_processResponseStream (stream : StreamIdentifier) (request : List SharedSpan) :
    Keeps (JournalingStreams start) (processResponseStream B stream request) := by
  have hContinue (m : HTTP3TreeMessage) :
      Keeps (JournalingStreams start) (continueStream B stream request m) := by
    intro s h
    unfold continueStream
    split
    · split
      · exact h
      · dsimp only
        split_ifs
        · exact h
        · exact h
    · exact keeps_serve B start request (s.route, m) h
  intro s h
  unfold processResponseStream
  split
  · exact hContinue _ s h
  · split
    · exact h
    · split
      · exact h
      · exact hContinue _ _ h

end Calls

section Runs

variable {σ : Type}

/-- What happens to a route: a stream is processed, or its backend changes by another hand
and reports some of it to the route's callback. -/
inductive RouteAction (σ : Type)
  | process (stream : StreamIdentifier) (request : List SharedSpan)
  | change (backend : σ) (reported : List (Str × Option TreeNode))

def journalStep (B : Backend σ) (s : RouteStreams σ) : RouteAction σ → Option (RouteStreams σ)
  | .process stream request => some (processResponseStream B stream request s).2
  | .change backend reported => some { s with
      route := { s.route with backend := backend, journal := s.route.journal.journalAll reported } }

/-- A route as it is constructed. -/
def freshStreams (backend : σ) (maxJournalSize : ℕ) (url mutablePageLabelRule : Str) : RouteStreams σ where
  route := .create backend maxJournalSize url mutablePageLabelRule
  ongoingResponses _ := none

theorem extends_of_reaches {B : Backend σ} {s t : RouteStreams σ}
    (h : Reaches (journalStep B) anyStep s t) : s.route.journal.Extends t.route.journal := by
  apply h.invariant (P := fun t => s.route.journal.Extends t.route.journal) (.refl _)
  intro t action u hExtends _ hStep
  cases action with
  | process stream request =>
      obtain rfl := Option.some.inj hStep
      exact keeps_processResponseStream B s.route.journal stream request t hExtends
  | change backend reported =>
      obtain rfl := Option.some.inj hStep
      exact hExtends.journalAll reported

/-- The journal of a route in use. It is never empty, stays within its size, and numbers the
changes one after another, as a 64-bit number does; the latest number is the number of changes
so far, so that for fewer than `2 ^ 64` changes it only grows. -/
theorem journal_of_reaches {B : Backend σ} {backend : σ} {maxJournalSize : ℕ} {url page : Str}
    {s : RouteStreams σ}
    (hReached : Reaches (journalStep B) anyStep (freshStreams backend maxJournalSize url page) s) :
    ∃ changes, s.route.journal = (Http3ServerRoute.create maxJournalSize).journalAll changes ∧
      s.route.journal.Sound maxJournalSize changes.length ∧
      ∀ t, Reaches (journalStep B) anyStep s t → ∃ more, t.route.journal = s.route.journal.journalAll more ∧
        (changes.length + more.length < 2 ^ 64 → ∃ earlier later,
          s.route.journal.latestNumber = some earlier ∧ t.route.journal.latestNumber = some later ∧
            earlier.toNat = changes.length ∧ later.toNat = earlier.toNat + more.length) := by
  obtain ⟨changes, hChanges⟩ := extends_of_reaches hReached
  change s.route.journal = (Http3ServerRoute.create maxJournalSize).journalAll changes at hChanges
  have hSound : s.route.journal.Sound maxJournalSize changes.length := by
    have hAll := (Http3ServerRoute.Sound.create maxJournalSize).journalAll changes
    rwa [Nat.zero_add, ← hChanges] at hAll
  refine ⟨changes, hChanges, hSound, fun t hMore => ?_⟩
  obtain ⟨more, hExtended⟩ := extends_of_reaches hMore
  have hLatest : t.route.journal.latestNumber = some (.ofNat (changes.length + more.length)) := by
    rw [hExtended]
    exact (hSound.journalAll more).latest
  have hToNat (count : ℕ) (hCount : count < 2 ^ 64) : (UInt64.ofNat count).toNat = count := by
    rw [UInt64.toNat_ofNat', Nat.mod_eq_of_lt hCount]
  refine ⟨more, hExtended, fun hSmall => ⟨_, _, hSound.latest, hLatest, hToNat _ (by omega), ?_⟩⟩
  rw [hToNat _ hSmall, hToNat _ (by omega)]

/-- A deletion of `A` is reported to a route that keeps one change at most. -/
theorem journal_of_reaches_deletion : ∃ s,
    journalStep emptyBackend (freshStreams () 0 [] []) (.change () [(str "A", none)]) = some s ∧
      s.route.journal.journal.length ≤ max 1 0 := by
  have hStep : journalStep emptyBackend (freshStreams () 0 [] []) (.change () [(str "A", none)]) =
      some _ := rfl
  obtain ⟨_, -, hSound, -⟩ := journal_of_reaches (.single trivial hStep)
  exact ⟨_, hStep, hSound.bounded⟩

/-- The change after number `2 ^ 64 - 1` is numbered 0. -/
theorem latestNumber_restarts : ∃ s t : RouteStreams Unit,
    Reaches (journalStep emptyBackend) anyStep (freshStreams () 10 [] []) s ∧
      Reaches (journalStep emptyBackend) anyStep s t ∧
      ∃ earlier later, s.route.journal.latestNumber = some earlier ∧
        t.route.journal.latestNumber = some later ∧ later < earlier := by
  obtain ⟨changes, hLength⟩ : ∃ changes : List (Str × Option TreeNode), changes.length = 2 ^ 64 - 1 :=
    ⟨List.replicate (2 ^ 64 - 1) (str "A", none), List.length_replicate⟩
  have hMany : journalStep emptyBackend (freshStreams () 10 [] []) (.change () changes) = some _ := rfl
  have hOne (s : RouteStreams Unit) :
      journalStep emptyBackend s (.change () [(str "A", none)]) = some _ := rfl
  have hSound := (Http3ServerRoute.Sound.create 10).journalAll changes
  have hNext := hSound.journalCallback (str "A") none
  rw [hLength] at hSound hNext
  refine ⟨_, _, .single trivial hMany, .single trivial (hOne _), _, _, hSound.latest, hNext.latest, ?_⟩
  rw [UInt64.lt_iff_toNat_lt, UInt64.toNat_ofNat', UInt64.toNat_ofNat']
  norm_num

end Runs

end ServerRoute

end Wwatp
