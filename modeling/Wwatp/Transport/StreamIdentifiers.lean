import Wwatp.Transport.StreamTables

/-! The identifiers that a client gives to its streams: the even values of a 16-bit counter,
skipping those that have a return path. No return path is ever erased. -/
namespace Wwatp

open Cxx

/-- The part of `QuicConnector` that identifiers come from. -/
structure QuicConnector where
  tables : StreamTables := {}
  streamIdCounter : UInt16 := 2
  staticRequests : Request → Option StreamIdentifier := fun _ => none

namespace QuicConnector

/-- The loop over identifiers in use, with the counter after it; `none` if it takes more
rounds than the first argument. -/
def nextUnused (t : StreamTables) (cid : Str) : ℕ → UInt16 → Option (StreamIdentifier × UInt16)
  | 0, _ => none
  | fuel + 1, counter =>
    if (t.returnPaths ⟨cid, counter⟩).isSome then nextUnused t cid fuel (counter + 2)
    else some (⟨cid, counter⟩, counter + 2)

/-- `getNewRequestStreamIdentifier` on the connection `cid`. -/
def getNewRequestStreamIdentifier (fuel : ℕ) (cid : Str) (req : Request) (c : QuicConnector) :
    Option (StreamIdentifier × QuicConnector) :=
  match if req.isWWATP then none else c.staticRequests req with
  | some stream => some (stream, c)
  | none => do
    let (stream, counter) ← nextUnused c.tables cid fuel c.streamIdCounter
    return (stream, {
      tables := c.tables.insertReturnPath stream req
      streamIdCounter := counter
      staticRequests := if req.isWWATP then c.staticRequests
        else Function.update c.staticRequests req (some stream) })

theorem nextUnused_ok {t : StreamTables} {cid : Str} {fuel : ℕ} {counter counter' : UInt16}
    {stream : StreamIdentifier} (h : nextUnused t cid fuel counter = some (stream, counter')) :
    t.returnPaths stream = none := by
  induction fuel generalizing counter with
  | zero => cases h
  | succ fuel ih =>
    rw [nextUnused] at h
    split_ifs at h with hUsed
    · exact ih h
    · obtain ⟨rfl, -⟩ := Prod.mk.inj (Option.some.inj h)
      exact Option.not_isSome_iff_eq_none.mp hUsed

/-- The identifier is that of an older request for the same static URL, or has no return path
yet and gets one. -/
theorem getNewRequestStreamIdentifier_ok {fuel : ℕ} {cid : Str} {req : Request} {c c' : QuicConnector}
    {stream : StreamIdentifier} (h : getNewRequestStreamIdentifier fuel cid req c = some (stream, c')) :
    (c' = c ∧ req.isWWATP = false ∧ c.staticRequests req = some stream) ∨
      (c.tables.returnPaths stream = none ∧ c'.tables = c.tables.insertReturnPath stream req ∧
        ∀ other known, c'.staticRequests other = some known →
          known = stream ∨ c.staticRequests other = some known) := by
  rw [getNewRequestStreamIdentifier] at h
  split at h
  next known hKnown =>
    obtain ⟨rfl, rfl⟩ := Prod.mk.inj (Option.some.inj h)
    rw [Option.ite_none_left_eq_some] at hKnown
    exact .inl ⟨rfl, Bool.eq_false_iff.mpr hKnown.1, hKnown.2⟩
  · obtain ⟨⟨found, counter⟩, hNext, h⟩ := Option.bind_eq_some_iff.mp h
    obtain ⟨rfl, rfl⟩ := Prod.mk.inj (Option.some.inj h)
    refine .inr ⟨nextUnused_ok hNext, rfl, fun other known hKnown => ?_⟩
    dsimp only at hKnown
    split_ifs at hKnown
    · exact .inr hKnown
    · rw [Function.update_apply] at hKnown
      split_ifs at hKnown
      · exact .inl (Option.some.inj hKnown).symm
      · exact .inr hKnown

/-- The cleanup of a closed stream, which keeps its identifier. -/
def cleanup (c : QuicConnector) (stream : StreamIdentifier) : QuicConnector :=
  { c with tables := c.tables.cleanup stream }

/-- Once every even identifier has a return path, a new one is looked for without end. -/
theorem getNewRequestStreamIdentifier_diverges {c : QuicConnector} {cid : Str} {req : Request}
    (hWwatp : req.isWWATP) (hCounter : c.streamIdCounter.toNat % 2 = 0)
    (hUsed : ∀ id : UInt16, id.toNat % 2 = 0 → (c.tables.returnPaths ⟨cid, id⟩).isSome) (fuel : ℕ) :
    getNewRequestStreamIdentifier fuel cid req c = none := by
  have hLoop : ∀ counter : UInt16, counter.toNat % 2 = 0 →
      nextUnused c.tables cid fuel counter = none := by
    induction fuel with
    | zero => exact fun _ _ => rfl
    | succ fuel ih =>
      intro counter hEven
      rw [nextUnused, if_pos (hUsed counter hEven)]
      refine ih _ ?_
      have hTwo : (2 : UInt16).toNat = 2 := rfl
      rw [UInt16.toNat_add, hTwo]
      omega
  rw [getNewRequestStreamIdentifier, if_pos hWwatp]
  dsimp only
  rw [hLoop _ hCounter]
  rfl

end QuicConnector

/-- A request for the tree protocol. -/
abbrev WwatpRequest := { req : Request // req.isWWATP = true }

/-- What happens on one connection: a stream is asked for, or one is closed. -/
inductive StreamEvent
  | request (req : WwatpRequest)
  | close (stream : StreamIdentifier)

namespace StreamEvent

def isRequest : StreamEvent → Bool
  | request _ => true
  | close _ => false

/-- Every request of the history is given a stream with a logical id other than zero that
is none of those given and not closed since. -/
def Served (cid : Str) : QuicConnector → List StreamIdentifier → List StreamEvent → Prop
  | _, _, [] => True
  | c, given, request req :: rest => ∃ fuel stream c',
    QuicConnector.getNewRequestStreamIdentifier fuel cid req.val c = some (stream, c') ∧
      stream.logicalId ≠ 0 ∧ stream ∉ given ∧ Served cid c' (stream :: given) rest
  | c, given, close stream :: rest =>
    Served cid (c.cleanup stream) (given.filter (· ≠ stream)) rest

/-- After `k` requests the identifiers with a return path are the first `k` even ones. -/
structure Handed (cid : Str) (c : QuicConnector) (given : List StreamIdentifier) (k : ℕ) : Prop where
  bound : k ≤ 32767
  counter : c.streamIdCounter.toNat = (2 + 2 * k) % 2 ^ 16
  used : ∀ id : UInt16, (c.tables.returnPaths ⟨cid, id⟩).isSome ↔ ∃ j < k, id.toNat = 2 + 2 * j
  given : ∀ stream ∈ given, (c.tables.returnPaths stream).isSome

variable {cid : Str} {c : QuicConnector} {given : List StreamIdentifier} {k : ℕ}

theorem handed_new (cid : Str) : Handed cid {} [] 0 where
  bound := Nat.zero_le _
  counter := rfl
  used _ := iff_of_false Bool.false_ne_true fun ⟨_, hNone, _⟩ => absurd hNone (Nat.not_lt_zero _)
  given _ hStream := absurd hStream List.not_mem_nil

theorem Handed.cleanup (h : Handed cid c given k) (stream : StreamIdentifier) :
    Handed cid (c.cleanup stream) (given.filter (· ≠ stream)) k where
  bound := h.bound
  counter := h.counter
  used := h.used
  given other hOther := h.given other (List.mem_filter.mp hOther).1

/-- The value of the counter has no return path yet. -/
theorem Handed.counter_unused (h : Handed cid c given k) :
    (c.tables.returnPaths ⟨cid, c.streamIdCounter⟩).isSome = false := by
  rw [Bool.eq_false_iff]
  intro hUsed
  obtain ⟨j, hj, hEq⟩ := (h.used _).mp hUsed
  have hCounter := h.counter
  have hBound := h.bound
  omega

theorem Handed.getNew (h : Handed cid c given k) (req : WwatpRequest) (fuel : ℕ) :
    QuicConnector.getNewRequestStreamIdentifier (fuel + 1) cid req.val c =
      some (⟨cid, c.streamIdCounter⟩, { c with
        tables := c.tables.insertReturnPath ⟨cid, c.streamIdCounter⟩ req.val
        streamIdCounter := c.streamIdCounter + 2 }) := by
  rw [QuicConnector.getNewRequestStreamIdentifier, if_pos req.property, QuicConnector.nextUnused,
    if_neg (by rw [h.counter_unused]; exact Bool.false_ne_true)]
  simp only [Option.bind_eq_bind, Option.bind_some, Option.pure_def, if_pos req.property]

theorem Handed.next (h : Handed cid c given k) (hMore : k < 32767) (req : Request) :
    Handed cid { c with
      tables := c.tables.insertReturnPath ⟨cid, c.streamIdCounter⟩ req
      streamIdCounter := c.streamIdCounter + 2 } (⟨cid, c.streamIdCounter⟩ :: given) (k + 1) where
  bound := hMore
  counter := by
    have hTwo : (2 : UInt16).toNat = 2 := rfl
    rw [UInt16.toNat_add, h.counter, hTwo]
    omega
  used id := by
    have hCounter := h.counter
    dsimp only [StreamTables.insertReturnPath]
    by_cases hId : id = c.streamIdCounter
    · subst hId
      rw [Function.update_self, Option.isSome_or, Option.isSome_some, Bool.or_true]
      exact iff_of_true rfl ⟨k, Nat.lt_succ_self k, by omega⟩
    · have hOther : (⟨cid, id⟩ : StreamIdentifier) ≠ ⟨cid, c.streamIdCounter⟩ :=
        fun hEq => hId (StreamIdentifier.mk.inj hEq).2
      rw [Function.update_of_ne hOther, h.used]
      have hValue : id.toNat ≠ c.streamIdCounter.toNat := fun hEq => hId (UInt16.toNat_inj.mp hEq)
      constructor
      · rintro ⟨j, hj, hEq⟩
        exact ⟨j, Nat.lt_succ_of_lt hj, hEq⟩
      · rintro ⟨j, hj, hEq⟩
        exact ⟨j, by omega, hEq⟩
  given stream hStream := by
    dsimp only [StreamTables.insertReturnPath]
    by_cases hCurrent : stream = ⟨cid, c.streamIdCounter⟩
    · subst hCurrent
      rw [Function.update_self, Option.isSome_or, Option.isSome_some, Bool.or_true]
    · rw [Function.update_of_ne hCurrent]
      exact h.given stream ((List.mem_cons.mp hStream).resolve_left hCurrent)

/-- The 32768th identifier is zero. -/
theorem Handed.served_iff_count (h : Handed cid c given k) (history : List StreamEvent) :
    Served cid c given history ↔ k + history.countP isRequest ≤ 32767 := by
  induction history generalizing c given k with
  | nil => exact iff_of_true trivial h.bound
  | cons event rest ih =>
    cases event with
    | close stream =>
      rw [Served, ih (h.cleanup stream), List.countP_cons_of_neg (by exact Bool.false_ne_true)]
    | request req =>
      have hCounter := h.counter
      rw [Served, List.countP_cons_of_pos rfl]
      constructor
      · rintro ⟨fuel, stream, c', hNew, hId, -, hRest⟩
        cases fuel with
        | zero =>
          rw [QuicConnector.getNewRequestStreamIdentifier, if_pos req.property] at hNew
          cases hNew
        | succ fuel =>
          rw [h.getNew req fuel] at hNew
          obtain ⟨rfl, rfl⟩ := Prod.mk.inj (Option.some.inj hNew)
          have hMore : k < 32767 := by
            by_contra hLast
            have hBound := h.bound
            refine hId (UInt16.toNat_inj.mp ?_)
            rw [hCounter, show (0 : UInt16).toNat = 0 from rfl]
            omega
          have hCount := (ih (h.next hMore req.val)).mp hRest
          omega
      · intro hCount
        have hMore : k < 32767 := by omega
        refine ⟨1, _, _, h.getNew req 0, fun hZero => ?_, fun hGiven => ?_, ?_⟩
        · have hValue := congrArg UInt16.toNat hZero
          rw [hCounter, show (0 : UInt16).toNat = 0 from rfl] at hValue
          omega
        · have hUsed := h.given _ hGiven
          rw [h.counter_unused] at hUsed
          cases hUsed
        · exact (ih (h.next hMore req.val)).mpr (by omega)

/-- Every call of a history on one connection ends with an unused identifier other than zero
exactly if there are no more than 32767 of them, however many streams are closed. -/
theorem served_iff (cid : Str) (history : List StreamEvent) :
    Served cid {} [] history ↔ history.countP isRequest ≤ 32767 := by
  rw [(handed_new cid).served_iff_count history, Nat.zero_add]

/-- A request of the tree protocol. -/
def treeRequest : WwatpRequest :=
  ⟨⟨str "https", str "localhost", str "/wwatp/", str "GET", 3, 0⟩, by decide +kernel⟩

/-- One after another, each closed before the next, 32768 streams are too many. -/
theorem not_served_closed : ¬Served [] {} [] ((List.range 32768).flatMap fun i =>
    [request treeRequest, close ⟨[], .ofNat (2 + 2 * i)⟩]) := by
  have hCount : ∀ l : List ℕ, (l.flatMap fun i =>
      [request treeRequest, close ⟨[], .ofNat (2 + 2 * i)⟩]).countP isRequest = l.length := by
    intro l
    induction l with
    | nil => rfl
    | cons i l ih =>
      rw [List.flatMap_cons, List.countP_append, ih, List.length_cons, Nat.add_comm]
      rfl
  rw [(handed_new []).served_iff_count, hCount, List.length_range]
  decide

end StreamEvent

end Wwatp
