import Wwatp.Server.StaticAssets
import Wwatp.Transport.OutgoingQueues

/-! Sending a static asset. The length announced for a stream counts the bytes of the file, and every read takes off the
bytes of the chunks it sends with their headers, which are never sent. -/
namespace Wwatp

open Cxx

/-- `Stream` of the listener, as far as its response needs it. -/
structure Stream where
  cid : Str
  req : Request
  liveStream : Bool := false
  dyndataleft : ℕ := 0
  trailersSent : Bool := false

namespace StreamTables

/-- `noMoreChunks` -/
def noMoreChunks (t : StreamTables) (streams : List StreamIdentifier) : Bool :=
  streams.all fun stream => t.outgoingChunks[stream]?.isNone

/-- The loop of `planForNOutgoingChunks`, with the numbers that `rand()` returns. It uses up an identifier in each round. -/
def chooseAll (t : StreamTables) (draw : ℕ → ℕ) : ℕ → Plan → Plan
  | 0, plan => plan
  | rounds + 1, plan =>
    match plan.choose t (draw rounds) with
    | none => plan
    | some next => t.chooseAll draw rounds next

/-- `planForNOutgoingChunks`, while nothing happens to the queues that match. -/
def planForNOutgoingChunks (t : StreamTables) (dcid : Str) (n : ℕ) (req : Request) (draw : ℕ → ℕ) :
    Outcome (ℕ × List StreamIdentifier) :=
  let unused := t.matchingIdentifiers req (t.potentialIdentifiers dcid)
  match t.chooseAll draw unused.length (.choosing dcid n req unused [] n 0) with
  | .choosing _ _ _ _ used _ size => .ok (size, used)
  | _ => throw (.invalidArgument (str "Unknown signal type"))

/-- The vectors that `lock_outgoing_chunks` fills. -/
def lockChunks : List SharedSpan → Outcome (List (List UInt8))
  | [] => .ok []
  | chunk :: rest => do
    let bytes ← chunk.lockedBytes
    return bytes :: (← lockChunks rest)

/-- `lock_outgoing_chunks`: whether there is nothing more to send, and what is sent. -/
def lockOutgoingChunks (t : StreamTables) (streams : List StreamIdentifier) (veccnt : ℕ) :
    Outcome (Bool × List (List UInt8) × StreamTables) :=
  if t.noMoreChunks streams then .ok (true, [], t)
  else do
    let vec ← lockChunks (t.popNOutgoingChunks streams veccnt).2
    return (false, vec, (t.popNOutgoingChunks streams veccnt).1)

end StreamTables

/-- A call of `read_data`: the room for vectors, the congestion window, the numbers that `rand()` returns, and whether
trailers can be submitted. -/
structure Read where
  veccnt : ℕ
  cwnd : ℕ
  draw : ℕ → ℕ
  submitTrailers : Bool

/-- What `read_data` returns. -/
inductive ReadResult where
  | wouldBlock
  | callbackFailure
  | vectors (vec : List (List UInt8)) (eof : Bool)

/-- The section of `read_data` that takes the chunks. -/
def readChunks (t : StreamTables) (stream : Stream) (pending : ℕ × List StreamIdentifier) (veccnt : ℕ) :
    Outcome (Bool × List (List UInt8) × StreamTables) :=
  if pending.1 = 0 ∨ stream.dyndataleft = 0 then .ok (true, [], t)
  else t.lockOutgoingChunks pending.2 veccnt

/-- `read_data` -/
def readData (sendTrailers : Bool) (t : StreamTables) (stream : Stream) (r : Read) :
    Outcome (ReadResult × StreamTables × Stream) := do
  let pending ← t.planForNOutgoingChunks stream.cid r.veccnt stream.req r.draw
  if r.cwnd < pending.1 then return (.wouldBlock, t, stream)
  else
    let locked ← readChunks t stream pending r.veccnt
    let dyndataleft :=
      if stream.liveStream then stream.dyndataleft
      else stream.dyndataleft - min pending.1 stream.dyndataleft
    let eof := (locked.1 && (!sendTrailers || stream.trailersSent)) || locked.2.1.isEmpty
    if dyndataleft = 0 ∧ sendTrailers ∧ ¬stream.trailersSent then
      if r.submitTrailers then
        return (.vectors locked.2.1 eof, locked.2.2, { stream with dyndataleft, trailersSent := true })
      else return (.callbackFailure, locked.2.2, { stream with dyndataleft })
    else return (.vectors locked.2.1 eof, locked.2.2, { stream with dyndataleft })

section Response

variable {Route : Type}

end Response

/-- What other threads and streams do to the tables. -/
inductive Elsewhere where
  | append (stream : StreamIdentifier) (processed : List SharedSpan)
  | cleanup (stream : StreamIdentifier)
  | insertReturnPath (stream : StreamIdentifier) (req : Request)
  | pop (streams : List StreamIdentifier) (n : ℕ)

namespace Elsewhere

def run (t : StreamTables) : Elsewhere → StreamTables
  | append stream processed => t.appendOutgoing stream processed
  | cleanup stream => t.cleanup stream
  | insertReturnPath stream req => t.insertReturnPath stream req
  | pop streams n => (t.popPieces streams n).1

/-- It is about other streams, and about other requests if they are of the same connection. -/
def Apart (stream : StreamIdentifier) (req : Request) (t : StreamTables) : Elsewhere → Prop
  | append other _ => ¬SendQueues.Belongs t stream.cid req other
  | cleanup other => other ≠ stream
  | insertReturnPath other req' => ¬(other.cid = stream.cid ∧ req' = req)
  | pop streams _ => stream ∉ streams

end Elsewhere

/-- A stream while its response is sent. -/
structure Sending where
  tables : StreamTables
  stream : Stream
  sent : List UInt8 := []
  ended : Bool := false

namespace Sending

inductive Action where
  | read (r : Read)
  | elsewhere (op : Elsewhere)

/-- The library reads until the end of the data is flagged. -/
def step (sendTrailers : Bool) (s : Sending) : Action → Option Sending
  | .read r =>
    if s.ended then none
    else match readData sendTrailers s.tables s.stream r with
      | .ok (.wouldBlock, _, _) => some s
      | .ok (.vectors vec eof, tables, stream) => some ⟨tables, stream, s.sent ++ vec.flatten, eof⟩
      | _ => none
  | .elsewhere op => some { s with tables := op.run s.tables }

/-- Each read has room for the same number of vectors. -/
def Allowed (stream : StreamIdentifier) (veccnt : ℕ) (s : Sending) : Action → Prop
  | .read r => r.veccnt = veccnt
  | .elsewhere op => op.Apart stream s.stream.req s.tables

end Sending

theorem sentSizes_fileChunks {pieces : List (List UInt8)} (h : ∀ data ∈ pieces, data.length ≤ chunkPayloadSize) :
    sentSizes (pieces.map fileChunk) = .ok (pieces.flatten.length + 6 * pieces.length) := by
  induction pieces with
  | nil => rfl
  | cons data rest ih =>
      obtain ⟨hData, hRest⟩ := List.forall_mem_cons.mp h
      rw [List.map_cons, sentSizes, sentSize_fileChunk hData, Outcome.ok_bind, ih hRest, Outcome.ok_bind, Outcome.pure_eq_ok,
        List.flatten_cons, List.length_append, List.length_cons]
      congr 1
      omega

theorem lockChunks_fileChunks {pieces : List (List UInt8)} (h : ∀ data ∈ pieces, 0 < data.length ∧ data.length ≤ chunkPayloadSize) :
    StreamTables.lockChunks (pieces.map fileChunk) = .ok pieces := by
  induction pieces with
  | nil => rfl
  | cons data rest ih =>
      obtain ⟨⟨hPos, hData⟩, hRest⟩ := List.forall_mem_cons.mp h
      rw [List.map_cons, StreamTables.lockChunks, lockedBytes_fileChunk hData (List.ne_nil_of_length_pos hPos), Outcome.ok_bind,
        ih hRest]
      rfl

namespace StreamTables

variable {t : StreamTables} {stream : StreamIdentifier} {req : Request} {size n : ℕ} {draw : ℕ → ℕ}

theorem returnPaths_insertReturnPath (t : StreamTables) (stream : StreamIdentifier) (req : Request) :
    (t.insertReturnPath stream req).returnPaths = Function.update t.returnPaths stream ((t.returnPaths stream).or (some req)) :=
  rfl

/-- No other stream with chunks is for the request. -/
def Alone (t : StreamTables) (stream : StreamIdentifier) (req : Request) : Prop :=
  ∀ other ∈ t.outgoingChunks, SendQueues.Belongs t stream.cid req other → other = stream

theorem mem_matching {dcid : Str} {other : StreamIdentifier} :
    other ∈ t.matchingIdentifiers req (t.potentialIdentifiers dcid) ↔
      other ∈ t.outgoingChunks ∧ SendQueues.Belongs t dcid req other := by
  simp only [matchingIdentifiers, potentialIdentifiers, List.mem_filter, Std.ExtTreeMap.mem_keys, decide_eq_true_eq,
    SendQueues.Belongs, and_assoc]

theorem matching_of_alone (hAlone : t.Alone stream req) (hBelongs : SendQueues.Belongs t stream.cid req stream) :
    t.matchingIdentifiers req (t.potentialIdentifiers stream.cid) = if stream ∈ t.outgoingChunks then [stream] else [] := by
  split_ifs with hMem
  · have hNodup : (t.matchingIdentifiers req (t.potentialIdentifiers stream.cid)).Nodup :=
      (Std.ExtTreeMap.nodup_keys.filter _).filter _
    rw [← List.perm_singleton, List.perm_ext_iff_of_nodup hNodup (List.nodup_singleton stream)]
    intro other
    rw [mem_matching, List.mem_singleton]
    refine ⟨fun h => hAlone other h.1 h.2, ?_⟩
    rintro rfl
    exact ⟨hMem, hBelongs⟩
  · rw [List.eq_nil_iff_forall_not_mem]
    intro other hOther
    obtain ⟨hKey, hOther⟩ := mem_matching.mp hOther
    exact hMem (hAlone other hKey hOther ▸ hKey)

/-- The plan for a stream that is alone counts what is next in its queue. -/
theorem planForNOutgoingChunks_alone (hAlone : t.Alone stream req) (hBelongs : SendQueues.Belongs t stream.cid req stream)
    (hPos : 0 < n) (hSize : sentSizes ((t.outgoingChunks.queued stream).take n) = .ok size) :
    t.planForNOutgoingChunks stream.cid n req draw = .ok (size, if stream ∈ t.outgoingChunks then [stream] else []) := by
  rw [planForNOutgoingChunks, matching_of_alone hAlone hBelongs]
  split_ifs with hMem
  · have hTake : (t.outgoingChunks.queued stream).take (min n (t.outgoingChunks.queued stream).length) =
        (t.outgoingChunks.queued stream).take n := by
      rw [← List.take_take, List.take_length]
    have hChoose : Plan.choose t (draw 0) (.choosing stream.cid n req [stream] [] n 0) =
        some (.choosing stream.cid n req [] [stream] (n - min n (t.outgoingChunks.queued stream).length) size) := by
      rw [Plan.choose, if_pos hPos, List.length_singleton, Nat.mod_one]
      simp only [List.getElem?_cons_zero, hTake, hSize, Nat.zero_add]
      rfl
    simp only [List.length_singleton, chooseAll, hChoose]
  · have hEmpty : t.outgoingChunks.queued stream = [] := by
      rw [KeyedQueues.queued, Std.ExtTreeMap.getElem?_eq_none hMem]
      rfl
    rw [hEmpty, List.take_nil, sentSizes, Except.ok.injEq] at hSize
    rw [← hSize]
    rfl

theorem noMoreChunks_singleton (hMem : stream ∈ t.outgoingChunks) : t.noMoreChunks [stream] = false := by
  rw [noMoreChunks, List.all_cons, List.all_nil, Bool.and_true, Option.isNone_eq_false_iff]
  exact Std.ExtTreeMap.mem_iff_isSome_getElem?.mp hMem

theorem popNOutgoingChunks_singleton (n : ℕ) :
    (t.popNOutgoingChunks [stream] n).2 = (t.outgoingChunks.queued stream).take n := by
  have hTaken := KeyedQueues.flatMap_takeEach t.outgoingChunks (List.nodup_singleton stream) n
  rw [KeyedQueues.nextInLine, KeyedQueues.nextInLine, List.append_nil] at hTaken
  exact hTaken

theorem queued_popNOutgoingChunks (n : ℕ) : (t.popNOutgoingChunks [stream] n).1.outgoingChunks.queued stream =
    (t.outgoingChunks.queued stream).drop n :=
  KeyedQueues.queued_takeEach_singleton t.outgoingChunks stream n

theorem Alone.of_pop (h : t.Alone stream req) (streams : List StreamIdentifier) (n : ℕ) :
    (t.popPieces streams n).1.Alone stream req :=
  fun other hOther hBelongs => h other (KeyedQueues.mem_of_mem_takeEach hOther) hBelongs

end StreamTables

namespace Elsewhere

variable {t : StreamTables} {stream : StreamIdentifier} {req : Request} {op : Elsewhere}

/-- What goes on elsewhere leaves the stream as it is. -/
theorem queued_run (hApart : op.Apart stream req t) (hBelongs : SendQueues.Belongs t stream.cid req stream) :
    (op.run t).outgoingChunks.queued stream = t.outgoingChunks.queued stream := by
  cases op with
  | append other processed =>
      have hNe : stream ≠ other := by
        rintro rfl
        exact hApart hBelongs
      rw [run, StreamTables.appendOutgoing, KeyedQueues.queued_append, Function.update_of_ne hNe]
  | cleanup other => rw [run, StreamTables.cleanup, KeyedQueues.queued_erase, Function.update_of_ne (Ne.symm hApart)]
  | insertReturnPath other req' => rfl
  | pop streams n => exact KeyedQueues.queued_takeEach_of_not_mem t.outgoingChunks n hApart

theorem belongs_run (hBelongs : SendQueues.Belongs t stream.cid req stream) :
    SendQueues.Belongs (op.run t) stream.cid req stream := by
  cases op with
  | insertReturnPath other req' =>
      refine ⟨rfl, ?_⟩
      rw [run, StreamTables.returnPaths_insertReturnPath]
      by_cases hOther : stream = other
      · subst hOther
        rw [Function.update_self, hBelongs.2]
        rfl
      · rw [Function.update_of_ne hOther]
        exact hBelongs.2
  | append | cleanup | pop => exact hBelongs

theorem alone_run (hApart : op.Apart stream req t) (hAlone : t.Alone stream req) : (op.run t).Alone stream req := by
  cases op with
  | append other processed =>
      intro key hKey hBelongs
      rcases Std.ExtTreeMap.mem_insert.mp hKey with hSame | hOld
      · obtain rfl := Std.LawfulEqCmp.compare_eq_iff_eq.mp hSame
        exact absurd hBelongs hApart
      · exact hAlone key hOld hBelongs
  | cleanup other => exact fun key hKey hBelongs => hAlone key (Std.ExtTreeMap.mem_erase.mp hKey).2 hBelongs
  | insertReturnPath other req' =>
      intro key hKey hBelongs
      by_cases hOther : key = other
      · subst hOther
        obtain ⟨hCid, hPath⟩ := hBelongs
        rw [run, StreamTables.returnPaths_insertReturnPath, Function.update_self] at hPath
        cases hOld : t.returnPaths key with
        | none =>
            rw [hOld] at hPath
            exact absurd ⟨hCid, Option.some.inj hPath⟩ hApart
        | some old =>
            rw [hOld] at hPath
            exact hAlone key hKey ⟨hCid, hOld.trans hPath⟩
      · obtain ⟨hCid, hPath⟩ := hBelongs
        rw [run, StreamTables.returnPaths_insertReturnPath, Function.update_of_ne hOther] at hPath
        exact hAlone key hKey ⟨hCid, hPath⟩
  | pop streams n => exact hAlone.of_pop streams n

end Elsewhere

section ReadData

variable {sendTrailers : Bool} {t : StreamTables} {stream : Stream} {r : Read} {size : ℕ} {streams : List StreamIdentifier}

theorem readData_wouldBlock (hPlan : t.planForNOutgoingChunks stream.cid r.veccnt stream.req r.draw = .ok (size, streams))
    (hWindow : r.cwnd < size) : readData sendTrailers t stream r = .ok (.wouldBlock, t, stream) := by
  rw [readData, hPlan, Outcome.ok_bind, if_pos hWindow, Outcome.pure_eq_ok]

/-- A read that is not blocked takes the bytes of the plan off, and says that the data has ended if it has none. Only
trailers can make it fail. -/
theorem readData_vectors {locked : Bool × List (List UInt8) × StreamTables}
    (hPlan : t.planForNOutgoingChunks stream.cid r.veccnt stream.req r.draw = .ok (size, streams)) (hWindow : size ≤ r.cwnd)
    (hLocked : readChunks t stream (size, streams) r.veccnt = .ok locked) (hLive : stream.liveStream = false) :
    ∃ after : Stream, after.cid = stream.cid ∧ after.req = stream.req ∧ after.liveStream = false ∧
      after.dyndataleft = stream.dyndataleft - size ∧
      (readData sendTrailers t stream r = .ok (.vectors locked.2.1
          ((locked.1 && (!sendTrailers || stream.trailersSent)) || locked.2.1.isEmpty), locked.2.2, after) ∨
        r.submitTrailers = false ∧ readData sendTrailers t stream r = .ok (.callbackFailure, locked.2.2, after)) := by
  have hLeft : stream.dyndataleft - min size stream.dyndataleft = stream.dyndataleft - size := by omega
  let lessLeft : Stream := { stream with liveStream := false, dyndataleft := stream.dyndataleft - size }
  rw [readData, hPlan, Outcome.ok_bind, if_neg (Nat.not_lt.mpr hWindow), hLocked, Outcome.ok_bind, hLive]
  simp only [Bool.false_eq_true, ↓reduceIte, hLeft, Outcome.pure_eq_ok]
  by_cases hTrailers : stream.dyndataleft - size = 0 ∧ sendTrailers = true ∧ ¬stream.trailersSent = true
  · rw [if_pos hTrailers]
    cases hSubmit : r.submitTrailers with
    | true => exact ⟨{ lessLeft with trailersSent := true }, rfl, rfl, rfl, rfl, .inl (if_pos rfl)⟩
    | false => exact ⟨lessLeft, rfl, rfl, rfl, rfl, .inr ⟨rfl, if_neg Bool.false_ne_true⟩⟩
  · rw [if_neg hTrailers]
    exact ⟨lessLeft, rfl, rfl, rfl, rfl, .inl rfl⟩

end ReadData

namespace Sending

/-- A stream that sends a file, with `taken` of its chunks handed over. A read that took chunks had some length left. -/
structure Serving (stream : StreamIdentifier) (contents : List UInt8) (veccnt taken : ℕ) (s : Sending) : Prop where
  cid : s.stream.cid = stream.cid
  notLive : s.stream.liveStream = false
  belongs : SendQueues.Belongs s.tables stream.cid s.stream.req stream
  alone : s.tables.Alone stream s.stream.req
  queued : s.tables.outgoingChunks.queued stream = ((contents.blocks chunkPayloadSize).drop taken).map fileChunk
  sent : s.sent = contents.take (chunkPayloadSize * taken)
  left : s.stream.dyndataleft = contents.length - ((contents.take (chunkPayloadSize * taken)).length + 6 * taken)
  taken_le : taken ≤ (contents.blocks chunkPayloadSize).length
  stops : taken = 0 ∨ ∃ k, veccnt * k < (contents.blocks chunkPayloadSize).length ∧ chunkSize * (veccnt * k) < contents.length ∧
    taken = min (veccnt * (k + 1)) (contents.blocks chunkPayloadSize).length
  ended : s.ended = true → taken = (contents.blocks chunkPayloadSize).length ∨ s.stream.dyndataleft = 0

namespace Serving

variable {stream : StreamIdentifier} {contents : List UInt8} {veccnt taken : ℕ} {s t : Sending} {sendTrailers : Bool}

theorem lt_length_of_lt {count : ℕ} (h : count < (contents.blocks chunkPayloadSize).length) :
    chunkPayloadSize * count < contents.length := by
  rw [List.blocks_length (by decide)] at h
  simp only [chunkPayloadSize, chunkSize] at h ⊢
  omega

/-- What is left of the announced length while there are chunks. -/
theorem left_of_lt (h : Serving stream contents veccnt taken s) (hLt : taken < (contents.blocks chunkPayloadSize).length) :
    s.stream.dyndataleft = contents.length - chunkSize * taken := by
  have hBytes := lt_length_of_lt hLt
  rw [h.left, List.length_take, Nat.min_eq_left hBytes.le]
  simp only [chunkPayloadSize, chunkSize] at hBytes ⊢
  omega

/-- The chunks that a read takes. -/
def next (contents : List UInt8) (taken n : ℕ) : List (List UInt8) := ((contents.blocks chunkPayloadSize).drop taken).take n

/-- The bytes that its plan counts. -/
def pending (contents : List UInt8) (taken n : ℕ) : ℕ := (next contents taken n).flatten.length + 6 * (next contents taken n).length

theorem length_of_mem_next {taken n : ℕ} {data : List UInt8} (h : data ∈ next contents taken n) :
    0 < data.length ∧ data.length ≤ chunkPayloadSize :=
  List.length_of_mem_blocks (by decide) (List.mem_of_mem_drop (List.mem_of_mem_take h))

/-- A read knows what is next. -/
theorem plan (h : Serving stream contents veccnt taken s) {n : ℕ} (hPos : 0 < n) (draw : ℕ → ℕ) :
    s.tables.planForNOutgoingChunks s.stream.cid n s.stream.req draw =
      .ok (pending contents taken n, if stream ∈ s.tables.outgoingChunks then [stream] else []) := by
  rw [h.cid]
  refine StreamTables.planForNOutgoingChunks_alone h.alone h.belongs hPos ?_
  rw [h.queued, ← List.map_take]
  exact sentSizes_fileChunks fun data hData => (length_of_mem_next hData).2

theorem elsewhere (h : Serving stream contents veccnt taken s) {op : Elsewhere} (hApart : op.Apart stream s.stream.req s.tables) :
    Serving stream contents veccnt taken { s with tables := op.run s.tables } where
  cid := h.cid
  notLive := h.notLive
  belongs := Elsewhere.belongs_run h.belongs
  alone := Elsewhere.alone_run hApart h.alone
  queued := (Elsewhere.queued_run hApart h.belongs).trans h.queued
  sent := h.sent
  left := h.left
  taken_le := h.taken_le
  stops := h.stops
  ended := h.ended

/-- Before the last read, whole reads have been made. -/
theorem multiple (h : Serving stream contents veccnt taken s) (hLt : taken < (contents.blocks chunkPayloadSize).length) :
    ∃ k, taken = veccnt * k := by
  rcases h.stops with rfl | ⟨k, -, -, hTaken⟩
  · exact ⟨0, rfl⟩
  · exact ⟨k + 1, by omega⟩

section Read

variable {r : Read}

theorem step_blocked (h : Serving stream contents veccnt taken s) (hPos : 0 < r.veccnt) (hOpen : s.ended = false)
    (hWindow : r.cwnd < pending contents taken r.veccnt) : step sendTrailers s (.read r) = some s := by
  rw [step, readData_wouldBlock (h.plan hPos r.draw) hWindow, hOpen]
  rfl

variable (sendTrailers) in
/-- A read that finds nothing to send, or no length left, ends the data. -/
theorem step_end (h : Serving stream contents veccnt taken s) (hPos : 0 < r.veccnt) (hOpen : s.ended = false)
    (hWindow : pending contents taken r.veccnt ≤ r.cwnd)
    (hDone : taken = (contents.blocks chunkPayloadSize).length ∨ s.stream.dyndataleft = 0) :
    (∃ t, step sendTrailers s (.read r) = some t ∧ Serving stream contents veccnt taken t ∧ t.ended = true) ∨
      r.submitTrailers = false ∧ step sendTrailers s (.read r) = none := by
  have hNothing : pending contents taken r.veccnt = 0 ∨ s.stream.dyndataleft = 0 := by
    refine hDone.imp_left fun hAll => ?_
    rw [pending, next, hAll, List.drop_length, List.take_nil]
    rfl
  obtain ⟨after, hCid, hReq, hLive, hLeft, hRead⟩ := readData_vectors (h.plan hPos r.draw) hWindow (if_pos hNothing) h.notLive
  have hSame : after.dyndataleft = s.stream.dyndataleft := by omega
  rw [step, hOpen]
  refine hRead.imp (fun hRead => ?_) fun hRead => ⟨hRead.1, ?_⟩
  · rw [hRead]
    refine ⟨_, rfl, ?_, Bool.or_true _⟩
    exact {
      cid := hCid.trans h.cid
      notLive := hLive
      belongs := hReq ▸ h.belongs
      alone := hReq ▸ h.alone
      queued := h.queued
      sent := (List.append_nil _).trans h.sent
      left := hSame.trans h.left
      taken_le := h.taken_le
      stops := h.stops
      ended := fun _ => hDone.imp_right fun hZero => hSame.trans hZero }
  · rw [hRead.2]
    rfl

/-- While there are chunks and some length is left, a read takes the chunks it has room for. -/
theorem readChunks_next (h : Serving stream contents veccnt taken s) (hPos : 0 < r.veccnt)
    (hLt : taken < (contents.blocks chunkPayloadSize).length) (hLength : s.stream.dyndataleft ≠ 0) :
    readChunks s.tables s.stream (pending contents taken r.veccnt,
      if stream ∈ s.tables.outgoingChunks then [stream] else []) r.veccnt =
        .ok (false, next contents taken r.veccnt, (s.tables.popNOutgoingChunks [stream] r.veccnt).1) := by
  have hCount : (next contents taken r.veccnt).length = min r.veccnt ((contents.blocks chunkPayloadSize).length - taken) := by
    rw [next, List.length_take, List.length_drop]
  have hQueue : s.tables.outgoingChunks.queued stream ≠ [] := by
    rw [h.queued, Ne, List.map_eq_nil_iff, List.drop_eq_nil_iff]
    exact Nat.not_le.mpr hLt
  have hMem : stream ∈ s.tables.outgoingChunks := by
    by_contra hNot
    exact hQueue (by rw [KeyedQueues.queued, Std.ExtTreeMap.getElem?_eq_none hNot]; rfl)
  have hChunks : StreamTables.lockChunks (s.tables.popNOutgoingChunks [stream] r.veccnt).2 = .ok (next contents taken r.veccnt) := by
    rw [StreamTables.popNOutgoingChunks_singleton, h.queued, ← List.map_take]
    exact lockChunks_fileChunks fun data hData => length_of_mem_next hData
  have hGo : ¬(pending contents taken r.veccnt = 0 ∨ s.stream.dyndataleft = 0) := by
    rw [pending]
    omega
  rw [if_pos hMem]
  refine (if_neg hGo).trans ?_
  rw [StreamTables.lockOutgoingChunks, StreamTables.noMoreChunks_singleton hMem, if_neg Bool.false_ne_true, hChunks]
  rfl

variable (sendTrailers) in
/-- Such a read goes on to the next chunks. -/
theorem step_more (h : Serving stream contents veccnt taken s) (hPos : 0 < veccnt) (hVec : r.veccnt = veccnt)
    (hOpen : s.ended = false) (hWindow : pending contents taken r.veccnt ≤ r.cwnd)
    (hLt : taken < (contents.blocks chunkPayloadSize).length) (hLength : s.stream.dyndataleft ≠ 0) :
    (∃ t, step sendTrailers s (.read r) = some t ∧
        Serving stream contents veccnt (min (taken + veccnt) (contents.blocks chunkPayloadSize).length) t) ∨
      r.submitTrailers = false ∧ step sendTrailers s (.read r) = none := by
  subst hVec
  obtain ⟨after, hCid, hReq, hLive, hLeft, hRead⟩ := readData_vectors (h.plan hPos r.draw) hWindow
    (h.readChunks_next hPos hLt hLength) h.notLive
  rw [step, hOpen]
  refine hRead.imp (fun hRead => ?_) fun hRead => ⟨hRead.1, ?_⟩
  · rw [hRead]
    refine ⟨_, rfl, ?_⟩
    set pieces := contents.blocks chunkPayloadSize with hPieces
    have hCount : (next contents taken r.veccnt).length = min r.veccnt (pieces.length - taken) := by
      rw [next, List.length_take, List.length_drop]
    have hTake : pieces.take (taken + r.veccnt) = pieces.take (min (taken + r.veccnt) pieces.length) :=
      List.take_eq_take_min
    have hBytes : s.sent ++ (next contents taken r.veccnt).flatten =
        contents.take (chunkPayloadSize * min (taken + r.veccnt) pieces.length) := by
      rw [h.sent, next, ← List.flatten_take_blocks (by decide), ← List.flatten_take_blocks (by decide), ← List.flatten_append,
        ← List.take_add, hTake]
    obtain ⟨k, hk⟩ := h.multiple hLt
    exact {
      cid := hCid.trans h.cid
      notLive := hLive
      belongs := hReq ▸ h.belongs
      alone := hReq ▸ h.alone.of_pop [stream] r.veccnt
      queued := by
        rw [StreamTables.queued_popNOutgoingChunks, h.queued, ← List.map_drop, List.drop_drop]
        rcases Nat.le_total (taken + r.veccnt) pieces.length with hLe | hGe
        · rw [Nat.min_eq_left hLe]
        · rw [Nat.min_eq_right hGe, List.drop_length, List.drop_eq_nil_of_le hGe]
      sent := hBytes
      left := by
        rw [hLeft, h.left, ← hBytes, h.sent, List.length_append, pending]
        omega
      taken_le := Nat.min_le_right _ _
      stops := by
        have hRest := h.left_of_lt hLt
        refine .inr ⟨k, hk ▸ hLt, ?_, by rw [hk, Nat.mul_succ]⟩
        rw [← hk]
        omega
      ended := fun hEof => by
        have hSome : (next contents taken r.veccnt).isEmpty = false := by
          rw [List.isEmpty_eq_false_iff]
          exact List.ne_nil_of_length_pos (by omega)
        rw [hSome] at hEof
        cases hEof }
  · rw [hRead.2]
    rfl

end Read

/-- A step keeps what is known of the stream. -/
theorem step_serving (h : Serving stream contents veccnt taken s) (hPos : 0 < veccnt) {action : Action}
    (hAllowed : Allowed stream veccnt s action) (hStep : step sendTrailers s action = some t) :
    ∃ later, Serving stream contents veccnt later t := by
  cases action with
  | elsewhere op =>
      obtain rfl := Option.some.inj hStep
      exact ⟨taken, h.elsewhere hAllowed⟩
  | read r =>
      have hVec : r.veccnt = veccnt := hAllowed
      have hRoom : 0 < r.veccnt := hVec ▸ hPos
      cases hOpen : s.ended with
      | true =>
          rw [step, hOpen] at hStep
          cases hStep
      | false =>
          by_cases hWindow : r.cwnd < pending contents taken r.veccnt
          · rw [h.step_blocked hRoom hOpen hWindow] at hStep
            exact ⟨taken, Option.some.inj hStep ▸ h⟩
          by_cases hDone : taken = (contents.blocks chunkPayloadSize).length ∨ s.stream.dyndataleft = 0
          · rcases h.step_end sendTrailers hRoom hOpen (Nat.not_lt.mp hWindow) hDone with
              ⟨u, hu, hServing, -⟩ | ⟨-, hNone⟩
            · obtain rfl := Option.some.inj (hu.symm.trans hStep)
              exact ⟨taken, hServing⟩
            · rw [hNone] at hStep
              cases hStep
          · have hLt : taken < (contents.blocks chunkPayloadSize).length := by
              have hLe := h.taken_le
              omega
            rcases h.step_more sendTrailers hPos hVec hOpen (Nat.not_lt.mp hWindow) hLt
              (fun hZero => hDone (.inr hZero)) with ⟨u, hu, hServing⟩ | ⟨-, hNone⟩
            · obtain rfl := Option.some.inj (hu.symm.trans hStep)
              exact ⟨_, hServing⟩
            · rw [hNone] at hStep
              cases hStep

theorem reaches (h : Serving stream contents veccnt taken s) (hPos : 0 < veccnt)
    (hRun : Reaches (step sendTrailers) (Allowed stream veccnt) s t) : ∃ later, Serving stream contents veccnt later t := by
  refine hRun.invariant (P := fun t => ∃ later, Serving stream contents veccnt later t) ⟨taken, h⟩ ?_
  rintro t action u ⟨later, hServing⟩ hAllowed hStep
  exact hServing.step_serving hPos hAllowed hStep

end Serving

section Whole

variable {Route : Type} {server : HTTP3Server Route} {t : StreamTables} {stream : StreamIdentifier} {req : Request}
  {contents : List UInt8} {started : StreamTables × Stream} {veccnt : ℕ} {s : Sending} {sendTrailers : Bool}

/-- The state in which the first read finds a stream. -/
def start (started : StreamTables × Stream) : Sending := ⟨started.1, started.2, [], false⟩

end Whole
end Sending
end Wwatp
