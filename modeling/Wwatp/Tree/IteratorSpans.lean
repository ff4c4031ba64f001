import Wwatp.Tree.ConstIterator

/-! `distance_to` and `to_span` of the iterators of a span, beside the walk: when they agree with the bytes that the
iterators have passed. -/
namespace Wwatp

open Cxx

/-- The size of the header type that the first byte of a chunk tells. -/
def Chunk.headerSize (c : Chunk) : Option ℕ :=
  if c.data.headD 0 = 0 then some 1
  else if c.data.headD 0 = 1 then some 4
  else if c.data.headD 0 = 2 then some 6
  else none

/-- The whole header is in front of the data, if there are any. -/
def Chunk.Headed (c : Chunk) : Prop := 0 < c.size → ∃ h, c.headerSize = some h ∧ h ≤ c.first

/-- A span as its constructors and `restrict` leave it. It fits into memory. -/
structure IterableSpan extends SharedSpan where
  headed : ∀ c ∈ chunks, c.Headed
  bounded : toSharedSpan.size < 2 ^ 63

namespace Chunk

variable {s : SharedSpan} {done todo : List Chunk}

theorem headed_ofHeader (h : ChunkHeader) (data : List UInt8) : (Chunk.ofHeader h data).Headed := by
  intro _
  refine ⟨h.size, ?_, Nat.le_refl _⟩
  cases h <;> rfl

theorem headed_ofSignal (signal : ChunkHeader) (data : List UInt8) :
    ∀ c ∈ (SharedSpan.ofSignal signal data).chunks, c.Headed := by
  intro c hc
  rcases List.mem_cons.mp hc with rfl | hRest
  · exact headed_ofHeader signal data
  · obtain ⟨block, -, rfl⟩ := List.mem_map.mp hRest
    exact headed_ofHeader .noChunk block

theorem headed_concat {spans : List SharedSpan} (h : ∀ s ∈ spans, ∀ c ∈ s.chunks, c.Headed) :
    ∀ c ∈ (SharedSpan.concat spans).chunks, c.Headed := by
  intro c hc
  cases spans with
  | nil => cases hc
  | cons s rest =>
      obtain ⟨t, ht, hChunk⟩ := List.mem_flatMap.mp hc
      exact h t ht c hChunk

theorem headed_sub {c : Chunk} (h : c.Headed) (start length : ℕ) : (c.sub start length).Headed := by
  intro hPos
  have hFirst := c.first_pos
  have hSub : (c.sub start length).size =
      (c.data.take (c.first + start + length)).length - min (c.first + start) (c.data.take (c.first + start + length)).length :=
    rfl
  rw [List.length_take] at hSub
  obtain ⟨header, hHeader, hLe⟩ := h (by rw [Chunk.size]; omega)
  refine ⟨header, ?_, ?_⟩
  · have hHead : (c.data.take (c.first + start + length)).headD 0 = c.data.headD 0 := by
      rw [List.headD_eq_head?_getD, List.headD_eq_head?_getD, List.head?_take, if_neg (by omega)]
    rw [← hHeader, Chunk.headerSize, Chunk.headerSize, Chunk.sub]
    dsimp only
    rw [hHead]
  · show header ≤ min (c.first + start) (c.data.take (c.first + start + length)).length
    rw [List.length_take]
    omega

theorem headed_restrictLoop {start length : ℕ} (hDone : ∀ c ∈ done, c.Headed) (hTodo : ∀ c ∈ todo, c.Headed) :
    ∀ c ∈ SharedSpan.restrictLoop done todo start length, c.Headed := by
  induction todo generalizing done start length with
  | nil => exact hDone
  | cons c todo ih =>
      have hFirst := hTodo c List.mem_cons_self
      have hRest := fun d hd => hTodo d (List.mem_cons_of_mem c hd)
      have hAdd : ∀ d : Chunk, d.Headed → ∀ e ∈ done ++ [d], e.Headed := by
        intro d hd e he
        rcases List.mem_append.mp he with hOld | hNew
        · exact hDone e hOld
        · exact List.mem_singleton.mp hNew ▸ hd
      rw [SharedSpan.restrictLoop]
      split_ifs
      · exact hAdd _ (headed_sub hFirst start length)
      · exact ih (fun d hd => hAdd c hFirst d (List.mem_of_mem_tail hd)) hRest
      · exact ih (hAdd _ (headed_sub hFirst start _)) hRest

theorem headed_restrict (h : ∀ c ∈ s.chunks, c.Headed) (start length : ℕ) :
    ∀ c ∈ (s.restrict start length).chunks, c.Headed := headed_restrictLoop nofun h

end Chunk

namespace SharedSpan

/-- A number as a `ptrdiff_t`. -/
def toPtrdiff (x : ℤ) : ℤ := x.bmod (2 ^ 64)

/-- The distance within the last chunk in `distance_to`, which is left out at the end. -/
def within (s : SharedSpan) (p : SpanPosition) : ℤ :=
  match s.chunks[p.chunkIndex]? with
  | none => 0
  | some c => p.spanIndex - c.first

/-- `distance_to` of an iterator that is not in front of the other. -/
def distanceBack (s : SharedSpan) (type : PodType) (this other : SpanPosition) : Outcome ℤ :=
  if this.chunkIndex = other.chunkIndex then .ok (toPtrdiff (other.spanIndex - this.spanIndex))
  else match s.chunks[other.chunkIndex]? with
    | none => throw (.undefined .index)
    | some otherChunk =>
      let between := chunksSize ((s.chunks.take this.chunkIndex).drop (other.chunkIndex + 1))
      let first : ℤ := otherChunk.first + otherChunk.size - other.spanIndex
      let distance := toPtrdiff (-(s.within this + between + first))
      -- the division by a `size_t` makes the distance unsigned
      .ok (toPtrdiff (distance % 2 ^ 64 / type.size))

def distanceTo (s : SharedSpan) (type : PodType) (this other : SpanPosition) : Outcome ℤ :=
  if this.chunkIndex < other.chunkIndex ∨
      (this.chunkIndex = other.chunkIndex ∧ this.spanIndex < other.spanIndex) then do
    let distance ← s.distanceBack type other this
    return -1 * distance
  else s.distanceBack type this other

/-- `to_span`. At the end there is no chunk to take the header from. -/
def toSpan (s : SharedSpan) (p : SpanPosition) : Outcome SharedSpan :=
  match s.chunks.drop p.chunkIndex with
  | [] => throw (.undefined .iterator)
  | c :: rest => do
    let newSpan : SharedSpan := ⟨c :: rest, c.data.headD 0⟩
    let signalSize ← newSpan.getSignalSize
    newSpan.restrictSized (.ofNat (sizeSub p.spanIndex signalSize)) (.ofNat newSpan.size)

/-- `begin` and some increments. -/
def advance (s : SharedSpan) (type : PodType) : ℕ → Outcome SpanPosition
  | 0 => .ok s.beginPosition
  | i + 1 => do s.increment type (← s.advance type i)

section Distances

variable {s : SharedSpan} {type : PodType} {i n m : ℕ}

theorem advance_eq (h : i * type.size ≤ s.size) : s.advance type i = .ok (locate 0 s.chunks (i * type.size)) := by
  induction i with
  | zero => rw [advance, beginPosition_eq, Nat.zero_mul]
  | succ i ih =>
      rw [Nat.succ_mul] at h ⊢
      rw [advance, ih (by omega), Outcome.ok_bind, increment_locate type h]

/-- A byte is behind the chunks before its own and the bytes before it there. -/
theorem chunksSize_take_chunkIndexAt (hm : m ≤ s.size) :
    (chunksSize (s.chunks.take (s.chunkIndexAt m)) : ℤ) + s.within (locate 0 s.chunks m) = m := by
  rcases hm.lt_or_eq with hLess | rfl
  · obtain ⟨front, c, back, o, hChunks, ho, rfl⟩ := exists_chunk hLess
    have hGet : s.chunks[front.length]? = some c := getElem?_of_split hChunks
    have hTake : s.chunks.take front.length = front := by
      rw [hChunks, List.take_left]
    rw [chunkIndexAt_split hChunks ho, hTake, within, locate_split hChunks ho]
    dsimp only
    rw [hGet]
    push_cast
    ring
  · rw [chunkIndexAt, ← endPosition_eq, within, endPosition]
    dsimp only
    rw [List.take_length, List.getElem?_eq_none (Nat.le_refl _), add_zero]
    rfl

theorem chunksSize_drop_take (chunks : List Chunk) {j k : ℕ} (h : j ≤ k) :
    chunksSize (chunks.take j) + chunksSize ((chunks.take k).drop j) = chunksSize (chunks.take k) := by
  rw [← chunksSize_append]
  have hTake : chunks.take j = (chunks.take k).take j := by
    rw [List.take_take, Nat.min_eq_left h]
  rw [hTake, List.take_append_drop]

/-- The distance back is that in bytes within a chunk, and the quotient of a wrapped number between chunks. -/
theorem distanceBack_locate (h : n ≤ m) (hm : m ≤ s.size) :
    s.distanceBack type (locate 0 s.chunks m) (locate 0 s.chunks n) =
      .ok (if s.chunkIndexAt m = s.chunkIndexAt n then toPtrdiff (-(m - n : ℤ))
        else toPtrdiff (toPtrdiff (-(m - n : ℤ)) % 2 ^ 64 / type.size)) := by
  rw [distanceBack]
  by_cases hSame : s.chunkIndexAt m = s.chunkIndexAt n
  · rw [if_pos (show (locate 0 s.chunks m).chunkIndex = (locate 0 s.chunks n).chunkIndex from hSame), if_pos hSame]
    have hBytes : (locate 0 s.chunks n).spanIndex - ((locate 0 s.chunks m).spanIndex : ℤ) = -(m - n : ℤ) := by
      rcases Nat.lt_or_ge n s.size with hLess | hEnd
      · rw [spanIndex_of_same hLess h hSame]
        push_cast [h]
        ring
      · obtain rfl : m = n := by omega
        simp
    rw [hBytes]
  · rw [if_neg (show ¬(locate 0 s.chunks m).chunkIndex = (locate 0 s.chunks n).chunkIndex from hSame), if_neg hSame]
    have hLess : n < s.size := by
      by_contra hEnd
      exact hSame (by rw [show m = n by omega])
    have hPassed := chunksSize_take_chunkIndexAt hm
    have hMono := chunkIndexAt_mono (s := s) h
    obtain ⟨front, c, back, o, hChunks, ho, rfl⟩ := exists_chunk hLess
    have hGet : s.chunks[front.length]? = some c := getElem?_of_split hChunks
    have hFront : chunksSize (s.chunks.take (front.length + 1)) = chunksSize front + c.size := by
      rw [hChunks, List.take_length_add_append]
      simp
    rw [chunkIndexAt_split hChunks ho] at hSame hMono
    have hBetween := chunksSize_drop_take s.chunks (j := front.length + 1) (k := s.chunkIndexAt m) (by omega)
    rw [hFront] at hBetween
    rw [locate_split hChunks ho]
    dsimp only
    rw [hGet]
    dsimp only
    have hDistance : s.within (locate 0 s.chunks m) +
        (chunksSize ((s.chunks.take (s.chunkIndexAt m)).drop (front.length + 1)) : ℤ) +
        (c.first + c.size - (c.first + o : ℕ)) = m - (chunksSize front + o : ℕ) := by
      push_cast
      omega
    rw [← hDistance]
    rfl

theorem toPtrdiff_of_lt {x : ℤ} (hLow : -2 ^ 63 ≤ x) (hHigh : x < 2 ^ 63) : toPtrdiff x = x := by
  apply Int.bmod_eq_of_le
  · norm_num at hLow ⊢
    omega
  · norm_num at hHigh ⊢
    omega

theorem toPtrdiff_emod (x : ℤ) : toPtrdiff (x % 2 ^ 64) = toPtrdiff x := by
  have hWrapped := Int.emod_bmod x (2 ^ 64)
  rwa [Nat.cast_pow, Nat.cast_ofNat] at hWrapped

/-- An iterator is in front of another one exactly when it has passed fewer bytes. -/
theorem before_iff (hn : n ≤ s.size) (hm : m ≤ s.size) :
    ((locate 0 s.chunks n).chunkIndex < (locate 0 s.chunks m).chunkIndex ∨
      ((locate 0 s.chunks n).chunkIndex = (locate 0 s.chunks m).chunkIndex ∧
        (locate 0 s.chunks n).spanIndex < (locate 0 s.chunks m).spanIndex)) ↔ n < m := by
  show (s.chunkIndexAt n < s.chunkIndexAt m ∨ (s.chunkIndexAt n = s.chunkIndexAt m ∧ _)) ↔ _
  rcases Nat.lt_or_ge n m with hLess | hLe
  · have hMono := chunkIndexAt_mono (s := s) hLess.le
    simp only [hLess, iff_true]
    rcases hMono.lt_or_eq with hChunks | hSame
    · exact .inl hChunks
    · refine .inr ⟨hSame, ?_⟩
      rw [spanIndex_of_same (by omega) hLess.le hSame.symm]
      omega
  · have hMono := chunkIndexAt_mono (s := s) hLe
    simp only [not_lt.mpr hLe, iff_false]
    rintro (hChunks | ⟨hSame, hBytes⟩)
    · omega
    · rcases hLe.lt_or_eq with hLess | rfl
      · rw [spanIndex_of_same (by omega) hLe hSame] at hBytes
        omega
      · exact lt_irrefl _ hBytes

theorem distanceTo_locate (hn : n ≤ s.size) (hm : m ≤ s.size) :
    s.distanceTo type (locate 0 s.chunks n) (locate 0 s.chunks m) =
      if n < m then (do
        let distance ← s.distanceBack type (locate 0 s.chunks m) (locate 0 s.chunks n)
        return -1 * distance)
      else s.distanceBack type (locate 0 s.chunks n) (locate 0 s.chunks m) := by
  rw [distanceTo]
  exact if_congr (before_iff hn hm) rfl rfl

/-- For bytes the distance is right. -/
theorem distanceTo_byte (hByte : type.size = 1) (hBound : s.size < 2 ^ 63) (hn : n ≤ s.size) (hm : m ≤ s.size) :
    s.distanceTo type (locate 0 s.chunks n) (locate 0 s.chunks m) = .ok (m - n) := by
  have hBack : ∀ n m, n ≤ m → m ≤ s.size →
      s.distanceBack type (locate 0 s.chunks m) (locate 0 s.chunks n) = .ok (-(m - n : ℤ)) := by
    intro n m h hm
    have hNumber : toPtrdiff (-(m - n : ℤ)) = -(m - n : ℤ) := toPtrdiff_of_lt (by omega) (by omega)
    rw [distanceBack_locate h hm, hNumber, hByte]
    split_ifs
    · rfl
    · rw [Nat.cast_one, Int.ediv_one, toPtrdiff_emod, hNumber]
  rw [distanceTo_locate hn hm]
  split_ifs with hLess
  · rw [hBack n m hLess.le hm, Outcome.ok_bind, Outcome.pure_eq_ok]
    congr 1
    ring
  · rw [hBack m n (not_lt.mp hLess) hn]
    congr 1
    ring

/-- For larger values the distance to the next one is wrong. -/
theorem distanceTo_next (hSize : 2 ≤ type.size) (h : type.size ≤ s.size) (hBound : s.size < 2 ^ 63) :
    s.distanceTo type (locate 0 s.chunks 0) (locate 0 s.chunks type.size) ≠ .ok 1 := by
  rw [distanceTo_locate (Nat.zero_le _) h, if_pos (by omega), distanceBack_locate (Nat.zero_le _) h, Outcome.ok_bind,
    Outcome.pure_eq_ok]
  intro hOne
  have hValue := Except.ok.inj hOne
  split_ifs at hValue
  · rw [toPtrdiff_of_lt (by omega) (by omega)] at hValue
    omega
  · have hLow : 0 ≤ toPtrdiff (-(type.size - (0 : ℕ) : ℤ)) % 2 ^ 64 := Int.emod_nonneg _ (by norm_num)
    have hHigh : toPtrdiff (-(type.size - (0 : ℕ) : ℤ)) % 2 ^ 64 < 2 ^ 64 := Int.emod_lt_of_pos _ (by norm_num)
    have hType : (2 : ℤ) ≤ type.size := by exact_mod_cast hSize
    have hQuotientLow : 0 ≤ toPtrdiff (-(type.size - (0 : ℕ) : ℤ)) % 2 ^ 64 / type.size := Int.ediv_nonneg hLow (by omega)
    have hQuotientHigh : toPtrdiff (-(type.size - (0 : ℕ) : ℤ)) % 2 ^ 64 / type.size < 2 ^ 63 := by
      apply Int.ediv_lt_of_lt_mul (by omega)
      norm_num at hHigh ⊢
      nlinarith
    rw [toPtrdiff_of_lt (by omega) hQuotientHigh] at hValue
    omega

end Distances

section Spans

variable {s : SharedSpan} {type : PodType} {todo : List Chunk} {start length : ℕ}

/-- `restrict` gives no more than is behind the start. -/
theorem restrictLoop_behind (todo : List Chunk) (start length : ℕ) :
    chunksSize (restrictLoop [] todo start length) ≤ chunksSize todo - start := by
  induction todo generalizing start with
  | nil => simp [restrictLoop]
  | cons c todo ih =>
      rw [restrictLoop, chunksSize_cons]
      split_ifs with hEnds hBefore
      · rw [List.nil_append, chunksSize_cons, chunksSize_nil, size_sub hEnds]
        omega
      · have hRest := ih (start - c.size)
        rw [List.nil_append, List.tail_cons]
        omega
      · have hRest := restrictLoop_le [c.sub start (c.size - start)] todo (length - (c.size - start))
        rw [chunksSize_cons, chunksSize_nil, size_sub (by omega)] at hRest
        rw [List.nil_append]
        omega

/-- A span can be made at each value: the chunk it starts in has nothing but its header in front of its data, and no
chunk behind is empty, unless at the very end of a span that is taken from the start of a chunk. -/
def Cuttable (s : SharedSpan) (type : PodType) : Prop :=
  ∀ front c back o, s.chunks = front ++ c :: back → o < c.size → type.size ∣ chunksSize front + o →
    c.headerSize = some c.first ∧ ¬EmptyInside (c :: back) o (o + chunksSize (c :: back))

theorem getSignalSize_of_headerSize {c : Chunk} {rest : List Chunk} {h : ℕ} (hHeader : c.headerSize = some h) :
    SharedSpan.getSignalSize ⟨c :: rest, c.data.headD 0⟩ = .ok h := by
  rw [Chunk.headerSize] at hHeader
  rw [getSignalSize, if_neg (List.cons_ne_nil _ _)]
  dsimp only
  split_ifs at hHeader with hNone hSignal hPayload
  · rw [if_pos hNone, Option.some.inj hHeader]
  · rw [if_neg hNone, if_pos hSignal, Option.some.inj hHeader]
  · rw [if_neg hNone, if_neg hSignal, if_pos hPayload, Option.some.inj hHeader]

/-- `to_span` counts from the end of the header type, not from the start of the data. -/
theorem toSpan_split {front back : List Chunk} {c : Chunk} {o h : ℕ} (hChunks : s.chunks = front ++ c :: back)
    (ho : o < c.size) (hHeader : c.headerSize = some h) (hLe : h ≤ c.first) (hBound : s.size < 2 ^ 63) :
    s.toSpan (locate 0 s.chunks (chunksSize front + o)) =
      .ok (SharedSpan.restrict ⟨c :: back, c.data.headD 0⟩ (c.first + o - h) (chunksSize (c :: back))) := by
  have hSize : s.size = chunksSize front + chunksSize (c :: back) := by
    show chunksSize s.chunks = _
    rw [hChunks, chunksSize_append]
  have hDrop : s.chunks.drop front.length = c :: back := by
    rw [hChunks, List.drop_left]
  have hFirst := c.first_le
  have hEnd : c.size = c.data.length - c.first := rfl
  have hFits : c.data.length ≤ 1200 := c.fits
  have hSub : sizeSub (c.first + o) h = c.first + o - h := by
    rw [sizeSub, if_pos (by omega)]
  have hStart : (UInt64.ofNat (c.first + o - h)).toNat = c.first + o - h := UInt64.toNat_ofNat_of_lt' (by
    show _ < 2 ^ 64
    omega)
  have hLength : (UInt64.ofNat (chunksSize (c :: back))).toNat = chunksSize (c :: back) := UInt64.toNat_ofNat_of_lt' (by
    show _ < 2 ^ 64
    omega)
  rw [locate_split hChunks ho, toSpan]
  dsimp only
  rw [hDrop]
  dsimp only
  rw [getSignalSize_of_headerSize hHeader, Outcome.ok_bind, hSub]
  show SharedSpan.restrictSized _ _ (UInt64.ofNat (chunksSize (c :: back))) = _
  rw [restrictSized_eq (by rw [hStart, hLength]; omega), hStart, hLength]

/-- The span at a value has the bytes from there on exactly if it can be cut there. -/
theorem toSpan_iff {front back : List Chunk} {c : Chunk} {o h : ℕ} (hChunks : s.chunks = front ++ c :: back)
    (ho : o < c.size) (hHeader : c.headerSize = some h) (hLe : h ≤ c.first) (hBound : s.size < 2 ^ 63) :
    (∃ t, s.toSpan (locate 0 s.chunks (chunksSize front + o)) = .ok t ∧ t.bytes = s.bytes.drop (chunksSize front + o)) ↔
      c.headerSize = some c.first ∧ ¬EmptyInside (c :: back) o (o + chunksSize (c :: back)) := by
  have hBytes : s.bytes.drop (chunksSize front + o) = ((c :: back).flatMap Chunk.body).drop o := by
    rw [drop_bytes hChunks ho.le, List.flatMap_cons, List.drop_append_of_le_length (by rw [Chunk.body_length]; exact ho.le)]
  have hTotal := chunksSize_eq_length (c :: back)
  have hAll : (((c :: back).flatMap Chunk.body).drop o).take (chunksSize (c :: back)) =
      ((c :: back).flatMap Chunk.body).drop o := by
    apply List.take_of_length_le
    rw [List.length_drop]
    omega
  rw [toSpan_split hChunks ho hHeader hLe hBound, hBytes]
  simp only [Except.ok.injEq, exists_eq_left']
  rcases hLe.lt_or_eq with hLess | rfl
  · -- the data start behind the header: too little is left
    have hNot : c.headerSize ≠ some c.first := by
      rw [hHeader]
      exact fun hSame => hLess.ne (Option.some.inj hSame)
    simp only [hNot, false_and, iff_false]
    intro hSame
    have hShort := restrictLoop_behind (c :: back) (c.first + o - h) (chunksSize (c :: back))
    have hLengths := congrArg List.length hSame
    rw [bytes, restrict, chunksSize_eq_length, List.length_drop, hTotal] at hLengths
    dsimp only at hLengths
    rw [chunksSize_cons] at hShort hLengths
    omega
  · have hRestrict := SharedSpan.bytes_restrict_iff ⟨c :: back, c.data.headD 0⟩ o (chunksSize (c :: back))
    have hStart : c.first + o - c.first = o := Nat.add_sub_cancel_left ..
    rw [hStart]
    simp only [hHeader, true_and]
    rw [← hRestrict]
    show _ = _ ↔ _ = (((c :: back).flatMap Chunk.body).drop o).take (chunksSize (c :: back))
    rw [hAll]

end Spans

/-- The walk from `cbegin` to `cend` yields the values of the bytes. -/
def WalksValues (s : SharedSpan) (address : ℕ → ℕ) (type : PodType) : Prop :=
  ∃ fuel, s.walk address type fuel ⟨s.beginPosition, []⟩ = .ok (s.bytes.blocks type.size)

/-- `distance_to` of two iterators is the number of increments from one to the other. -/
def CountsSteps (s : SharedSpan) (type : PodType) : Prop :=
  ∀ i j p q, i * type.size ≤ s.size → j * type.size ≤ s.size → s.advance type i = .ok p → s.advance type j = .ok q →
    s.distanceTo type p q = .ok (j - i)

/-- `to_span` at a value is the span of the bytes from there on. -/
def SpansRest (s : SharedSpan) (type : PodType) : Prop :=
  ∀ i p, i * type.size < s.size → s.advance type i = .ok p →
    ∃ t, s.toSpan p = .ok t ∧ t.bytes = s.bytes.drop (i * type.size)

end SharedSpan

namespace IterableSpan

variable (s : IterableSpan) (type : PodType)

theorem countsSteps_iff (hMultiple : type.size ∣ s.toSharedSpan.size) :
    s.toSharedSpan.CountsSteps type ↔ type.size = 1 ∨ s.toSharedSpan.size = 0 := by
  have hType := type.size_pos
  constructor
  · intro h
    by_contra hNeither
    have hFits : type.size ≤ s.toSharedSpan.size := Nat.le_of_dvd (by omega) hMultiple
    have hZero : 0 * type.size ≤ s.toSharedSpan.size := by omega
    have hOne : 1 * type.size ≤ s.toSharedSpan.size := by omega
    have hBegin := SharedSpan.advance_eq hZero
    have hNext := SharedSpan.advance_eq hOne
    have hDistance := h 0 1 _ _ (by omega) (by omega) hBegin hNext
    rw [Nat.zero_mul, Nat.one_mul] at hDistance
    exact SharedSpan.distanceTo_next (by omega) hFits s.bounded hDistance
  · rintro hCase i j p q hi hj hp hq
    rw [SharedSpan.advance_eq hi] at hp
    rw [SharedSpan.advance_eq hj] at hq
    obtain rfl := Except.ok.inj hp
    obtain rfl := Except.ok.inj hq
    rcases hCase with hByte | hEmpty
    · rw [SharedSpan.distanceTo_byte hByte s.bounded hi hj, hByte, Nat.mul_one, Nat.mul_one]
    · obtain rfl : i = 0 := by
        by_contra hPos
        have := Nat.mul_pos (Nat.pos_of_ne_zero hPos) hType
        omega
      obtain rfl : j = 0 := by
        by_contra hPos
        have := Nat.mul_pos (Nat.pos_of_ne_zero hPos) hType
        omega
      rw [SharedSpan.distanceTo_locate hi hi, if_neg (lt_irrefl _), SharedSpan.distanceBack_locate (Nat.le_refl _) hi, if_pos rfl,
        sub_self, sub_self]
      rfl

theorem spansRest_iff : s.toSharedSpan.SpansRest type ↔ s.toSharedSpan.Cuttable type := by
  have hHeaded : ∀ front c back o, s.chunks = front ++ c :: back → o < c.size →
      ∃ h, c.headerSize = some h ∧ h ≤ c.first := by
    intro front c back o hChunks ho
    exact s.headed c (by rw [hChunks]; simp) (Nat.zero_lt_of_lt ho)
  constructor
  · intro h front c back o hChunks ho hValue
    obtain ⟨header, hHeader, hLe⟩ := hHeaded front c back o hChunks ho
    obtain ⟨i, hi⟩ := hValue
    have hSize : s.toSharedSpan.size = SharedSpan.chunksSize front + (c.size + SharedSpan.chunksSize back) := by
      show SharedSpan.chunksSize s.chunks = _
      rw [hChunks, SharedSpan.chunksSize_append, SharedSpan.chunksSize_cons]
    rw [Nat.mul_comm] at hi
    have hRest := h i _ (by omega) (SharedSpan.advance_eq (by omega))
    rw [← hi] at hRest
    exact (SharedSpan.toSpan_iff hChunks ho hHeader hLe s.bounded).mp hRest
  · intro h i p hi hp
    rw [SharedSpan.advance_eq hi.le] at hp
    obtain rfl := Except.ok.inj hp
    obtain ⟨front, c, back, o, hChunks, ho, hValue⟩ := SharedSpan.exists_chunk hi
    obtain ⟨header, hHeader, hLe⟩ := hHeaded front c back o hChunks ho
    rw [hValue]
    refine (SharedSpan.toSpan_iff hChunks ho hHeader hLe s.bounded).mpr (h front c back o hChunks ho ?_)
    rw [← hValue]
    exact Nat.dvd_mul_left ..

/-- What an iterator does on a span whose size is a multiple of that of the values. The walk gives the values exactly when
each that straddles is served; the distances are right exactly for bytes, or without any data; and a span from a value on
exactly where one can be cut. At the end `to_span` is undefined. -/
theorem iteration_iff (address : ℕ → ℕ) (hMultiple : type.size ∣ s.toSharedSpan.size) :
    (s.toSharedSpan.WalksValues address type ↔
        ∀ n < s.toSharedSpan.size, type.size ∣ n → s.toSharedSpan.Straddles type n → s.toSharedSpan.Served address type n) ∧
      (s.toSharedSpan.CountsSteps type ↔ type.size = 1 ∨ s.toSharedSpan.size = 0) ∧
      (s.toSharedSpan.SpansRest type ↔ s.toSharedSpan.Cuttable type) ∧
      s.toSharedSpan.toSpan s.toSharedSpan.endPosition = throw (.undefined .iterator) := by
  refine ⟨SharedSpan.walk_iff hMultiple, s.countsSteps_iff type hMultiple, s.spansRest_iff type, ?_⟩
  rw [SharedSpan.toSpan, SharedSpan.endPosition]
  dsimp only
  rw [List.drop_length]

/-- A value of two bytes in a chunk of its own, and another one in two chunks. -/
def inThree : IterableSpan where
  toSharedSpan := .concat [.ofSignal (.payload ⟨0, 0, 2⟩) [1, 2], .ofSignal (.payload ⟨0, 0, 1⟩) [3],
    .ofSignal (.payload ⟨0, 0, 1⟩) [4]]
  headed := Chunk.headed_concat
    (by simpa using ⟨Chunk.headed_ofSignal _ _, Chunk.headed_ofSignal _ _, Chunk.headed_ofSignal _ _⟩)
  bounded := by decide

/-- The last two bytes of four. -/
def lastTwo : IterableSpan where
  toSharedSpan := (SharedSpan.ofSignal .noChunk [1, 2, 3, 4]).restrict 2 2
  headed := Chunk.headed_restrict (Chunk.headed_ofSignal _ _) 2 2
  bounded := by decide

/-- `uint16_t` -/
def uint16 : PodType where
  name := str "unsigned short"
  size := 2
  alignment := 2
  size_pos := Nat.two_pos
  alignment_pos := Nat.two_pos
  aligned := Nat.dvd_refl 2

theorem iteration_iff_inThree : inThree.toSharedSpan.SpansRest uint16 ↔ inThree.toSharedSpan.Cuttable uint16 :=
  (iteration_iff inThree uint16 (fun i => 64 * i) (by decide)).2.2.1

/-- At addresses that are aligned the walk over the three chunks throws, its distances count bytes, and the span of the last
two bytes starts behind them. -/
theorem not_iterates_inThree : ¬inThree.toSharedSpan.WalksValues (fun i => 1216 * i) uint16 ∧
    ¬inThree.toSharedSpan.CountsSteps uint16 ∧ ¬lastTwo.toSharedSpan.SpansRest uint16 := by
  refine ⟨?_, ?_, ?_⟩
  · intro h
    have hServed := (SharedSpan.walk_iff (by decide)).mp h 2 (by decide) (by decide) (by decide)
    have hFirst : ¬inThree.toSharedSpan.AfterUnaligned (fun i => 1216 * i) uint16 2 := fun hAfter =>
      absurd hAfter.2.1 (by decide)
    rcases hServed.2 hFirst with hZero | ⟨m, hLess, hm, -, hEvent⟩
    · exact absurd hZero (by decide)
    · obtain rfl := Nat.eq_zero_of_dvd_of_lt hm hLess
      exact absurd hEvent (by decide)
  · rw [countsSteps_iff inThree uint16 (by decide)]
    decide
  · rw [spansRest_iff]
    intro h
    have hCut := h [] ((Chunk.ofHeader .noChunk [1, 2, 3, 4]).sub 2 2) [] 0 rfl (by decide) (by decide)
    exact absurd hCut.1 (by decide)

end IterableSpan

end Wwatp
