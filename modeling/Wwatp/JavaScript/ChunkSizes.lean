import Wwatp.Cxx.Doubles
import Wwatp.Cxx.Loops
import Wwatp.JavaScript.Framing

/-! The loop that cuts the data of the JavaScript client into chunks of a given size: when it ends, and when the
chunks keep to the size. -/
namespace Wwatp
namespace JavaScript

open Cxx

/-- A `Uint8Array`, as long as one may be. -/
structure Uint8Array where
  bytes : List UInt8
  bounded : bytes.length < 2 ^ 53

def Uint8Array.byteLength (data : Uint8Array) : ℕ := data.bytes.length

/-- `slice(start, stop)` -/
def Uint8Array.slice (data : Uint8Array) (start stop : Double) : List UInt8 :=
  (data.bytes.take (stop.toIndex data.byteLength)).drop (start.toIndex data.byteLength)

def SpanChunk.wireSize (chunk : SpanChunk) : ℕ :=
  chunk.header.size + if chunk.hasPayloadHeader then chunk.payload.length else 0

/-- `DEFAULT_CHUNK_SIZE` -/
def defaultChunkSize : Double := .finite 1200

/-- `Math.max(0, maxChunkSize - headerSize)` -/
def payloadRoom (maxChunkSize : Double) : Double := (Double.finite 0).max (maxChunkSize.sub (.finite 6))

/-- The variables of the loop of `flattenWithSignal`. -/
structure Cut where
  ofs : Double
  out : List SpanChunk

/-- A round of the loop. -/
def flattenStep (dataBytes : Uint8Array) (signal : UInt8) (requestId : UInt16) (maxPayload : Double) (s : Cut) :
    Option Cut :=
  if s.ofs.lt (.finite dataBytes.byteLength) then
    let slice := dataBytes.slice s.ofs ((s.ofs.add maxPayload).min (.finite dataBytes.byteLength))
    some ⟨s.ofs.add maxPayload, s.out ++ [.ofPayload requestId signal slice]⟩
  else none

/-- `flattenWithSignal(dataBytes, signal, requestId, maxChunkSize)` returns these chunks; the size may be left
out. -/
def Flattens (dataBytes : Uint8Array) (signal : UInt8) (requestId : UInt16) (maxChunkSize : Option Double)
    (chunks : List SpanChunk) : Prop :=
  ∃ n s, LoopRun (flattenStep dataBytes signal requestId (payloadRoom (maxChunkSize.getD defaultChunkSize)))
      ⟨.finite 0, []⟩ n s ∧
    chunks = if s.out.length = 0 then [.ofPayload requestId signal []] else s.out

/-- The offset after some rounds: a multiple of the step, as its additions round it. -/
def offset (step : Double) : ℕ → Double
  | 0 => .finite 0
  | k + 1 => (offset step k).add step

/-- There is room for a header, and for a byte if there is any data. The step may have a fraction, but the rounded
multiples of it do not gain a byte before the end of the data. -/
def LeavesRoom (length : ℕ) : Double → Prop
  | .nan => False
  | .infinite negative => negative = false
  | .finite size =>
    6 ≤ size ∧ (length = 0 ∨ 7 ≤ size ∧ ∀ k : ℕ, k * (⌊size⌋₊ - 6) < length →
      (offset (payloadRoom (.finite size)) k).lt (.finite ((k * (⌊size⌋₊ - 6) : ℕ) + 1)) = true)

section Offsets

variable {step : Double} {room length k : ℕ}

/-- The offsets are whole multiples of the room, but for a fraction of a byte. -/
structure Steady (step : Double) (room length : ℕ) : Prop where
  below : ∀ k, k * room < length → (offset step k).lt (.finite ((k * room : ℕ) + 1)) = true
  reaches : ∀ k, k * room < length →
    (Double.finite (min ((k + 1) * room) length : ℕ)).le (offset step (k + 1)) = true

/-- What an offset has reached. -/
theorem le_offset (hReaches : ∀ j < k, (Double.finite (min ((j + 1) * room) length : ℕ)).le (offset step (j + 1)) = true)
    (hk : k * room ≤ length) : (Double.finite (k * room : ℕ)).le (offset step k) = true := by
  cases k with
  | zero => simp [offset]
  | succ k =>
      have h := hReaches k (Nat.lt_succ_self k)
      rwa [Nat.min_eq_left hk] at h

theorem Steady.le_offset (h : Steady step room length) (hk : k * room < length) :
    (Double.finite (k * room : ℕ)).le (offset step k) = true := by
  refine JavaScript.le_offset (fun j hj => ?_) hk.le
  exact h.reaches j ((Nat.mul_le_mul_right room hj.le).trans_lt hk)

/-- An offset before the end, and what is cut off at the end, as indices. -/
theorem Steady.toIndex (h : Steady step room length) (hk : k * room < length) :
    (offset step k).toIndex length = k * room ∧
      ((offset step (k + 1)).min (.finite length)).toIndex length = min ((k + 1) * room) length := by
  refine ⟨Double.toIndex_of_between (h.le_offset hk) (h.below k hk) hk.le, ?_⟩
  by_cases hNext : (k + 1) * room < length
  · rw [Nat.min_eq_left hNext.le]
    apply Nat.le_antisymm
    · exact Double.toIndex_min_le (h.le_offset hNext) (h.below (k + 1) hNext)
    · exact Double.le_toIndex_min (h.le_offset hNext) hNext.le
  · have hReaches := h.reaches k hk
    rw [Nat.min_eq_right (by omega)] at hReaches ⊢
    apply Nat.le_antisymm
    · apply Double.toIndex_le
      rcases h' : offset step (k + 1) with _ | negative | o
      · rw [h'] at hReaches
        cases hReaches
      · cases negative <;> simp_all [Double.min, Double.le, Double.lt]
      · rw [h'] at hReaches
        have hLength : (0 : ℚ) ≤ length := Nat.cast_nonneg length
        simp only [Double.finite_le_finite, decide_eq_true_eq] at hReaches
        simp only [Double.min, reduceCtorEq, or_self, if_false, Double.finite_lt_finite, decide_eq_true_eq]
        split_ifs
        · simp
        · simpa using hLength.trans hReaches
    · exact Double.le_toIndex_min hReaches (Nat.le_refl _)

end Offsets

section Rounds

variable {dataBytes : Uint8Array} {signal : UInt8} {requestId : UInt16} {step : Double} {room n k : ℕ} {s t : Cut}

/-- The chunk of a round. -/
def chunkAt (dataBytes : Uint8Array) (signal : UInt8) (requestId : UInt16) (step : Double) (k : ℕ) : SpanChunk :=
  .ofPayload requestId signal
    (dataBytes.slice (offset step k) ((offset step (k + 1)).min (.finite dataBytes.byteLength)))

theorem flattenStep_offset (signal : UInt8) (requestId : UInt16) (out : List SpanChunk) (h : (offset step k).lt (.finite dataBytes.byteLength) = true) :
    flattenStep dataBytes signal requestId step ⟨offset step k, out⟩ =
      some ⟨offset step (k + 1), out ++ [chunkAt dataBytes signal requestId step k]⟩ := by
  rw [flattenStep, if_pos h]
  rfl

theorem flattenStep_end (h : s.ofs.lt (.finite dataBytes.byteLength) = false) :
    flattenStep dataBytes signal requestId step s = none := by
  rw [flattenStep, if_neg (by simp [h])]

/-- Every round adds a payload chunk and keeps the earlier ones. -/
theorem out_of_flattenStep (h : flattenStep dataBytes signal requestId step s = some t) :
    ∃ payload, t.out = s.out ++ [.ofPayload requestId signal payload] := by
  rw [flattenStep] at h
  split_ifs at h
  exact ⟨_, congrArg Cut.out (Option.some.inj h).symm⟩

theorem mem_out_of_run {chunk : SpanChunk} (h : LoopRun (flattenStep dataBytes signal requestId step) s n t)
    (hChunk : chunk ∈ s.out) : chunk ∈ t.out := by
  apply (h.invariant (P := fun s => chunk ∈ s.out) _ hChunk).1
  intro s t hMem hNext
  obtain ⟨payload, hOut⟩ := out_of_flattenStep hNext
  rw [hOut]
  exact List.mem_append_left _ hMem

theorem ofPayload_of_run (h : LoopRun (flattenStep dataBytes signal requestId step) s n t)
    (hPayload : ∀ chunk ∈ s.out, ∃ payload, chunk = .ofPayload requestId signal payload) :
    ∀ chunk ∈ t.out, ∃ payload, chunk = .ofPayload requestId signal payload := by
  apply (h.invariant (P := fun s => ∀ chunk ∈ s.out, ∃ payload, chunk = .ofPayload requestId signal payload) _ hPayload).1
  intro s t hAll hNext
  obtain ⟨payload, hOut⟩ := out_of_flattenStep hNext
  rw [hOut]
  intro chunk hChunk
  rcases List.mem_append.mp hChunk with hOld | hNew
  · exact hAll chunk hOld
  · exact ⟨payload, List.mem_singleton.mp hNew⟩

/-- A run comes through every offset with those before it inside the data. -/
theorem run_from_offset (h : LoopRun (flattenStep dataBytes signal requestId step) ⟨.finite 0, []⟩ n t)
    (hInside : ∀ j < k, (offset step j).lt (.finite dataBytes.byteLength) = true) :
    ∃ m out, LoopRun (flattenStep dataBytes signal requestId step) ⟨offset step k, out⟩ m t := by
  induction k with
  | zero => exact ⟨n, [], h⟩
  | succ k ih =>
      obtain ⟨m, out, hRun⟩ := ih fun j hj => hInside j (Nat.lt_succ_of_lt hj)
      have hStep := flattenStep_offset signal requestId out (hInside k (Nat.lt_succ_self k))
      cases hRun with
      | ends hEnd =>
          rw [hEnd] at hStep
          cases hStep
      | goes hNext rest =>
          rw [hStep] at hNext
          obtain rfl := Option.some.inj hNext
          exact ⟨_, _, rest⟩

theorem chunkAt_mem (h : LoopRun (flattenStep dataBytes signal requestId step) ⟨.finite 0, []⟩ n t)
    (hInside : ∀ j ≤ k, (offset step j).lt (.finite dataBytes.byteLength) = true) :
    chunkAt dataBytes signal requestId step k ∈ t.out := by
  obtain ⟨m, out, hRun⟩ := run_from_offset h fun j hj => hInside j hj.le
  have hStep := flattenStep_offset signal requestId out (hInside k (Nat.le_refl k))
  cases hRun with
  | ends hEnd =>
      rw [hEnd] at hStep
      cases hStep
  | goes hNext rest =>
      rw [hStep] at hNext
      obtain rfl := Option.some.inj hNext
      exact mem_out_of_run rest (by simp)

/-- With steady offsets the loop cuts the data into blocks. -/
theorem run_of_steady (hRoom : 0 < room) (h : Steady step room dataBytes.byteLength) (signal : UInt8)
    (requestId : UInt16) (out : List SpanChunk) (hk : k * room < dataBytes.byteLength) :
    ∃ n t, LoopRun (flattenStep dataBytes signal requestId step) ⟨offset step k, out⟩ n t ∧
      t.out = out ++ ((dataBytes.bytes.drop (k * room)).blocks room).map (.ofPayload requestId signal) := by
  induction hRest : dataBytes.byteLength - k * room using Nat.strong_induction_on generalizing k out with
  | _ rest ih =>
      subst hRest
      obtain ⟨hStart, hStop⟩ := h.toIndex hk
      have hInside : (offset step k).lt (.finite dataBytes.byteLength) = true := by
        obtain ⟨o, ho, -, hHigh⟩ := Double.exists_finite (h.le_offset hk) (h.below k hk)
        have hBound : ((k * room : ℕ) : ℚ) + 1 ≤ dataBytes.byteLength := by exact_mod_cast hk
        rw [ho]
        simpa using hHigh.trans_le hBound
      have hStep := flattenStep_offset signal requestId out hInside
      have hSlice : chunkAt dataBytes signal requestId step k =
          .ofPayload requestId signal ((dataBytes.bytes.drop (k * room)).take room) := by
        have hMin : min ((k + 1) * room) dataBytes.byteLength - k * room = min room (dataBytes.byteLength - k * room) := by
          rw [Nat.succ_mul]
          omega
        have hTake : (dataBytes.bytes.drop (k * room)).take (min room (dataBytes.byteLength - k * room)) =
            (dataBytes.bytes.drop (k * room)).take room := by
          rw [List.take_eq_take_iff, List.length_drop, Uint8Array.byteLength]
          omega
        rw [chunkAt, Uint8Array.slice, hStart, hStop, List.drop_take, hMin, hTake]
      have hNe : dataBytes.bytes.drop (k * room) ≠ [] := by
        rw [Ne, List.drop_eq_nil_iff]
        exact not_le.mpr hk
      have hNextDrop : (dataBytes.bytes.drop (k * room)).drop room = dataBytes.bytes.drop ((k + 1) * room) := by
        rw [List.drop_drop, Nat.succ_mul]
      rw [hSlice] at hStep
      by_cases hNext : (k + 1) * room < dataBytes.byteLength
      · have hLess : dataBytes.byteLength - (k + 1) * room < dataBytes.byteLength - k * room := by
          rw [Nat.succ_mul] at hNext ⊢
          omega
        obtain ⟨n, t, hRun, hOut⟩ := ih _ hLess
          (out ++ [.ofPayload requestId signal ((dataBytes.bytes.drop (k * room)).take room)]) hNext rfl
        refine ⟨n + 1, t, .goes hStep hRun, ?_⟩
        rw [hOut, List.blocks_of_ne_nil hRoom hNe, hNextDrop]
        simp
      · have hEnd := h.reaches k hk
        rw [Nat.min_eq_right (by omega)] at hEnd
        refine ⟨1, _, .goes hStep (.ends (flattenStep_end (Double.not_lt_of_le hEnd))), ?_⟩
        rw [List.blocks_of_ne_nil hRoom hNe, hNextDrop, List.drop_of_length_le (not_lt.mp hNext), List.blocks_nil]
        simp

end Rounds

section Sizes

variable {dataBytes : Uint8Array} {signal : UInt8} {requestId : UInt16} {size : ℚ} {step : Double}
  {maxChunkSize : Option Double} {room length k n : ℕ} {chunks : List SpanChunk}

/-- A step that has reached the room reaches it in each round. -/
theorem reaches_of_le (hStep : (Double.finite (min room length : ℕ)).le step = true) (hLength : length < 2 ^ 53)
    (hk : k * room < length) : (Double.finite (min ((k + 1) * room) length : ℕ)).le (offset step (k + 1)) = true := by
  induction k with
  | zero =>
      have hZero : (Double.finite (0 : ℕ)).le (offset step 0) = true := by
        simp [offset]
      exact Double.le_add hZero hStep (by rw [Nat.zero_add, Nat.zero_add, Nat.one_mul]) (by omega)
  | succ k ih =>
      have hBefore : k * room < length := (Nat.mul_le_mul_right room (Nat.le_succ k)).trans_lt hk
      have hReached := ih hBefore
      rw [Nat.min_eq_left hk.le] at hReached
      refine Double.le_add hReached hStep ?_ (by omega)
      rw [Nat.succ_mul (k + 1)]
      omega

/-- The step of a size reaches the whole bytes of its room. -/
theorem le_payloadRoom (hn : n ≤ 2 ^ 53) (h : (n : ℚ) + 6 ≤ size) :
    (Double.finite n).le (payloadRoom (.finite size)) = true := by
  apply Double.le_max_of_le
  apply Double.natCast_le_ofRat hn
  linarith

theorem floor_room (h : 7 ≤ size) : 0 < ⌊size⌋₊ - 6 ∧ ((⌊size⌋₊ - 6 : ℕ) : ℚ) + 6 ≤ size := by
  have hSeven : 7 ≤ ⌊size⌋₊ := Nat.le_floor (by exact_mod_cast h)
  have hFloor : (⌊size⌋₊ : ℚ) ≤ size := Nat.floor_le (by linarith)
  refine ⟨by omega, ?_⟩
  have hSum : (⌊size⌋₊ - 6 : ℕ) + 6 = ⌊size⌋₊ := by omega
  exact_mod_cast hSum ▸ hFloor

theorem reaches_of_finite (h : 7 ≤ size) (hLength : length < 2 ^ 53) (hk : k * (⌊size⌋₊ - 6) < length) :
    (Double.finite (min ((k + 1) * (⌊size⌋₊ - 6)) length : ℕ)).le (offset (payloadRoom (.finite size)) (k + 1)) = true := by
  apply reaches_of_le _ hLength hk
  apply le_payloadRoom
  · omega
  · have hMin : ((min (⌊size⌋₊ - 6) length : ℕ) : ℚ) ≤ (⌊size⌋₊ - 6 : ℕ) := by exact_mod_cast Nat.min_le_left ..
    linarith [(floor_room h).2]

theorem steady_of_finite (h : 7 ≤ size) (hLength : length < 2 ^ 53)
    (hBelow : ∀ k : ℕ, k * (⌊size⌋₊ - 6) < length →
      (offset (payloadRoom (.finite size)) k).lt (.finite ((k * (⌊size⌋₊ - 6) : ℕ) + 1)) = true) :
    Steady (payloadRoom (.finite size)) (⌊size⌋₊ - 6) length where
  below := hBelow
  reaches _ hk := reaches_of_finite h hLength hk

theorem steady_of_infinite (hLength : length < 2 ^ 53) :
    Steady (payloadRoom (.infinite false)) length length where
  below k hk := by
    obtain rfl : k = 0 := by
      by_contra hk'
      exact absurd hk (not_lt.mpr (Nat.le_mul_of_pos_left length (Nat.pos_of_ne_zero hk')))
    simp [offset]
  reaches k hk := reaches_of_le rfl hLength hk

/-- Whole sizes have no fractions to gain a byte from. -/
theorem leavesRoom_natCast (hLength : length < 2 ^ 53) (n : ℕ) :
    LeavesRoom length (.finite n) ↔ 6 ≤ n ∧ (length = 0 ∨ 7 ≤ n) := by
  have hSix : (6 : ℚ) ≤ n ↔ 6 ≤ n := by norm_cast
  have hSeven : (7 : ℚ) ≤ n ↔ 7 ≤ n := by norm_cast
  rw [LeavesRoom, hSix, hSeven, Nat.floor_natCast]
  refine and_congr_right fun _ => or_congr_right (and_iff_left_of_imp fun hRoom => ?_)
  intro k hk
  have hOffset : offset (payloadRoom (.finite n)) k = .finite (k * (n - 6) : ℕ) := by
    induction k with
    | zero => simp [offset]
    | succ k ih =>
        have hMore : (k + 1) * (n - 6) = k * (n - 6) + (n - 6) := Nat.succ_mul k (n - 6)
        have hStep : payloadRoom (.finite n) = .finite (n - 6 : ℕ) := by
          have hDifference : (n : ℚ) + -6 = (n - 6 : ℕ) := by
            rw [Nat.cast_sub (by omega)]
            norm_num [sub_eq_add_neg]
          have hPositive : (0 : ℚ) < (n - 6 : ℕ) := by exact_mod_cast Nat.sub_pos_of_lt (by omega)
          have hSub : (Double.finite n).sub (.finite 6) = .finite (n - 6 : ℕ) := by
            rw [Double.sub, Double.neg, Double.add, hDifference, Double.ofRat_natCast (by omega)]
          rw [payloadRoom, hSub, Double.max]
          simp only [reduceCtorEq, or_self, if_false, Double.finite_lt_finite, decide_eq_true_eq, if_pos hPositive]
        rw [offset, ih (by omega), hStep, Double.add, ← Nat.cast_add, ← hMore, Double.ofRat_natCast (by omega)]
  rw [hOffset]
  simp

/-- `flattenWithSignal` returns chunks of this size at most that hold the data. -/
def Fits (dataBytes : Uint8Array) (signal : UInt8) (requestId : UInt16) (maxChunkSize : Option Double) : Prop :=
  ∃ chunks, Flattens dataBytes signal requestId maxChunkSize chunks ∧
    (∀ chunk ∈ chunks, (Double.finite chunk.wireSize).le (maxChunkSize.getD defaultChunkSize) = true) ∧
    collectPayloadBytes chunks = dataBytes.bytes

@[simp] theorem wireSize_ofPayload (payload : List UInt8) :
    (SpanChunk.ofPayload requestId signal payload).wireSize = 6 + payload.length := rfl

@[simp] theorem collectPayloadBytes_ofPayload (payloads : List (List UInt8)) :
    collectPayloadBytes (payloads.map (.ofPayload requestId signal)) = payloads.flatten := by
  rw [collectPayloadBytes, List.flatMap_map]
  show List.flatMap id _ = _
  rw [List.flatMap_id]

/-- Without data there is an empty chunk. -/
theorem flattens_empty (hNil : dataBytes.bytes = []) :
    Flattens dataBytes signal requestId maxChunkSize [.ofPayload requestId signal []] := by
  refine ⟨0, _, .ends (flattenStep_end ?_), rfl⟩
  simp [Uint8Array.byteLength, hNil]

/-- With steady offsets the chunks are blocks of the data. -/
theorem flattens_blocks (hNe : dataBytes.bytes ≠ []) (hRoom : 0 < room)
    (h : Steady (payloadRoom (maxChunkSize.getD defaultChunkSize)) room dataBytes.byteLength) :
    Flattens dataBytes signal requestId maxChunkSize ((dataBytes.bytes.blocks room).map (.ofPayload requestId signal)) := by
  have hStart : 0 * room < dataBytes.byteLength := by
    rw [Nat.zero_mul]
    exact List.length_pos_iff.mpr hNe
  obtain ⟨n, t, hRun, hOut⟩ := run_of_steady hRoom h signal requestId [] hStart
  rw [Nat.zero_mul, List.drop_zero, List.nil_append] at hOut
  refine ⟨n, t, hRun, ?_⟩
  rw [hOut, List.length_map, if_neg]
  rw [List.blocks_of_ne_nil hRoom hNe]
  simp

/-- There is always a chunk, and each is a payload chunk. -/
theorem ofPayload_of_flattens (h : Flattens dataBytes signal requestId maxChunkSize chunks) :
    chunks ≠ [] ∧ ∀ chunk ∈ chunks, ∃ payload, chunk = .ofPayload requestId signal payload := by
  obtain ⟨n, s, hRun, rfl⟩ := h
  split_ifs with hEmpty
  · refine ⟨List.cons_ne_nil _ _, fun chunk hChunk => ⟨[], List.mem_singleton.mp hChunk⟩⟩
  · exact ⟨fun hNil => hEmpty (by rw [hNil]; rfl), ofPayload_of_run hRun (by simp)⟩

/-- Chunks that keep to a size without room for a byte hold nothing. -/
theorem collectPayloadBytes_of_narrow (hPayload : ∀ chunk ∈ chunks, ∃ payload, chunk = .ofPayload requestId signal payload)
    (hSizes : ∀ chunk ∈ chunks, (chunk.wireSize : ℚ) ≤ size) (hNarrow : size < 7) : collectPayloadBytes chunks = [] := by
  rw [collectPayloadBytes, List.flatMap_eq_nil_iff]
  intro chunk hChunk
  obtain ⟨payload, rfl⟩ := hPayload chunk hChunk
  have hBound := (hSizes _ hChunk).trans_lt hNarrow
  rw [wireSize_ofPayload] at hBound
  have hLength : 6 + payload.length < 7 := by exact_mod_cast hBound
  obtain rfl : payload = [] := List.length_eq_zero_iff.mp (by omega)
  rfl

/-- The chunk before an offset that has gained a byte is too large. -/
theorem length_chunkAt (signal : UInt8) (requestId : UInt16) (hStart : (offset step k).toIndex dataBytes.byteLength = k * room)
    (hGained : (Double.finite ((k + 1) * room + 1 : ℕ)).le (offset step (k + 1)) = true)
    (hInside : (k + 1) * room < dataBytes.byteLength) :
    6 + room + 1 ≤ (chunkAt dataBytes signal requestId step k).wireSize := by
  have hStop := Double.le_toIndex_min hGained hInside
  rw [chunkAt, wireSize_ofPayload, Uint8Array.slice, hStart, List.length_drop, List.length_take]
  rw [Nat.succ_mul] at hStop hInside
  rw [Uint8Array.byteLength] at *
  omega

theorem lt_length_of_lt {off : Double} (hk : k < length) (h : off.lt (.finite (k + 1)) = true) :
    off.lt (.finite length) = true := by
  have hBound : (k : ℚ) + 1 ≤ length := by exact_mod_cast hk
  cases off with
  | nan => cases h
  | infinite negative => exact h
  | finite o =>
      have hLess : o < k + 1 := by simpa using h
      simpa using hLess.trans_le hBound

/-- Chunks that keep to the size leave the offsets no whole byte. -/
theorem below_of_fits (hSeven : 7 ≤ size) (hSize : maxChunkSize.getD defaultChunkSize = .finite size)
    (h : Flattens dataBytes signal requestId maxChunkSize chunks)
    (hSizes : ∀ chunk ∈ chunks, (chunk.wireSize : ℚ) ≤ size) (hk : k * (⌊size⌋₊ - 6) < dataBytes.byteLength) :
    (offset (payloadRoom (.finite size)) k).lt (.finite ((k * (⌊size⌋₊ - 6) : ℕ) + 1)) = true := by
  obtain ⟨n, s, hRun, hChunks⟩ := h
  rw [hSize] at hRun
  have hReached : ∀ j, j * (⌊size⌋₊ - 6) < dataBytes.byteLength →
      (Double.finite (j * (⌊size⌋₊ - 6) : ℕ)).le (offset (payloadRoom (.finite size)) j) = true := by
    intro j hj
    refine le_offset (fun i hi => ?_) hj.le
    exact reaches_of_finite hSeven dataBytes.bounded ((Nat.mul_le_mul_right _ hi.le).trans_lt hj)
  induction k using Nat.strong_induction_on with
  | _ k ih =>
      cases k with
      | zero => simp [offset]
      | succ k =>
          by_contra hNot
          have hBefore : ∀ j ≤ k, j * (⌊size⌋₊ - 6) < dataBytes.byteLength := fun j hj =>
            (Nat.mul_le_mul_right _ (Nat.le_succ_of_le hj)).trans_lt hk
          have hBelow := fun j (hj : j ≤ k) => ih j (Nat.lt_succ_of_le hj) (hBefore j hj)
          have hMem := chunkAt_mem hRun fun j hj => lt_length_of_lt (hBefore j hj) (hBelow j hj)
          have hOut : chunks = s.out := by
            rw [hChunks, if_neg (List.length_pos_of_mem hMem).ne']
          have hStart := Double.toIndex_of_between (hReached k (hBefore k (Nat.le_refl k))) (hBelow k (Nat.le_refl k))
            (hBefore k (Nat.le_refl k)).le
          have hGained : (Double.finite ((k + 1) * (⌊size⌋₊ - 6) + 1 : ℕ)).le (offset (payloadRoom (.finite size)) (k + 1)) =
              true := by
            refine Double.le_of_not_lt (hReached (k + 1) hk) nofun fun hLess => hNot ?_
            rwa [Nat.cast_succ] at hLess
          have hLarge := length_chunkAt signal requestId hStart hGained hk
          have hFits := hSizes _ (hOut ▸ hMem)
          have hFloor := Nat.lt_floor_add_one size
          have hSeven' : 7 ≤ ⌊size⌋₊ := Nat.le_floor (by exact_mod_cast hSeven)
          have hWire : ⌊size⌋₊ + 1 ≤ (chunkAt dataBytes signal requestId (payloadRoom (.finite size)) k).wireSize := by omega
          have hWire' : (⌊size⌋₊ : ℚ) + 1 ≤ (chunkAt dataBytes signal requestId (payloadRoom (.finite size)) k).wireSize := by
            exact_mod_cast hWire
          linarith

theorem leavesRoom_of_fits (h : Fits dataBytes signal requestId maxChunkSize) :
    LeavesRoom dataBytes.byteLength (maxChunkSize.getD defaultChunkSize) := by
  obtain ⟨chunks, hFlattens, hSizes, hBytes⟩ := h
  obtain ⟨hNe, hPayload⟩ := ofPayload_of_flattens hFlattens
  obtain ⟨chunk, rest, rfl⟩ := List.exists_cons_of_ne_nil hNe
  cases hSize : maxChunkSize.getD defaultChunkSize with
  | nan =>
      have hFirst := hSizes chunk List.mem_cons_self
      rw [hSize] at hFirst
      cases hFirst
  | infinite negative =>
      have hFirst := hSizes chunk List.mem_cons_self
      rw [hSize] at hFirst
      simpa [LeavesRoom] using hFirst
  | finite size =>
      have hSizes' : ∀ c ∈ chunk :: rest, (c.wireSize : ℚ) ≤ size := by
        intro c hc
        simpa [hSize] using hSizes c hc
      have hSix : 6 ≤ size := by
        obtain ⟨payload, rfl⟩ := hPayload chunk List.mem_cons_self
        have hFirst := hSizes' _ List.mem_cons_self
        rw [wireSize_ofPayload] at hFirst
        push_cast at hFirst
        linarith [(Nat.cast_nonneg payload.length : (0 : ℚ) ≤ payload.length)]
      refine ⟨hSix, or_iff_not_imp_left.mpr fun hLength => ?_⟩
      have hSeven : 7 ≤ size := by
        by_contra hNarrow
        rw [collectPayloadBytes_of_narrow hPayload hSizes' (not_le.mp hNarrow)] at hBytes
        exact hLength (by rw [Uint8Array.byteLength, ← hBytes, List.length_nil])
      exact ⟨hSeven, fun k hk => below_of_fits hSeven hSize hFlattens hSizes' hk⟩

theorem fits_of_steady (hNe : dataBytes.bytes ≠ []) (hRoom : 0 < room)
    (h : Steady (payloadRoom (maxChunkSize.getD defaultChunkSize)) room dataBytes.byteLength)
    (hSize : ∀ n : ℕ, n ≤ room → n ≤ dataBytes.byteLength →
      (Double.finite (6 + n : ℕ)).le (maxChunkSize.getD defaultChunkSize) = true) :
    Fits dataBytes signal requestId maxChunkSize := by
  refine ⟨_, flattens_blocks hNe hRoom h, fun chunk hChunk => ?_, ?_⟩
  · obtain ⟨block, hBlock, rfl⟩ := List.mem_map.mp hChunk
    have hLength := (List.length_of_mem_blocks hRoom hBlock).2
    have hPart : block.length ≤ dataBytes.byteLength := by
      rw [Uint8Array.byteLength, ← List.blocks_flatten hRoom dataBytes.bytes, List.length_flatten]
      exact List.single_le_sum (fun _ _ => Nat.zero_le _) _ (List.mem_map_of_mem hBlock)
    exact hSize _ hLength hPart
  · rw [collectPayloadBytes_ofPayload, List.blocks_flatten hRoom]

theorem fits_of_leavesRoom (h : LeavesRoom dataBytes.byteLength (maxChunkSize.getD defaultChunkSize)) :
    Fits dataBytes signal requestId maxChunkSize := by
  by_cases hNil : dataBytes.bytes = []
  · refine ⟨_, flattens_empty hNil, fun chunk hChunk => ?_, hNil.symm⟩
    rw [List.mem_singleton.mp hChunk, wireSize_ofPayload]
    cases hSize : maxChunkSize.getD defaultChunkSize with
    | nan => rw [hSize] at h; cases h
    | infinite negative =>
        rw [hSize] at h
        obtain rfl : negative = false := h
        rfl
    | finite size =>
        rw [hSize] at h
        simpa using h.1
  · cases hSize : maxChunkSize.getD defaultChunkSize with
    | nan => rw [hSize] at h; cases h
    | infinite negative =>
        rw [hSize] at h
        obtain rfl : negative = false := h
        apply fits_of_steady hNil (List.length_pos_iff.mpr hNil)
        · rw [hSize]
          exact steady_of_infinite dataBytes.bounded
        · intro n _ _
          rw [hSize]
          rfl
    | finite size =>
        rw [hSize] at h
        obtain ⟨-, hEmpty | ⟨hSeven, hBelow⟩⟩ := h
        · exact absurd (List.length_eq_zero_iff.mp hEmpty) hNil
        · obtain ⟨hRoom, hFloor⟩ := floor_room hSeven
          apply fits_of_steady hNil hRoom
          · rw [hSize]
            exact steady_of_finite hSeven dataBytes.bounded hBelow
          · intro n hn _
            have hBound : (n : ℚ) ≤ (⌊size⌋₊ - 6 : ℕ) := by exact_mod_cast hn
            rw [hSize, Double.finite_le_finite, decide_eq_true_eq]
            push_cast
            linarith

/-- When the size is left out, these are the chunks that all the encoders use. -/
theorem flattens_default :
    Flattens dataBytes signal requestId none (flattenWithSignal dataBytes.bytes signal requestId) := by
  rw [flattenWithSignal]
  split_ifs with hNil
  · exact flattens_empty hNil
  · have hLeaves := (leavesRoom_natCast dataBytes.bounded 1200).mpr ⟨by norm_num, .inr (by norm_num)⟩
    obtain ⟨-, hEmpty | ⟨hSeven, hBelow⟩⟩ := hLeaves
    · exact absurd (List.length_eq_zero_iff.mp hEmpty) hNil
    · have hSteady := steady_of_finite hSeven dataBytes.bounded hBelow
      rw [Nat.floor_natCast] at hSteady
      exact flattens_blocks hNil (by norm_num) hSteady

/-- A size without room for a byte makes no step. -/
theorem payloadRoom_of_le (h : size ≤ 6) : payloadRoom (.finite size) = .finite 0 := by
  have hNonpos : size + -6 ≤ 0 := by linarith
  rw [payloadRoom, Double.sub, Double.neg, Double.add, Double.ofRat]
  split_ifs with hLarge
  · have hNegative : size + -6 < 0 := by
      rcases hNonpos.lt_or_eq with hLess | hZero
      · exact hLess
      · have hNearest : nearest 0 = 0 := by exact_mod_cast nearest_natCast (n := 0) (by norm_num)
        rw [hZero, hNearest, abs_zero] at hLarge
        exact absurd hLarge (not_le.mpr (by positivity))
    simp [Double.max, hNegative]
  · simp [Double.max, not_lt.mpr (nearest_nonpos hNonpos)]

/-- Then the loop goes on for ever. -/
theorem not_flattens_of_le (h : size ≤ 6) (hSize : maxChunkSize.getD defaultChunkSize = .finite size)
    (hNe : dataBytes.bytes ≠ []) : ¬Flattens dataBytes signal requestId maxChunkSize chunks := by
  rintro ⟨n, s, hRun, -⟩
  rw [hSize, payloadRoom_of_le h] at hRun
  have hLength : 0 < dataBytes.byteLength := List.length_pos_iff.mpr hNe
  have hEnd := hRun.invariant (P := fun s => s.ofs = .finite 0) (fun s t hOfs hNext => ?_) rfl
  · rw [flattenStep, hEnd.1, if_pos (by simpa using hLength)] at hEnd
    cases hEnd.2
  · rw [flattenStep] at hNext
    split_ifs at hNext
    obtain rfl := Option.some.inj hNext
    have hZero := Double.ofRat_natCast (n := 0) (by norm_num)
    rw [Nat.cast_zero] at hZero
    simp only [hOfs, Double.add, add_zero, hZero]

/-- `flattenWithSignal` gives the data back in chunks of the size it is told just if the size leaves room; a whole
size does that if it is seven at least, or six and there is no data. -/
theorem fits_iff_leavesRoom (dataBytes : Uint8Array) (signal : UInt8) (requestId : UInt16) (maxChunkSize : Option Double) :
    (Fits dataBytes signal requestId maxChunkSize ↔
        LeavesRoom dataBytes.byteLength (maxChunkSize.getD defaultChunkSize)) ∧
      ∀ size : ℕ, Fits dataBytes signal requestId (some (.finite size)) ↔
        6 ≤ size ∧ (dataBytes.byteLength = 0 ∨ 7 ≤ size) := by
  have hFits : ∀ maxChunkSize, Fits dataBytes signal requestId maxChunkSize ↔
      LeavesRoom dataBytes.byteLength (maxChunkSize.getD defaultChunkSize) :=
    fun _ => ⟨leavesRoom_of_fits, fits_of_leavesRoom⟩
  refine ⟨hFits maxChunkSize, fun size => ?_⟩
  rw [hFits]
  exact leavesRoom_natCast dataBytes.bounded size

/-- With six bytes the loop never ends on a byte. -/
theorem not_fits_six :
    (∀ chunks, ¬Flattens ⟨[1], by decide⟩ 0x08 1 (some (.finite 6)) chunks) ∧
      ¬Fits ⟨[1], by decide⟩ 0x08 1 (some (.finite 6)) := by
  have hNever : ∀ chunks, ¬Flattens ⟨[1], by decide⟩ 0x08 1 (some (.finite 6)) chunks :=
    fun chunks => not_flattens_of_le (Rat.le_refl (a := 6)) rfl (by simp)
  exact ⟨hNever, fun ⟨chunks, hFlattens, _⟩ => hNever chunks hFlattens⟩

end Sizes

end JavaScript
end Wwatp
