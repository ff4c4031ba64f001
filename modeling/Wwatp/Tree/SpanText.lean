import Wwatp.Tree.TextRoundTrip

/-! The text form of a `shared_span`: what `operator<<` writes, and what `operator>>` makes of it. -/
namespace Wwatp

open Cxx Cxx.Reader IStream

/-- Two digits of a byte. -/
def hexDigits (b : UInt8) : Str := padLeft 2 (chr '0') (toBase 16 b.toNat)

/-- Bytes as digits, with an end of line after every 16th from the start. -/
def hexLines : ℕ → List UInt8 → Str
  | _, [] => []
  | count, b :: bytes => hexDigits b ++ (if count % 16 = 15 then str "\n" else []) ++ hexLines (count + 1) bytes

namespace SharedSpan

/-- The first bytes of the memory of a chunk. `memory` has what is there behind the bytes that are known. -/
def headerBytes (memory : ℕ → UInt8) (c : Chunk) (count : ℕ) : List UInt8 :=
  (List.range count).map fun i => c.data.getD i (memory i)

/-- `shared_span::write`. -/
def write (memory : ℕ → UInt8) (s : SharedSpan) : Outcome Str :=
  match s.chunks with
  | [] => .ok (str "shared_span( " ++ str "signal_type: 0 " ++ str "signal_size: 0 " ++ str "data_size: 0 " ++
      str "chunk_data: [\n" ++ str "])\n")
  | c :: _ => do
    let signalSize ← s.getSignalSize
    return str "shared_span( " ++ str "signal_type: " ++ toDecimal s.signalType.toNat ++ str " " ++
      str "signal_size: " ++ toDecimal signalSize ++ str " " ++ str "data_size: " ++ toDecimal s.size ++ str " " ++
      str "chunk_data: [\n" ++ hexLines 0 (headerBytes memory c signalSize ++ s.bytes) ++ str "])\n"

/-- A span without chunks is written like hidden contents. -/
theorem write_of_nil (memory : ℕ → UInt8) {s : SharedSpan} (h : s.chunks = []) : s.write memory = .ok hiddenContentsText := by
  rw [write, h]
  exact congrArg Except.ok (by decide +kernel)

theorem length_headerBytes (memory : ℕ → UInt8) (c : Chunk) (count : ℕ) : (headerBytes memory c count).length = count := by
  rw [headerBytes, List.length_map, List.length_range]

end SharedSpan

section Digits

variable {tail : Str}

theorem hexByte_hexDigits (b : UInt8) : hexByte (hexDigits b) = .ok b := by
  have hAll : ∀ n : Fin 256, hexByte (hexDigits (.ofNat n)) = .ok (.ofNat n) := by decide +kernel
  have hByte := hAll ⟨b.toNat, b.toNat_lt⟩
  rwa [show UInt8.ofNat b.toNat = b from UInt8.ofNat_toNat] at hByte

theorem hexDigits_eq (b : UInt8) : ∃ high low, hexDigits b = [high, low] ∧ isSpace high = false ∧ isSpace low = false := by
  have hAll : ∀ n : Fin 256, (hexDigits (.ofNat n)).length = 2 ∧ (hexDigits (.ofNat n)).all (!isSpace ·) = true := by
    decide +kernel
  obtain ⟨hLength, hSpace⟩ := hAll ⟨b.toNat, b.toNat_lt⟩
  rw [show UInt8.ofNat (⟨b.toNat, b.toNat_lt⟩ : Fin 256).val = b from UInt8.ofNat_toNat] at hLength hSpace
  obtain ⟨high, low, hDigits⟩ := List.length_eq_two.mp hLength
  rw [hDigits] at hSpace
  exact ⟨high, low, hDigits, by simpa using hSpace⟩

theorem readNonSpaceFuel_space {c : UInt8} (hc : isSpace c = true) (fuel count : ℕ) (rest : Str) :
    readNonSpaceFuel (fuel + 1) (count + 1) (ofStr (c :: rest)) = readNonSpaceFuel fuel (count + 1) (ofStr rest) := by
  rw [readNonSpaceFuel, bind_ok (get_ofStr c rest)]
  simp only [hc, if_true]

theorem readNonSpaceFuel_byte {c : UInt8} (hc : isSpace c = false) {fuel count : ℕ} {rest more : Str} {s : IStream}
    (h : readNonSpaceFuel fuel count (ofStr rest) = .ok (more, s)) :
    readNonSpaceFuel (fuel + 1) (count + 1) (ofStr (c :: rest)) = .ok (c :: more, s) := by
  rw [readNonSpaceFuel, bind_ok (get_ofStr c rest)]
  simp only [hc, Bool.false_eq_true, if_false]
  rw [bind_ok h]
  rfl

/-- Bytes that are not white space are read behind white space. -/
theorem reads_nonSpace {spaces : Str} (hSpaces : ∀ b ∈ spaces, isSpace b = true) {high low : UInt8}
    (hHigh : isSpace high = false) (hLow : isSpace low = false) :
    Reads (readNonSpace 2) (spaces ++ [high, low]) tail [high, low] := by
  have hFuel (more : ℕ) : readNonSpaceFuel (spaces.length + (more + 2)) 2 (ofStr (spaces ++ high :: low :: tail)) =
      .ok ([high, low], ofStr tail) := by
    induction spaces with
    | nil =>
        rw [List.length_nil, Nat.zero_add]
        exact readNonSpaceFuel_byte hHigh (readNonSpaceFuel_byte hLow (by cases more <;> rfl))
    | cons space spaces ih =>
        obtain ⟨hSpace, hRest⟩ := List.forall_mem_cons.mp hSpaces
        rw [List.length_cons, Nat.add_right_comm, List.cons_append, readNonSpaceFuel_space hSpace, ih hRest]
  have hLength : (ofStr (spaces ++ high :: low :: tail)).rest.length + 1 = spaces.length + (tail.length + 1 + 2) := by
    simp only [ofStr, List.length_append, List.length_cons]
    omega
  rw [Reads, List.append_assoc]
  show readNonSpaceFuel ((ofStr (spaces ++ high :: low :: tail)).rest.length + 1) 2 _ = _
  rw [hLength]
  exact hFuel _

/-- Bytes are read from their lines; an end of line behind them is left. -/
theorem reads_hexLines {spaces : Str} (hSpaces : ∀ b ∈ spaces, isSpace b = true) (count : ℕ) (bytes : List UInt8) :
    ∃ lines rest, spaces ++ hexLines count bytes = lines ++ rest ∧ (∀ b ∈ rest, isSpace b = true) ∧
      ∀ tail, Reads (readHexBytes bytes.length) lines (rest ++ tail) bytes := by
  induction bytes generalizing spaces count with
  | nil => exact ⟨[], spaces, by rw [hexLines, List.append_nil, List.nil_append], hSpaces, fun tail => reads_pure []⟩
  | cons b bytes ih =>
      have hEnd : ∀ c ∈ (if count % 16 = 15 then str "\n" else []), isSpace c = true := by
        split_ifs
        · decide +kernel
        · exact List.forall_mem_nil _
      obtain ⟨lines, rest, hText, hRest, hReads⟩ := ih hEnd (count + 1)
      obtain ⟨high, low, hDigits, hHigh, hLow⟩ := hexDigits_eq b
      refine ⟨spaces ++ [high, low] ++ ([] ++ lines), rest, ?_, hRest, fun tail => ?_⟩
      · rw [hexLines, hDigits, List.append_assoc, hText]
        simp only [List.append_assoc, List.nil_append]
      · rw [List.length_cons, readHexBytes]
        refine (reads_nonSpace hSpaces hHigh hLow).bind ?_
        rw [if_neg (by simp)]
        refine (reads_lift (hDigits ▸ hexByte_hexDigits b)).bind ?_
        exact (hReads tail).map rfl

end Digits

namespace SharedSpan

variable {s : SharedSpan} {c : Chunk} {rest : List Chunk} {memory : ℕ → UInt8}

/-- The bytes that a span with chunks is written as, if it has a header. -/
def writtenBytes (memory : ℕ → UInt8) (s : SharedSpan) (c : Chunk) (signalSize : ℕ) : List UInt8 :=
  headerBytes memory c signalSize ++ s.bytes

/-- What is read back is made of the bytes that were written. -/
theorem readSpan_write (memory : ℕ → UInt8) (hChunks : s.chunks = c :: rest) {signalSize : ℕ} (hSignal : s.getSignalSize = .ok signalSize)
    (hPos : 0 < signalSize) (hFits : signalSize + s.size < 2 ^ 63) :
    ∃ text stream, s.write memory = .ok text ∧
      readSpan (ofStr text) = (createFromData (writtenBytes memory s c signalSize)).map fun t => (t, stream) := by
  obtain ⟨lines, more, hText, hMore, hLines⟩ :=
    reads_hexLines (show ∀ b ∈ str "\n", isSpace b = true by decide +kernel) 0 (writtenBytes memory s c signalSize)
  have hLength : (writtenBytes memory s c signalSize).length = signalSize + s.size := by
    rw [writtenBytes, List.length_append, length_headerBytes, s.size_eq_bytes_length]
  have hBody (tail : Str) : lines ++ (more ++ tail) = str "\n" ++ (hexLines 0 (writtenBytes memory s c signalSize) ++ tail) := by
    rw [← List.append_assoc, ← hText, List.append_assoc]
  have hWrite : s.write memory = .ok (str "shared_span(" ++ (str " signal_type:" ++ ((str " " ++ toDecimal s.signalType.toNat) ++
      (str " signal_size:" ++ ((str " " ++ toDecimal signalSize) ++ (str " data_size:" ++ ((str " " ++ toDecimal s.size) ++
        ([] ++ ([] ++ (str " chunk_data:" ++ (str " [" ++ (lines ++ (more ++ str "])")))))))))))) ++ str "\n") := by
    rw [write, hChunks]
    dsimp only
    rw [hSignal, Outcome.ok_bind, Outcome.pure_eq_ok]
    simp only [List.append_assoc, List.nil_append]
    rw [hBody]
    rfl
  have hTotal : (signalSize + s.size) % 2 ^ 64 = signalSize + s.size := Nat.mod_eq_of_lt (by omega)
  refine ⟨_, ofStr (str "\n"), hWrite, ?_⟩
  refine (reads_first (str "shared_span(") (by decide +kernel) (by rfl)).goesOn ?_
  refine (reads_label (str "signal_type:") (by decide +kernel) (by rfl)).goesOn ?_
  refine (reads_unsigned (lt_trans s.signalType.toNat_lt (by decide)) (str " ") (by decide +kernel) (by rfl)).goesOn ?_
  refine (reads_label (str "signal_size:") (by decide +kernel) (by rfl)).goesOn ?_
  refine (reads_unsigned (by omega) (str " ") (by decide +kernel) (by rfl)).goesOn ?_
  refine (reads_label (str "data_size:") (by decide +kernel) (by rfl)).goesOn ?_
  refine (reads_unsigned (by omega) (str " ") (by decide +kernel) (by rfl)).goesOn ?_
  refine (reads_written signalSize).goesOn ?_
  refine (reads_written s.size).goesOn ?_
  refine (reads_label (str "chunk_data:") (by decide +kernel) (by rfl)).goesOn ?_
  refine (reads_label (str "[") (by decide +kernel) (by rw [hBody]; rfl)).goesOn ?_
  rw [hTotal, if_neg (by omega)]
  have hBytes := hLines (str "])" ++ str "\n")
  rw [hLength, ← List.append_assoc more] at hBytes
  refine hBytes.goesOn ?_
  refine bind_ok (reads_word [] more hMore (by decide) (by decide +kernel) (by rfl)) |>.trans ?_
  rw [if_neg (by omega)]
  cases createFromData (writtenBytes memory s c signalSize) <;> rfl

/-- `sizeof` of the header of a signal type. -/
def signalWidth (signalType : UInt8) : ℕ := if signalType = 0 then 1 else if signalType = 1 then 4 else 6

theorem signalType_cases {b : UInt8} (h : b ≤ 2) : b = 0 ∨ b = 1 ∨ b = 2 := by
  have hValue : b.toNat ≤ 2 := UInt8.le_iff_toNat_le.mp h
  have hZero : b = 0 ↔ b.toNat = 0 := by rw [← UInt8.toNat_inj]; rfl
  have hOne : b = 1 ↔ b.toNat = 1 := by rw [← UInt8.toNat_inj]; rfl
  have hTwo : b = 2 ↔ b.toNat = 2 := by rw [← UInt8.toNat_inj]; rfl
  rw [hZero, hOne, hTwo]
  omega

/-- The wider of two headers is that of the greater type. -/
theorem signalWidth_lt_iff {a b : UInt8} (ha : a ≤ 2) (hb : b ≤ 2) : signalWidth a < signalWidth b ↔ a < b := by
  rcases signalType_cases ha with rfl | rfl | rfl <;> rcases signalType_cases hb with rfl | rfl | rfl <;> decide

theorem signalWidth_inj {a b : UInt8} (ha : a ≤ 2) (hb : b ≤ 2) : signalWidth a = signalWidth b ↔ a = b := by
  rcases signalType_cases ha with rfl | rfl | rfl <;> rcases signalType_cases hb with rfl | rfl | rfl <;> decide

theorem getSignalSize_of_le (hNe : s.chunks ≠ []) (h : s.signalType ≤ 2) : s.getSignalSize = .ok (signalWidth s.signalType) := by
  rw [getSignalSize, if_neg hNe]
  rcases signalType_cases h with hType | hType | hType <;> rw [hType] <;> rfl

/-- The span that is created has the bytes behind the header of the type that the first byte names. -/
theorem bytes_createFromData {b : UInt8} (hb : b ≤ 2) (data : List UInt8) :
    ∃ t, createFromData (b :: data) = .ok t ∧ t.bytes = (b :: data).drop (signalWidth b) := by
  have hPartial (b : UInt8) (hShort : (b :: data).length ≤ 6) : (partialHeader b data).bytes = [] := by
    rw [partialHeader, bytes, List.flatMap_singleton, Chunk.body]
    exact List.drop_eq_nil_of_le (Nat.le_refl _)
  rcases signalType_cases hb with rfl | rfl | rfl
  · exact ⟨_, rfl, bytes_ofSignal _ _⟩
  · by_cases hWhole : 4 ≤ ((1 : UInt8) :: data).length
    · refine ⟨ofSignal (.signal (.ofBytes (1 :: data))) (((1 : UInt8) :: data).drop 4), ?_, bytes_ofSignal _ _⟩
      rw [createFromData, if_neg (by decide), if_pos rfl, if_pos hWhole]
    · refine ⟨partialHeader 1 data, ?_, ?_⟩
      · rw [createFromData, if_neg (by decide), if_pos rfl, if_neg hWhole]
      · rw [hPartial 1 (by omega), List.drop_eq_nil_of_le]
        show _ ≤ 4
        omega
  · by_cases hWhole : 6 ≤ ((2 : UInt8) :: data).length
    · refine ⟨ofSignal (.payload (.ofBytes (2 :: data))) (((2 : UInt8) :: data).drop 6), ?_, bytes_ofSignal _ _⟩
      rw [createFromData, if_neg (by decide), if_neg (by decide), if_pos rfl, if_pos hWhole]
    · refine ⟨partialHeader 2 data, ?_, ?_⟩
      · rw [createFromData, if_neg (by decide), if_neg (by decide), if_pos rfl, if_neg hWhole]
      · rw [hPartial 2 (by omega), List.drop_eq_nil_of_le]
        show _ ≤ 6
        omega

end SharedSpan

/-- The first byte of the memory of a chunk, which names the type of the header there. -/
def Chunk.signalByte (c : Chunk) : UInt8 := c.data.headD 0

namespace SharedSpan

variable {s : SharedSpan} {c : Chunk} {rest : List Chunk} {memory : ℕ → UInt8}

theorem headerBytes_eq (memory : ℕ → UInt8) (c : Chunk) {count : ℕ} (h : 0 < count) :
    ∃ more, headerBytes memory c count = c.signalByte :: more := by
  obtain ⟨count, rfl⟩ := Nat.exists_eq_add_of_lt h
  rw [Nat.zero_add, headerBytes, List.range_succ_eq_map, List.map_cons]
  refine ⟨_, congrArg (· :: _) ?_⟩
  have hFirst := c.first_pos
  have hLe := c.first_le
  rw [Chunk.signalByte]
  cases hData : c.data with
  | nil =>
      rw [hData, List.length_nil] at hLe
      omega
  | cons b data => rfl

/-- What `operator>>` reads from what `operator<<` wrote has the bytes of the span. -/
def ReadsBack (memory : ℕ → UInt8) (s : SharedSpan) : Prop :=
  ∃ text t stream, s.write memory = .ok text ∧ readSpan (ofStr text) = .ok (t, stream) ∧ t.bytes = s.bytes

/-- The first chunk has a header of the span's type, or, in a span without bytes, of a type with a wider header. -/
def HeaderFits (s : SharedSpan) : Prop :=
  ∀ c ∈ s.chunks.head?, c.signalByte = s.signalType ∨ (s.bytes = [] ∧ s.signalType < c.signalByte)

/-- Dropping from a text with a front leaves the back. -/
theorem drop_append_eq_iff (front back : List UInt8) (k : ℕ) :
    (front ++ back).drop k = back ↔ k = front.length ∨ (back = [] ∧ front.length < k) := by
  constructor
  · intro h
    have hLength := congrArg List.length h
    rw [List.length_drop, List.length_append] at hLength
    by_cases hBack : back = []
    · subst hBack
      rw [List.length_nil] at hLength
      simp only [true_and]
      omega
    · have hPos := List.length_pos_of_ne_nil hBack
      exact Or.inl (by omega)
  · rintro (rfl | ⟨rfl, hLt⟩)
    · exact List.drop_left
    · exact List.drop_eq_nil_of_le (by rw [List.append_nil]; omega)

/-- A span is read back exactly when the header of its first chunk fits its type. -/
theorem readsBack_iff (hType : s.signalType ≤ 2) (hFirst : ∀ c ∈ s.chunks.head?, c.signalByte ≤ 2) (hFits : s.size + 6 < 2 ^ 63) :
    ReadsBack memory s ↔ s.HeaderFits := by
  cases hChunks : s.chunks with
  | nil =>
      have hBytes : s.bytes = [] := by rw [bytes, hChunks, List.flatMap_nil]
      have hText : hiddenContentsText = hiddenContentsText.dropLast ++ str "\n" := by decide +kernel
      refine iff_of_true ⟨_, .empty, ofStr (str "\n"), write_of_nil memory hChunks, ?_, by rw [hBytes]; rfl⟩ ?_
      · rw [hText]
        exact reads_hiddenContents (by rfl)
      · rw [HeaderFits, hChunks]
        intro c hc
        cases hc
  | cons c rest =>
      have hc : c.signalByte ≤ 2 := hFirst c (by rw [hChunks]; rfl)
      have hPos : 0 < signalWidth s.signalType := by
        rcases signalType_cases hType with h | h | h <;> rw [h] <;> decide
      have hLe : signalWidth s.signalType ≤ 6 := by
        rcases signalType_cases hType with h | h | h <;> rw [h] <;> decide
      obtain ⟨text, stream, hWrite, hRead⟩ := readSpan_write memory hChunks
        (getSignalSize_of_le (by rw [hChunks]; simp) hType) hPos (by omega)
      obtain ⟨more, hHeader⟩ := headerBytes_eq memory c hPos
      obtain ⟨t, hCreate, hBytes⟩ := bytes_createFromData hc (more ++ s.bytes)
      have hWritten : writtenBytes memory s c (signalWidth s.signalType) = c.signalByte :: (more ++ s.bytes) := by
        rw [writtenBytes, hHeader, List.cons_append]
      have hSame : t.bytes = s.bytes ↔ s.HeaderFits := by
        rw [hBytes, ← hWritten, writtenBytes, drop_append_eq_iff, length_headerBytes, signalWidth_inj hc hType,
          signalWidth_lt_iff hType hc, HeaderFits, hChunks]
        simp
      rw [← hSame]
      rw [hWritten, hCreate] at hRead
      constructor
      · rintro ⟨text', t', stream', hWrite', hRead', hBytes'⟩
        obtain rfl := Except.ok.inj (hWrite.symm.trans hWrite')
        obtain ⟨rfl, -⟩ := Prod.mk.inj (Except.ok.inj (hRead.symm.trans hRead'))
        exact hBytes'
      · exact fun h => ⟨text, t, stream, hWrite, hRead, h⟩

end SharedSpan

end Wwatp
