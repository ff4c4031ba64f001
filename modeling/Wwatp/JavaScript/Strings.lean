import Wwatp.JavaScript.Chunks
import Wwatp.JavaScript.Numbers

/-! The strings of JavaScript, which are in UTF-16, as UTF-8 and back, and the numbers written in them. -/
namespace Wwatp
namespace JavaScript

open Cxx

/-- A string: any units of UTF-16. -/
abbrev JSString := List UInt16

/-- The units of a code point. -/
def unitsOf (point : ℕ) : JSString :=
  if point < 0x10000 then [.ofNat point]
  else [.ofNat (0xD800 + (point - 0x10000) / 0x400), .ofNat (0xDC00 + (point - 0x10000) % 0x400)]

def js (s : String) : JSString := s.toList.flatMap fun c => unitsOf c.toNat

/-- A string in ASCII. -/
def ofStr (s : Str) : JSString := s.map UInt8.toUInt16

def isSurrogate (unit : UInt16) : Bool := 0xD800 ≤ unit ∧ unit < 0xE000

def isPair (high low : UInt16) : Bool := 0xD800 ≤ high ∧ high < 0xDC00 ∧ 0xDC00 ≤ low ∧ low < 0xE000

def replacementCharacter : Char := Char.ofNat 0xFFFD

/-- What `TextEncoder` takes of a string: a surrogate without its other half is replaced. -/
def scalarValues : JSString → List Char
  | [] => []
  | [unit] => [if isSurrogate unit then replacementCharacter else .ofNat unit.toNat]
  | unit :: next :: rest =>
    if isPair unit next then
      .ofNat (0x10000 + (unit.toNat - 0xD800) * 0x400 + (next.toNat - 0xDC00)) :: scalarValues rest
    else (if isSurrogate unit then replacementCharacter else .ofNat unit.toNat) :: scalarValues (next :: rest)

def toUSVString (s : JSString) : String := String.ofList (scalarValues s)

/-- The bytes of `utf8Encode`. -/
def utf8Bytes (s : JSString) : List UInt8 := utf8Encode (toUSVString s)

/-- Between two bytes the decoder for UTF-8 knows how many of a code point are missing, between which
two values the next one is, and the bits that it has. -/
structure DecoderState where
  bytesNeeded : ℕ := 0
  lowerBoundary : UInt8 := 0x80
  upperBoundary : UInt8 := 0xBF
  codePoint : ℕ := 0
  /-- A boundary is a continuation byte. -/
  continuation : 0x80 ≤ lowerBoundary := by decide

namespace DecoderState

/-- A byte that begins a code point, or none. -/
def begin (byte : UInt8) : List ℕ × DecoderState :=
  if byte ≤ 0x7F then ([byte.toNat], {})
  else if 0xC2 ≤ byte ∧ byte ≤ 0xDF then ([], { bytesNeeded := 1, codePoint := byte.toNat - 0xC0 })
  else if byte = 0xE0 then ([], { bytesNeeded := 2, lowerBoundary := 0xA0 })
  else if byte = 0xED then ([], { bytesNeeded := 2, upperBoundary := 0x9F, codePoint := 0xD })
  else if 0xE1 ≤ byte ∧ byte ≤ 0xEF then ([], { bytesNeeded := 2, codePoint := byte.toNat - 0xE0 })
  else if byte = 0xF0 then ([], { bytesNeeded := 3, lowerBoundary := 0x90 })
  else if byte = 0xF4 then ([], { bytesNeeded := 3, upperBoundary := 0x8F, codePoint := 4 })
  else if 0xF1 ≤ byte ∧ byte ≤ 0xF3 then ([], { bytesNeeded := 3, codePoint := byte.toNat - 0xF0 })
  else ([0xFFFD], {})

/-- What a byte gives; one that does not belong to the code point before ends it. -/
def step (state : DecoderState) (byte : UInt8) : List ℕ × DecoderState :=
  if state.bytesNeeded = 0 then begin byte
  else if state.lowerBoundary ≤ byte ∧ byte ≤ state.upperBoundary then
    let codePoint := state.codePoint * 64 + (byte.toNat - 0x80)
    if state.bytesNeeded = 1 then ([codePoint], {})
    else ([], { bytesNeeded := state.bytesNeeded - 1, codePoint })
  else (0xFFFD :: (begin byte).1, (begin byte).2)

def decode (state : DecoderState) : List UInt8 → List ℕ
  | [] => if state.bytesNeeded = 0 then [] else [0xFFFD]
  | byte :: rest => (state.step byte).1 ++ decode (state.step byte).2 rest

end DecoderState

def withoutMark (bytes : List UInt8) : List UInt8 :=
  if [0xEF, 0xBB, 0xBF].isPrefixOf bytes then bytes.drop 3 else bytes

/-- `utf8Decode`. The decoder drops a byte order mark and replaces what is not UTF-8. -/
def utf8Decode (bytes : List UInt8) : JSString :=
  (DecoderState.decode {} (withoutMark bytes)).flatMap unitsOf

section Encoding

variable {ascii : Str} {s : JSString}

/-- Characters of ASCII are the same in all encodings. -/
abbrev Ascii (s : Str) : Prop := ∀ c ∈ s, c < 0x80

theorem utf8Bytes_eq (s : JSString) : utf8Bytes s = (scalarValues s).flatMap String.utf8EncodeChar := by
  rw [utf8Bytes, utf8Encode, toUSVString]
  simp [String.ofList, List.utf8Encode]

theorem isPair_of_not_surrogate {high low : UInt16} (h : isSurrogate high = false ∨ isSurrogate low = false) :
    isPair high low = false := by
  simp only [isSurrogate, isPair, decide_eq_false_iff_not, UInt16.le_iff_toNat_le, UInt16.lt_iff_toNat_lt,
    UInt16.toNat_ofNat] at h ⊢
  omega

theorem scalarValues_cons {unit : UInt16} (h : isSurrogate unit = false) (s : JSString) :
    scalarValues (unit :: s) = .ofNat unit.toNat :: scalarValues s := by
  cases s with
  | nil => simp [scalarValues, h]
  | cons next rest => simp [scalarValues, h, isPair_of_not_surrogate (.inl h)]

/-- A unit that is no surrogate does not belong to what stands before it. -/
theorem scalarValues_append {unit : UInt16} (h : isSurrogate unit = false) (s more : JSString) :
    scalarValues (s ++ unit :: more) = scalarValues s ++ scalarValues (unit :: more) := by
  induction s using scalarValues.induct with
  | case1 => rfl
  | case2 last => simp [scalarValues, isPair_of_not_surrogate (.inr h)]
  | case3 high low rest hPair ih =>
      simp only [List.cons_append, scalarValues, hPair, if_true, ih]
  | case4 unit next rest hPair ih =>
      rw [List.cons_append] at ih
      simp only [List.cons_append, scalarValues, hPair, ih]
      rfl

theorem not_surrogate_of_ascii {c : UInt8} (h : c < 0x80) : isSurrogate c.toUInt16 = false := by
  simp only [isSurrogate, decide_eq_false_iff_not, UInt16.le_iff_toNat_le, UInt16.lt_iff_toNat_lt,
    UInt16.toNat_ofNat, UInt8.toNat_toUInt16, UInt8.lt_iff_toNat_lt, UInt8.toNat_ofNat] at h ⊢
  omega

/-- A character of ASCII is one byte. -/
theorem utf8EncodeChar_ascii {c : UInt8} (h : c < 0x80) : String.utf8EncodeChar (.ofNat c.toUInt16.toNat) = [c] := by
  have hNat : c.toNat < 0x80 := UInt8.lt_iff_toNat_lt.mp h
  have hValid : (Char.ofNat c.toNat).val.toNat = c.toNat := by
    rw [Char.ofNat, dif_pos (Or.inl (by omega))]
    rfl
  rw [UInt8.toNat_toUInt16, String.utf8EncodeChar, hValid, if_pos (by omega), UInt8.ofNat_toNat]

theorem utf8Bytes_ascii_append (hAscii : Ascii ascii) (s : JSString) :
    utf8Bytes (ofStr ascii ++ s) = ascii ++ utf8Bytes s := by
  induction ascii with
  | nil => rfl
  | cons c rest ih =>
      obtain ⟨hc, hRest⟩ := List.forall_mem_cons.mp hAscii
      have ih := ih hRest
      rw [utf8Bytes_eq] at ih ⊢
      rw [ofStr, List.map_cons, List.cons_append, scalarValues_cons (not_surrogate_of_ascii hc), List.flatMap_cons,
        utf8EncodeChar_ascii hc, ← ofStr, ih]
      rfl

theorem utf8Bytes_ofStr (hAscii : Ascii ascii) : utf8Bytes (ofStr ascii) = ascii := by
  have h := utf8Bytes_ascii_append hAscii []
  rwa [List.append_nil, utf8Bytes_eq [], scalarValues, List.flatMap_nil, List.append_nil] at h

theorem utf8Bytes_append_ascii (hAscii : Ascii ascii) (s : JSString) :
    utf8Bytes (s ++ ofStr ascii) = utf8Bytes s ++ ascii := by
  cases ascii with
  | nil => simp [ofStr]
  | cons c rest =>
      have hAll := utf8Bytes_ofStr hAscii
      rw [utf8Bytes_eq, ofStr, List.map_cons] at hAll
      rw [utf8Bytes_eq, utf8Bytes_eq, ofStr, List.map_cons,
        scalarValues_append (not_surrogate_of_ascii (List.forall_mem_cons.mp hAscii).1), List.flatMap_append, hAll]

theorem length_utf8EncodeChar_le {c : Char} (h : c.val.toNat < 0x10000) : (String.utf8EncodeChar c).length ≤ 3 := by
  simp only [String.utf8EncodeChar]
  split_ifs
  · simp
  · simp
  · simp
  · omega

theorem length_utf8EncodeChar_unit (unit : UInt16) :
    (String.utf8EncodeChar (if isSurrogate unit then replacementCharacter else .ofNat unit.toNat)).length ≤ 3 := by
  refine length_utf8EncodeChar_le ?_
  split_ifs
  · decide
  · rw [Char.ofNat]
    split_ifs
    · show unit.toNat < 0x10000
      exact unit.toNat_lt
    · decide

/-- No unit takes more than three bytes. -/
theorem length_utf8Bytes_le (s : JSString) : (utf8Bytes s).length ≤ 3 * s.length := by
  rw [utf8Bytes_eq]
  induction s using scalarValues.induct with
  | case1 => simp [scalarValues]
  | case2 unit =>
      rw [scalarValues, List.flatMap_singleton]
      exact length_utf8EncodeChar_unit unit
  | case3 high low rest hPair ih =>
      have hPair' := String.length_utf8EncodeChar (.ofNat (0x10000 + (high.toNat - 0xD800) * 0x400 + (low.toNat - 0xDC00)))
      have hFour := (Char.ofNat (0x10000 + (high.toNat - 0xD800) * 0x400 + (low.toNat - 0xDC00))).utf8Size_le_four
      rw [scalarValues, if_pos hPair, List.flatMap_cons, List.length_append, List.length_cons, List.length_cons]
      omega
  | case4 unit next rest hPair ih =>
      have hUnit := length_utf8EncodeChar_unit unit
      rw [scalarValues, if_neg hPair, List.flatMap_cons, List.length_append, List.length_cons]
      omega

end Encoding

section Decoding

variable {ascii front back : Str}

theorem begin_ascii {c : UInt8} (h : c < 0x80) : DecoderState.begin c = ([c.toNat], {}) := by
  have hLe : c ≤ 0x7F := UInt8.le_iff_toNat_le.mpr (Nat.le_of_lt_succ (UInt8.lt_iff_toNat_lt.mp h))
  rw [DecoderState.begin, if_pos hLe]

theorem decode_ascii_append (hAscii : Ascii ascii) (rest : List UInt8) :
    DecoderState.decode {} (ascii ++ rest) = ascii.map UInt8.toNat ++ DecoderState.decode {} rest := by
  induction ascii with
  | nil => rfl
  | cons c more ih =>
      obtain ⟨hc, hMore⟩ := List.forall_mem_cons.mp hAscii
      rw [List.cons_append, DecoderState.decode, DecoderState.step, if_pos rfl, begin_ascii hc, ih hMore]
      rfl

/-- Whatever is missing of a code point, a character of ASCII does not belong to it. -/
theorem decode_append_ascii (hAscii : Ascii ascii) (state : DecoderState) (bytes : List UInt8) :
    state.decode (bytes ++ ascii) = state.decode bytes ++ ascii.map UInt8.toNat := by
  induction bytes generalizing state with
  | nil =>
      cases ascii with
      | nil => simp
      | cons c rest =>
          obtain ⟨hc, hRest⟩ := List.forall_mem_cons.mp hAscii
          have hEnd := decode_ascii_append hRest []
          rw [List.append_nil] at hEnd
          rw [List.nil_append, DecoderState.decode, DecoderState.decode, DecoderState.step, begin_ascii hc]
          by_cases hNone : state.bytesNeeded = 0
          · rw [if_pos hNone, if_pos hNone, hEnd]
            simp [DecoderState.decode]
          · have hOutside : ¬(state.lowerBoundary ≤ c ∧ c ≤ state.upperBoundary) := fun h => by
              have hLower := UInt8.le_trans state.continuation h.1
              exact absurd hc (UInt8.not_lt.mpr hLower)
            rw [if_neg hNone, if_neg hNone, if_neg hOutside, hEnd]
            simp [DecoderState.decode]
  | cons byte rest ih =>
      rw [List.cons_append, DecoderState.decode, DecoderState.decode, ih, List.append_assoc]

theorem flatMap_unitsOf_ascii (s : Str) : (s.map UInt8.toNat).flatMap unitsOf = ofStr s := by
  rw [List.flatMap_map, ofStr, ← List.flatMap_singleton' s, List.map_flatMap, List.flatMap_singleton']
  apply List.flatMap_congr
  intro c _
  have hLt := c.toNat_lt
  rw [unitsOf, if_pos (by omega)]
  simp

/-- Between characters of ASCII anything may stand. -/
theorem utf8Decode_between (hFront : Ascii front) (hBack : Ascii back) (hNe : front ≠ []) (middle : List UInt8) :
    utf8Decode (front ++ middle ++ back) =
      ofStr front ++ (DecoderState.decode {} middle).flatMap unitsOf ++ ofStr back := by
  obtain ⟨c, rest, rfl⟩ := List.exists_cons_of_ne_nil hNe
  have hMark : [0xEF, 0xBB, 0xBF].isPrefixOf (c :: rest ++ middle ++ back) = false := by
    have hc := (List.forall_mem_cons.mp hFront).1
    have hNot : (0xEF : UInt8) ≠ c := fun h => by
      subst h
      exact absurd hc (by decide)
    simp [List.isPrefixOf, hNot]
  rw [utf8Decode, withoutMark, hMark, if_neg Bool.false_ne_true, decode_append_ascii hBack, decode_ascii_append hFront,
    List.flatMap_append, List.flatMap_append, flatMap_unitsOf_ascii, flatMap_unitsOf_ascii]

theorem utf8Decode_ascii (hAscii : Ascii ascii) (hNe : ascii ≠ []) : utf8Decode ascii = ofStr ascii := by
  have h := @utf8Decode_between _ [] hAscii nofun hNe []
  simpa [DecoderState.decode, ofStr] using h

end Decoding

/-- The white space of `trim` and `\s`. -/
def isWhiteSpace (unit : UInt16) : Bool :=
  unit ∈ [9, 10, 11, 12, 13, 32, 0xA0, 0x1680, 0x2028, 0x2029, 0x202F, 0x205F, 0x3000, 0xFEFF] ∨
    (0x2000 ≤ unit ∧ unit ≤ 0x200A)

/-- A number without a fraction; `none` is `NaN`. -/
abbrev Number := Option ℤ

/-- `String(n)`, as far as it prints all digits. -/
def numberToString : Number → JSString
  | none => js "NaN"
  | some n => if n < 0 then js "-" ++ ofStr (toDecimal n.natAbs) else ofStr (toDecimal n.natAbs)

/-- `n >>> 0` -/
def toUint32 : Number → UInt32
  | none => 0
  | some n => .ofNat (n % 2 ^ 32).toNat

def digitOf (base : ℕ) (unit : UInt16) : Option ℕ := if unit < 0x80 then digitValue base unit.toUInt8 else none

/-- The digits at the front of a string. -/
def leadingDigits (base : ℕ) : JSString → List ℕ
  | [] => []
  | unit :: rest =>
    match digitOf base unit with
    | some d => d :: leadingDigits base rest
    | none => []

/-- `/^[0-9]+$/` for the base 10, and `/^[0-9a-fA-F]+$/` for 16. -/
def isDigits (base : ℕ) (s : JSString) : Bool := s ≠ [] ∧ s.all fun unit => (digitOf base unit).isSome

/-- `parseInt`. It reads the nearest double of the digits. -/
def parseInt (base : ℕ) (s : JSString) : Number :=
  let s := s.dropWhile isWhiteSpace
  let negative := s.head? = some 0x2D
  let s := if s.head? = some 0x2D ∨ s.head? = some 0x2B then s.tail else s
  let s := if base = 16 ∧ (js "0x" <+: s ∨ js "0X" <+: s) then s.drop 2 else s
  let digits := leadingDigits base s
  if digits = [] then none
  else
    let magnitude : ℤ := nearestDouble (valueOf base digits)
    some (if negative then -magnitude else magnitude)

section Digits

variable {base : ℕ} {ds : List ℕ}

theorem digitOf_digitChar {d : ℕ} (hBase : base ≤ 16) (h : d < base) : digitOf base (digitChar d).toUInt16 = some d := by
  have hValue := digitValue_digitChar hBase h
  have hAscii : (digitChar d).toUInt16 < 0x80 := by
    have hd : d < 16 := by omega
    interval_cases d <;> decide
  rw [digitOf, if_pos hAscii, UInt8.toUInt8_toUInt16, hValue]

theorem ascii_digits (hDigits : ∀ d ∈ ds, d < 16) : Ascii (ds.map digitChar) := fun c hc => by
  obtain ⟨d, hd, rfl⟩ := List.mem_map.mp hc
  have hLt := hDigits d hd
  interval_cases d <;> decide

theorem ascii_toDecimal (n : ℕ) : Ascii (toDecimal n) := by
  rw [toDecimal, toBase_eq]
  exact ascii_digits fun d hd => (digitsOf_lt (by decide) d hd).trans (by decide)

theorem leadingDigits_digits (hBase : base ≤ 16) (hDigits : ∀ d ∈ ds, d < base) :
    leadingDigits base (ofStr (ds.map digitChar)) = ds := by
  induction ds with
  | nil => rfl
  | cons d rest ih =>
      obtain ⟨hd, hRest⟩ := List.forall_mem_cons.mp hDigits
      have ih := ih hRest
      rw [ofStr] at ih ⊢
      rw [List.map_cons, List.map_cons, leadingDigits, digitOf_digitChar hBase hd, ih]

theorem isDigits_digits (hBase : base ≤ 16) (hNe : ds ≠ []) (hDigits : ∀ d ∈ ds, d < base) :
    isDigits base (ofStr (ds.map digitChar)) = true := by
  refine decide_eq_true ⟨by simpa [ofStr] using hNe, List.all_eq_true.mpr fun unit hUnit => ?_⟩
  obtain ⟨c, hc, rfl⟩ := List.mem_map.mp hUnit
  obtain ⟨d, hd, rfl⟩ := List.mem_map.mp hc
  rw [digitOf_digitChar hBase (hDigits d hd)]
  rfl

/-- A string of digits is neither trimmed nor has it a sign or a mark of its base. -/
theorem parseInt_digits (hBase : base ≤ 16) (hNe : ds ≠ []) (hDigits : ∀ d ∈ ds, d < base) :
    parseInt base (ofStr (ds.map digitChar)) = some (nearestDouble (valueOf base ds) : ℤ) := by
  obtain ⟨d, rest, rfl⟩ := List.exists_cons_of_ne_nil hNe
  have hd : d < 16 := (hDigits d List.mem_cons_self).trans_le hBase
  have hSpace : isWhiteSpace (digitChar d).toUInt16 = false := by interval_cases d <;> decide
  have hMinus : (digitChar d).toUInt16 ≠ 0x2D := by interval_cases d <;> decide
  have hPlus : (digitChar d).toUInt16 ≠ 0x2B := by interval_cases d <;> decide
  have hLetter : ¬(js "0x" <+: ofStr ((d :: rest).map digitChar) ∨ js "0X" <+: ofStr ((d :: rest).map digitChar)) := by
    have hSecond (x : UInt16) (hx : ∀ e < 16, (digitChar e).toUInt16 ≠ x) :
        ¬[0x30, x] <+: ofStr ((d :: rest).map digitChar) := by
      intro hPrefix
      cases rest with
      | nil => simpa [ofStr] using hPrefix.length_le
      | cons e more =>
          rw [ofStr, List.map_cons, List.map_cons, List.map_cons, List.map_cons, List.cons_prefix_cons,
            List.cons_prefix_cons] at hPrefix
          exact hx e ((hDigits e (by simp)).trans_le hBase) hPrefix.2.1.symm
    exact not_or.mpr ⟨hSecond 0x78 (by decide), hSecond 0x58 (by decide)⟩
  have hLeading := leadingDigits_digits hBase hDigits
  rw [ofStr, List.map_cons, List.map_cons] at hLeading hLetter ⊢
  simp only [parseInt, List.dropWhile_cons_of_neg (ne_true_of_eq_false hSpace), List.head?_cons, Option.some.injEq, hMinus, hPlus,
    or_self, if_false, hLetter, and_false, hLeading]
  simp

end Digits

end JavaScript
end Wwatp
