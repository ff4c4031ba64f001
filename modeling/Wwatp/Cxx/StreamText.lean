import Wwatp.Cxx.ReaderLocality

/-! Extractions from text that begins with what they look for. -/
namespace Cxx

theorem digitValue_of_isSpace {base : ℕ} {c : UInt8} (h : isSpace c = true) :
    digitValue base c = none := by
  have hLow : c.toNat ≤ 32 := by
    rw [isSpace, Bool.or_eq_true, beq_iff_eq, Bool.and_eq_true, decide_eq_true_eq,
      decide_eq_true_eq] at h
    rcases h with rfl | ⟨-, hLe⟩
    · exact Nat.le_refl _
    · exact Nat.le_trans (UInt8.le_iff_toNat_le.mp hLe) (by decide)
  have hValue : ¬(48 ≤ c.toNat ∧ c.toNat ≤ 57) ∧ ¬(97 ≤ c.toNat ∧ c.toNat ≤ 102) ∧
      ¬(65 ≤ c.toNat ∧ c.toNat ≤ 70) := by omega
  simp only [digitValue, if_neg hValue.1, if_neg hValue.2.1, if_neg hValue.2.2,
    if_neg (Nat.lt_irrefl base)]

/-- A digit is neither a sign nor an `x`. -/
theorem digitChar_ne_mark {d : ℕ} (h : d < 16) :
    digitChar d ≠ chr '-' ∧ digitChar d ≠ chr '+' ∧ digitChar d ≠ chr 'x' ∧ digitChar d ≠ chr 'X' := by
  interval_cases d <;> decide

namespace IStream

@[simp] theorem good_ofStr (s : Str) : (ofStr s).good = true := rfl

@[simp] theorem readTo_cons (s : Str) (c : UInt8) (rest : Str) :
    (ofStr s).readTo (c :: rest) = ofStr (c :: rest) := rfl

/-- The `sentry` skips white space up to the next byte that is none. -/
theorem sentry_ofStr {spaces rest : Str} {c : UInt8} (hSpaces : ∀ b ∈ spaces, isSpace b = true)
    (hc : isSpace c = false) : (ofStr (spaces ++ c :: rest)).sentry = (true, ofStr (c :: rest)) := by
  have hSkip : (spaces ++ c :: rest).dropWhile isSpace = c :: rest := by
    rw [List.dropWhile_append_of_pos hSpaces, List.dropWhile_cons_of_neg (by simp [hc])]
  simp only [sentry, good_ofStr, if_true]
  simp only [ofStr, hSkip]

end IStream

namespace Reader

open IStream

theorem get_ofStr (c : UInt8) (rest : Str) : Reader.get (ofStr (c :: rest)) = .ok (some c, ofStr rest) :=
  rfl

theorem peek_ofStr (c : UInt8) (rest : Str) :
    peek (ofStr (c :: rest)) = .ok (some c, ofStr (c :: rest)) :=
  rfl

theorem read_ofStr (s rest : Str) : read s.length (ofStr (s ++ rest)) = .ok (s, ofStr rest) := by
  rw [read_of_le rfl (by simp [ofStr])]
  simp [ofStr]

/-- A word up to the white space behind it. -/
theorem word_ofStr (old : Str) {spaces w tail : Str} {c : UInt8}
    (hSpaces : ∀ b ∈ spaces, isSpace b = true) (hw : w ≠ []) (hWord : ∀ b ∈ w, isSpace b = false)
    (hc : isSpace c = true) :
    word old (ofStr (spaces ++ w ++ c :: tail)) = .ok (w, ofStr (c :: tail)) := by
  obtain ⟨b, more, rfl⟩ := List.exists_cons_of_ne_nil hw
  have hSentry : (ofStr (spaces ++ (b :: more) ++ c :: tail)).sentry =
      (true, ofStr (b :: more ++ c :: tail)) := by
    rw [List.append_assoc, List.cons_append]
    exact sentry_ofStr hSpaces (hWord b List.mem_cons_self)
  have hAll : ∀ a ∈ b :: more, (!isSpace a) = true := fun a ha => by simp [hWord a ha]
  have hTake : (b :: more ++ c :: tail).takeWhile (!isSpace ·) = b :: more := by
    rw [List.takeWhile_append_of_pos hAll, List.takeWhile_cons_of_neg (by simp [hc]), List.append_nil]
  have hDrop : (b :: more ++ c :: tail).dropWhile (!isSpace ·) = c :: tail := by
    rw [List.dropWhile_append_of_pos hAll, List.dropWhile_cons_of_neg (by simp [hc])]
  simp only [word, hSentry]
  simp only [ofStr, hTake, hDrop]
  rfl

/-- A number without a sign that ends at white space or at the end of the text. -/
theorem scanNumber_digits {base : ℕ} (hBase : base ≤ 16) {digits : List ℕ} {tail : Str}
    (hDigits : digits ≠ []) (hLess : ∀ d ∈ digits, d < base)
    (hTail : ∀ c ∈ tail.head?, isSpace c = true) :
    scanNumber base (digits.map digitChar ++ tail) = (false, digits, tail) := by
  have hScan : scanDigits base (digits.map digitChar ++ tail) = (digits, tail) :=
    scanDigits_digits hBase digits hLess tail fun c hc => digitValue_of_isSpace (hTail c hc)
  obtain ⟨d, more, rfl⟩ := List.exists_cons_of_ne_nil hDigits
  have hd : d < 16 := Nat.lt_of_lt_of_le (hLess d List.mem_cons_self) hBase
  obtain ⟨hMinus, hPlus, -, -⟩ := digitChar_ne_mark hd
  have hMark : dropHexMark base ((d :: more).map digitChar ++ tail) =
      (d :: more).map digitChar ++ tail := by
    -- the byte behind the first digit is a digit or white space
    have hNext (x : UInt8) (hx : x ∈ (more.map digitChar ++ tail).head?) :
        x ≠ chr 'x' ∧ x ≠ chr 'X' := by
      cases more with
      | nil =>
          have hSpace := hTail x hx
          constructor <;> rintro rfl <;> cases hSpace
      | cons e more =>
          obtain rfl : digitChar e = x := by simpa using hx
          have he : e < 16 := Nat.lt_of_lt_of_le (hLess e (by simp)) hBase
          exact (digitChar_ne_mark he).2.2
    rw [List.map_cons, List.cons_append]
    cases hRest : more.map digitChar ++ tail with
    | nil => rfl
    | cons x rest =>
        obtain ⟨hx, hX⟩ := hNext x (by rw [hRest]; rfl)
        simp [dropHexMark, hx, hX]
  rw [List.map_cons, List.cons_append] at hMark hScan ⊢
  rw [scanNumber, if_neg hMinus, if_neg hPlus, hMark, hScan]

/-- An unsigned extraction writes a value of the type. -/
theorem unsigned_lt {base width n : ℕ} {s s' : IStream}
    (h : unsigned base width s = .ok (some n, s')) : n < 2 ^ width := by
  have hValue : ∀ negative digits, (unsignedValue base width negative digits).1 < 2 ^ width := by
    intro negative digits
    have hPos : 0 < 2 ^ width := Nat.two_pow_pos width
    unfold unsignedValue
    dsimp only
    split_ifs
    · exact hPos
    · exact Nat.sub_lt hPos Nat.one_pos
    · exact Nat.mod_lt _ hPos
    · omega
  rw [unsigned] at h
  split at h
  · cases h
  · obtain ⟨hSome, -⟩ := Prod.mk.inj (Except.ok.inj h)
    rw [← Option.some.inj hSome]
    exact hValue _ _

/-- An unsigned number behind white space. -/
theorem unsigned_digits {base width : ℕ} (hBase : base ≤ 16) {spaces tail : Str} {digits : List ℕ}
    (hSpaces : ∀ b ∈ spaces, isSpace b = true) (hDigits : digits ≠ [])
    (hLess : ∀ d ∈ digits, d < base) (hTail : ∀ c ∈ tail.head?, isSpace c = true)
    (hWidth : valueOf base digits < 2 ^ width) :
    unsigned base width (ofStr (spaces ++ digits.map digitChar ++ tail)) =
      .ok (some (valueOf base digits), { rest := tail, eof := tail.isEmpty }) := by
  have hSentry : (ofStr (spaces ++ digits.map digitChar ++ tail)).sentry =
      (true, ofStr (digits.map digitChar ++ tail)) := by
    obtain ⟨d, more, rfl⟩ := List.exists_cons_of_ne_nil hDigits
    have hd : d < 16 := Nat.lt_of_lt_of_le (hLess d List.mem_cons_self) hBase
    rw [List.append_assoc, List.map_cons, List.cons_append]
    exact sentry_ofStr hSpaces (digitChar_not_space hd)
  have hScan := scanNumber_digits hBase hDigits hLess hTail
  simp only [unsigned, hSentry]
  simp only [ofStr, hScan, unsignedValue, if_neg hDigits, if_neg (Nat.not_le.mpr hWidth)]
  rfl

/-- A number written in decimal, up to the white space behind it. -/
theorem unsigned_toDecimal {n width : ℕ} (hWidth : n < 2 ^ width) {spaces tail : Str} {c : UInt8}
    (hSpaces : ∀ b ∈ spaces, isSpace b = true) (hc : isSpace c = true) :
    unsigned 10 width (ofStr (spaces ++ toDecimal n ++ c :: tail)) = .ok (some n, ofStr (c :: tail)) := by
  have hValue := valueOf_digitsOf 10 n
  rw [toDecimal, toBase_eq, unsigned_digits (by decide) hSpaces (digitsOf_ne_nil 10 n)
    (digitsOf_lt (by decide)) (by simpa using hc) (by rw [hValue]; exact hWidth), hValue]
  rfl

/-- A whole decimal number. -/
theorem unsigned_toDecimal_all {n width : ℕ} (hWidth : n < 2 ^ width) :
    unsigned 10 width (ofStr (toDecimal n)) = .ok (some n, { rest := [], eof := true }) := by
  have hValue := valueOf_digitsOf 10 n
  have hText : toDecimal n = [] ++ (digitsOf 10 n).map digitChar ++ [] := by
    rw [List.nil_append, List.append_nil, toDecimal, toBase_eq]
  rw [hText, unsigned_digits (by decide) (by simp) (digitsOf_ne_nil 10 n) (digitsOf_lt (by decide))
    (by simp) (by rw [hValue]; exact hWidth), hValue]
  rfl

/-- Reading takes exactly `text` when `tail` follows it. -/
def Reads {α : Type} (r : Reader α) (text tail : Str) (a : α) : Prop :=
  r (ofStr (text ++ tail)) = .ok (a, ofStr tail)

/-- The text starts with white space, which ends a word in front of it. -/
def BlankFirst (text : Str) : Prop := text.head?.any isSpace = true

section

variable {α β : Type} {front back tail : Str}

theorem Reads.bind {r : Reader α} {f : α → Reader β} {a : α} {b : β}
    (hr : Reads r front (back ++ tail) a) (hf : Reads (f a) back tail b) :
    Reads (r >>= f) (front ++ back) tail b := by
  rw [Reads, List.append_assoc]
  exact (bind_ok hr).trans hf

theorem reads_pure (a : α) : Reads (pure a) [] tail a := rfl

/-- The end of a sequence of readers: the last one takes what is left. -/
theorem Reads.map {r : Reader α} {a : α} {g : α → β} {b : β} (hr : Reads r front tail a)
    (h : g a = b) : Reads (r >>= fun a => pure (g a)) front tail b := by
  rw [Reads, bind_ok hr, ← h]
  rfl

theorem reads_get (c : UInt8) : Reads Reader.get [c] tail (some c) := rfl

theorem reads_read (s : Str) : Reads (read s.length) s tail s := read_ofStr s tail

theorem BlankFirst.exists_cons {text : Str} (h : BlankFirst text) :
    ∃ c rest, text = c :: rest ∧ isSpace c = true := by
  cases text with
  | nil => cases h
  | cons c rest => exact ⟨c, rest, rfl, by simpa [BlankFirst] using h⟩

theorem reads_word (old spaces : Str) {w : Str} (hSpaces : ∀ b ∈ spaces, isSpace b = true)
    (hw : w ≠ []) (hWord : ∀ b ∈ w, isSpace b = false) (hTail : BlankFirst tail) :
    Reads (word old) (spaces ++ w) tail w := by
  obtain ⟨c, rest, rfl, hc⟩ := hTail.exists_cons
  exact word_ofStr old hSpaces hw hWord hc

/-- A word behind one byte of white space. -/
theorem reads_nextWord (old : Str) {space : UInt8} {w : Str} (hSpace : isSpace space = true)
    (hw : w ≠ []) (hWord : ∀ b ∈ w, isSpace b = false) (hTail : BlankFirst tail) :
    Reads (word old) (space :: w) tail w :=
  reads_word old [space] (by simpa using hSpace) hw hWord hTail

theorem reads_unsigned {n width : ℕ} (hWidth : n < 2 ^ width) (spaces : Str)
    (hSpaces : ∀ b ∈ spaces, isSpace b = true) (hTail : BlankFirst tail) :
    Reads (unsigned 10 width) (spaces ++ toDecimal n) tail (some n) := by
  obtain ⟨c, rest, rfl, hc⟩ := hTail.exists_cons
  exact unsigned_toDecimal hWidth hSpaces hc

end

end Reader
end Cxx
