import Mathlib
import Wwatp.Cxx.ByteString

/-! Numbers as text and as bytes: what `std::to_string` and `<<` print, what
`num_get` reads back, and the little-endian bytes of a `size_t`. -/
namespace Cxx

/-- The character `<<` prints for one digit, in lower case. -/
def digitChar (d : Nat) : UInt8 := UInt8.ofNat (if d < 10 then 48 + d else 87 + d)

/-- The value of a digit character in the given base. -/
def digitValue (base : Nat) (c : UInt8) : Option Nat :=
  let n := c.toNat
  let v := if 48 ≤ n ∧ n ≤ 57 then n - 48
    else if 97 ≤ n ∧ n ≤ 102 then n - 87
    else if 65 ≤ n ∧ n ≤ 70 then n - 55
    else base
  if v < base then some v else none

/-- An unsigned number in a base, most significant digit first. -/
def toBase (base n : Nat) : Str :=
  if n = 0 then [digitChar 0] else ((Nat.digits base n).map digitChar).reverse

/-- `std::to_string` of an unsigned value, and what `<<` prints for it. -/
def toDecimal (n : Nat) : Str := toBase 10 n

/-- `std::setw(width) << std::setfill('0')`: padding goes on the left. -/
def padLeft (width : Nat) (fill : UInt8) (s : Str) : Str :=
  List.replicate (width - s.length) fill ++ s

/-- The digits at the front of a string, and what follows them. -/
def scanDigits (base : Nat) : Str → List Nat × Str
  | [] => ([], [])
  | c :: rest =>
      match digitValue base c with
      | none => ([], c :: rest)
      | some d => let (ds, tail) := scanDigits base rest; (d :: ds, tail)

/-- The number a digit string denotes. -/
def valueOf (base : Nat) (digits : List Nat) : Nat :=
  digits.foldl (fun acc d => base * acc + d) 0

theorem digitValue_digitChar {base d : Nat} (hBase : base ≤ 16) (h : d < base) :
    digitValue base (digitChar d) = some d := by
  have hd : d < 16 := by omega
  interval_cases d <;> simp [digitValue, digitChar, h]

theorem digitChar_not_space {d : Nat} (h : d < 16) : isSpace (digitChar d) = false := by
  interval_cases d <;> decide

theorem scanDigits_digits {base : Nat} (hBase : base ≤ 16) (ds : List Nat)
    (hDigits : ∀ d ∈ ds, d < base) (rest : Str)
    (hRest : ∀ c ∈ rest.head?, digitValue base c = none) :
    scanDigits base (ds.map digitChar ++ rest) = (ds, rest) := by
  induction ds with
  | nil =>
      cases rest with
      | nil => rfl
      | cons c rest => simp [scanDigits, hRest c (by simp)]
  | cons d ds ih =>
      have hd := digitValue_digitChar hBase (hDigits d (by simp))
      simp only [List.map_cons, List.cons_append, scanDigits, hd]
      rw [ih fun e he => hDigits e (by simp [he])]

theorem scanDigits_length (base : Nat) (s : Str) : (scanDigits base s).2.length ≤ s.length := by
  induction s with
  | nil => simp [scanDigits]
  | cons c rest ih =>
      simp only [scanDigits]
      cases digitValue base c with
      | none => simp
      | some d => simp only [List.length_cons]; omega

theorem valueOf_append (base : Nat) (front : List Nat) (d : Nat) :
    valueOf base (front ++ [d]) = base * valueOf base front + d := by
  simp [valueOf]

theorem valueOf_reverse (base : Nat) (ds : List Nat) :
    valueOf base ds.reverse = Nat.ofDigits base ds := by
  induction ds with
  | nil => rfl
  | cons d ds ih =>
      rw [List.reverse_cons, valueOf_append, ih, Nat.ofDigits_cons]
      simp [Nat.add_comm]

/-- The digit list behind `toBase`. -/
def digitsOf (base n : Nat) : List Nat :=
  if n = 0 then [0] else (Nat.digits base n).reverse

theorem toBase_eq (base n : Nat) : toBase base n = (digitsOf base n).map digitChar := by
  unfold toBase digitsOf
  split_ifs <;> simp

theorem digitsOf_ne_nil (base n : Nat) : digitsOf base n ≠ [] := by
  unfold digitsOf
  split_ifs with h
  · simp
  · simpa [Nat.digits_eq_nil_iff_eq_zero] using h

theorem digitsOf_lt {base n : Nat} (hBase : 1 < base) : ∀ d ∈ digitsOf base n, d < base := by
  intro d hd
  unfold digitsOf at hd
  split_ifs at hd with h
  · simp only [List.mem_singleton] at hd
    omega
  · exact Nat.digits_lt_base hBase (List.mem_reverse.mp hd)

theorem valueOf_digitsOf (base n : Nat) : valueOf base (digitsOf base n) = n := by
  unfold digitsOf
  split_ifs with h
  · simp [valueOf, h]
  · rw [valueOf_reverse, Nat.ofDigits_digits]

theorem valueOf_replicate_zero (base k : Nat) (ds : List Nat) :
    valueOf base (List.replicate k 0 ++ ds) = valueOf base ds := by
  induction k with
  | zero => rfl
  | succ k ih => simpa [valueOf, List.replicate_succ] using ih

/-- The first byte a number prints is a digit. -/
theorem toBase_cons {base : Nat} (hBase : 1 < base) (n : Nat) :
    ∃ d rest, d < base ∧ toBase base n = digitChar d :: rest := by
  rw [toBase_eq]
  cases h : digitsOf base n with
  | nil => exact absurd h (digitsOf_ne_nil base n)
  | cons d ds =>
      have hd : d ∈ digitsOf base n := by rw [h]; exact List.mem_cons_self
      exact ⟨d, ds.map digitChar, digitsOf_lt hBase d hd, rfl⟩

theorem toBase_length_le {base n width : Nat} (hBase : 1 < base) (hWidth : 0 < width)
    (h : n < base ^ width) : (toBase base n).length ≤ width := by
  unfold toBase
  split_ifs with hn
  · exact hWidth
  · simpa using (Nat.digits_length_le_iff hBase n).mpr h

/-- Subtraction of `size_t` values wraps below zero. -/
def sizeSub (a b : Nat) : Nat := if b ≤ a then a - b else a + 2 ^ 64 - b

/-- The little-endian bytes of an unsigned value of the given width in bytes. -/
def leBytes : Nat → Nat → List UInt8
  | 0, _ => []
  | width + 1, n => UInt8.ofNat n :: leBytes width (n / 256)

/-- The number little-endian bytes denote. -/
def leValue : List UInt8 → Nat
  | [] => 0
  | b :: rest => b.toNat + 256 * leValue rest

@[simp] theorem leBytes_length (width n : Nat) : (leBytes width n).length = width := by
  induction width generalizing n with
  | zero => rfl
  | succ width ih => simp [leBytes, ih]

theorem leValue_leBytes {width n : Nat} (h : n < 256 ^ width) : leValue (leBytes width n) = n := by
  induction width generalizing n with
  | zero =>
      have hn : n = 0 := by simpa using h
      simp [hn, leBytes, leValue]
  | succ width ih =>
      have hDiv : n / 256 < 256 ^ width := by
        apply (Nat.div_lt_iff_lt_mul (by omega)).mpr
        simpa [Nat.pow_succ] using h
      simp only [leBytes, leValue, UInt8.toNat_ofNat', ih hDiv]
      omega

theorem leValue_lt (bytes : List UInt8) : leValue bytes < 256 ^ bytes.length := by
  induction bytes with
  | nil => simp [leValue]
  | cons b rest ih =>
      have hb := b.toNat_lt
      simp only [leValue, List.length_cons, Nat.pow_succ]
      omega

/-- Truncation keeps the number modulo the width. -/
theorem leValue_leBytes_mod (width n : Nat) : leValue (leBytes width n) = n % 256 ^ width := by
  induction width generalizing n with
  | zero => simp [leBytes, leValue, Nat.mod_one]
  | succ width ih =>
      have hByte : (UInt8.ofNat n).toNat = n % 256 := by simp
      rw [leBytes, leValue, ih, hByte, Nat.pow_succ, Nat.mul_comm (256 ^ width), Nat.mod_mul]

/-- Bytes are those of the number they denote. -/
theorem leBytes_leValue (bytes : List UInt8) : leBytes bytes.length (leValue bytes) = bytes := by
  induction bytes with
  | nil => rfl
  | cons b rest ih =>
      have hb := b.toNat_lt
      have hLow : UInt8.ofNat (b.toNat + 256 * leValue rest) = b := by
        apply UInt8.toNat_inj.mp
        rw [UInt8.toNat_ofNat']
        omega
      have hHigh : (b.toNat + 256 * leValue rest) / 256 = leValue rest := by omega
      rw [List.length_cons, leValue, leBytes, hLow, hHigh, ih]

/-- The low bytes come first. -/
theorem leBytes_add (low high n : Nat) : leBytes (low + high) n = leBytes low n ++ leBytes high (n / 256 ^ low) := by
  induction low generalizing n with
  | zero => simp [leBytes]
  | succ low ih =>
      rw [Nat.add_right_comm, leBytes, leBytes, ih, Nat.pow_succ, Nat.mul_comm, Nat.div_div_eq_div_mul, List.cons_append]

@[simp] theorem leBytes_zero (width : Nat) : leBytes width 0 = List.replicate width 0 := by
  induction width with
  | zero => rfl
  | succ width ih => rw [leBytes, Nat.zero_div, ih, List.replicate_succ]; rfl

@[simp] theorem leValue_replicate (width : Nat) : leValue (List.replicate width 0) = 0 := by
  induction width with
  | zero => rfl
  | succ width ih => rw [List.replicate_succ, leValue, ih]; rfl

end Cxx
