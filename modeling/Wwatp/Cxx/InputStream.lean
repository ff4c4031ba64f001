import Wwatp.Cxx.Numbers
import Wwatp.Cxx.Outcome

/-! Reading from a `std::stringstream`: formatted and unformatted extraction with
the end-of-file and fail states, as the "C" locale has them. -/
namespace Cxx

/-- A stream: what has not been read of its bytes, and its state. -/
structure IStream where
  rest : Str
  eof : Bool := false
  fail : Bool := false
  deriving DecidableEq, Repr

namespace IStream

def ofStr (s : Str) : IStream := { rest := s }

def good (s : IStream) : Bool := !s.eof && !s.fail

def setFail (s : IStream) : IStream := { s with fail := true }

/-- An extraction that needs a byte finds none. -/
def exhaust (s : IStream) : IStream := { s with rest := [], eof := true, fail := true }

/-- The state after reading up to `rest` with an extraction that looks at the byte
behind what it takes. -/
def readTo (s : IStream) (rest : Str) : IStream := { s with rest, eof := rest.isEmpty }

/-- `sentry` of a formatted extraction: it skips white space. -/
def sentry (s : IStream) : Bool × IStream :=
  if s.good then
    match s.rest.dropWhile isSpace with
    | [] => (false, s.exhaust)
    | c :: rest => (true, { s with rest := c :: rest })
  else (false, s.setFail)

/-- `tellg` of a stream over a string; `none` is the position -1. -/
def tellg (s : IStream) (text : Str) : Option ℕ :=
  if s.good then some (text.length - s.rest.length) else none

end IStream

/-- A function that reads from a stream. -/
abbrev Reader := StateT IStream Outcome

namespace Reader

/-- `is >> word` for a string that holds `old`. -/
def word (old : Str) : Reader Str := fun s =>
  match s.sentry with
  | (false, s) => .ok (old, s)
  | (true, s) =>
      .ok (s.rest.takeWhile (!isSpace ·), s.readTo (s.rest.dropWhile (!isSpace ·)))

/-- `is.get()`; `none` is `EOF`. -/
def get : Reader (Option UInt8) := fun s =>
  if s.good then
    match s.rest with
    | [] => .ok (none, s.exhaust)
    | c :: rest => .ok (some c, { s with rest })
  else .ok (none, s.setFail)

/-- `is.peek()`; `none` is `EOF`. -/
def peek : Reader (Option UInt8) := fun s =>
  if s.good then
    match s.rest with
    | [] => .ok (none, { s with eof := true })
    | c :: _ => .ok (some c, s)
  else .ok (none, s.setFail)

/-- `is.read(buffer, count)`: the bytes that were written to the buffer. -/
def read (count : ℕ) : Reader Str := fun s =>
  if s.good then
    if count ≤ s.rest.length then .ok (s.rest.take count, { s with rest := s.rest.drop count })
    else .ok (s.rest, s.exhaust)
  else .ok ([], s.setFail)

section

variable {s : IStream} {c : UInt8} {rest : Str}

theorem get_of_not_good (h : s.good = false) : get s = .ok (none, s.setFail) := by
  simp [get, h]

theorem get_nil (h : s.good = true) (hRest : s.rest = []) : get s = .ok (none, s.exhaust) := by
  simp [get, h, hRest]

theorem get_cons (h : s.good = true) (hRest : s.rest = c :: rest) :
    get s = .ok (some c, { s with rest }) := by
  simp [get, h, hRest]

theorem peek_of_not_good (h : s.good = false) : peek s = .ok (none, s.setFail) := by
  simp [peek, h]

theorem peek_nil (h : s.good = true) (hRest : s.rest = []) :
    peek s = .ok (none, { s with eof := true }) := by
  simp [peek, h, hRest]

theorem peek_cons (h : s.good = true) (hRest : s.rest = c :: rest) : peek s = .ok (some c, s) := by
  simp [peek, h, hRest]

theorem read_of_not_good (h : s.good = false) (count : ℕ) : read count s = .ok ([], s.setFail) := by
  simp [read, h]

theorem read_of_le (h : s.good = true) {count : ℕ} (hCount : count ≤ s.rest.length) :
    read count s = .ok (s.rest.take count, { s with rest := s.rest.drop count }) := by
  simp [read, h, hCount]

theorem read_of_lt (h : s.good = true) {count : ℕ} (hCount : s.rest.length < count) :
    read count s = .ok (s.rest, s.exhaust) := by
  simp [read, h, Nat.not_le.mpr hCount]

end

/-- One `0x` may precede the digits of a hexadecimal number. -/
def dropHexMark (base : ℕ) : Str → Str
  | zero :: x :: rest =>
      if base = 16 ∧ zero = chr '0' ∧ (x = chr 'x' ∨ x = chr 'X') then rest else zero :: x :: rest
  | s => s

/-- What `num_get` accumulates: whether there is a minus sign, the digits, and what
follows them. -/
def scanNumber (base : ℕ) (s : Str) : Bool × List ℕ × Str :=
  match s with
  | [] => (false, [], [])
  | c :: rest =>
      if c = chr '-' then (true, scanDigits base (dropHexMark base rest))
      else if c = chr '+' then (false, scanDigits base (dropHexMark base rest))
      else (false, scanDigits base (dropHexMark base (c :: rest)))

/-- The value of an unsigned extraction and whether it fails. -/
def unsignedValue (base width : ℕ) (negative : Bool) (digits : List ℕ) : ℕ × Bool :=
  if digits = [] then (0, true)
  else
    let magnitude := valueOf base digits
    if 2 ^ width ≤ magnitude then (2 ^ width - 1, true)
    else if negative then ((2 ^ width - magnitude) % 2 ^ width, false)
    else (magnitude, false)

/-- `is >> n` for an unsigned type of `width` bits; `none` leaves the variable as it was. -/
def unsigned (base width : ℕ) : Reader (Option ℕ) := fun s =>
  match s.sentry with
  | (false, s) => .ok (none, s)
  | (true, s) =>
      let (negative, digits, rest) := scanNumber base s.rest
      let (value, fails) := unsignedValue base width negative digits
      let s := s.readTo rest
      .ok (some value, if fails then s.setFail else s)

/-- The value of an `int` extraction and whether it fails. -/
def intValue (base : ℕ) (negative : Bool) (digits : List ℕ) : Int32 × Bool :=
  if digits = [] then (0, true)
  else
    let magnitude := valueOf base digits
    if negative then
      if 2 ^ 31 < magnitude then (Int32.minValue, true) else (Int32.ofInt (-magnitude), false)
    else if 2 ^ 31 ≤ magnitude then (Int32.maxValue, true)
    else (Int32.ofInt magnitude, false)

/-- `is >> n` for an `int`; `none` leaves the variable as it was. -/
def int (base : ℕ) : Reader (Option Int32) := fun s =>
  match s.sentry with
  | (false, s) => .ok (none, s)
  | (true, s) =>
      let (negative, digits, rest) := scanNumber base s.rest
      let (value, fails) := intValue base negative digits
      let s := s.readTo rest
      .ok (some value, if fails then s.setFail else s)

/-- The use of a variable that an extraction may have left unwritten. -/
def written {α : Type} : Option α → Reader α
  | some a => pure a
  | none => throw (.undefined .indeterminate)

/-- A loop that runs while the next byte is not `stop`, at most `fuel` rounds. -/
def untilPeekFuel {α : Type} (stop : UInt8) (body : Reader α) : ℕ → Reader (List α)
  | 0 => throw (.undefined .nonTermination)
  | fuel + 1 => do
      if (← peek) = some stop then return []
      let a ← body
      return a :: (← untilPeekFuel stop body fuel)

/-- `while (is.peek() != stop)`. Every round has to read a byte. -/
def untilPeek {α : Type} (stop : UInt8) (body : Reader α) : Reader (List α) := fun s =>
  untilPeekFuel stop body (s.rest.length + 1) s

end Reader
end Cxx
