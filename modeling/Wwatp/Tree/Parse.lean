import Wwatp.Cxx.ReaderLocality
import Wwatp.Transport.AppendData
import Wwatp.Tree.Text

/-! Reading a tree node from its text form: `operator>>` of `TreeNode` and of its
parts. A variable that keeps its initial value when an extraction fails is passed
that value; one without an initial value is indeterminate then. -/
namespace Wwatp

open Cxx Cxx.Reader

/-- `operator>>` of `fplus::maybe`, for the way a value is read. -/
def readMaybe {α : Type} (value : Reader α) : Reader (Option α) := do
  let s ← word []
  if s = str "Nothing" then return none
  return some (← value)

/-- `read_length_string`: the label and the string behind it. -/
def readLengthString : Reader (Str × Str) := do
  let label ← word []
  let length ← written (← unsigned 10 64)
  let _delimiter ← word []
  let _newline ← Reader.get
  -- `resize` throws past `max_size` and fills with zeros otherwise
  if 2 ^ 63 - 1 ≤ length then throw .lengthError
  let bytes ← read length
  let _newline ← Reader.get
  return (label, bytes ++ List.replicate (length - bytes.length) 0)

/-- `operator>>` of `TreeNodeVersion`. -/
def readVersion : Reader TreeNodeVersion := do
  let initial : TreeNodeVersion := {}
  let _label ← word []
  let versionNumber ← unsigned 10 16
  let _label ← word []
  let maxVersionSequence ← unsigned 10 16
  let _label ← word []
  let policy ← word initial.policy
  let _label ← word []
  let authorialProof ← readMaybe (word [])
  let _label ← word []
  let authors ← readMaybe (word [])
  let _label ← word []
  let readers ← readMaybe (word [])
  let _label ← word []
  let collisionDepth ← readMaybe (do written (← int 10))
  let _space ← Reader.get
  return {
    versionNumber := (versionNumber.map UInt16.ofNat).getD initial.versionNumber
    maxVersionSequence := (maxVersionSequence.map UInt16.ofNat).getD initial.maxVersionSequence
    policy, authorialProof, authors, readers, collisionDepth }

/-- `s.pop_back()` when the string ends in a comma. `back` of an empty string is undefined. -/
def popComma (s : Str) : Outcome Str :=
  match s.getLast? with
  | none => throw (.undefined .emptyString)
  | some c => .ok (if c = chr ',' then s.dropLast else s)

/-- The name of a property without its parentheses. -/
def stripParentheses (name : Str) : Outcome Str :=
  match name.head?, name.getLast? with
  | some front, some back =>
    .ok (if front = chr '(' ∧ back = chr ')' then (name.drop 1).take (name.length - 2) else name)
  | _, _ => throw (.undefined .emptyString)

/-- `if (is.peek() == ' ') is.get();` -/
def skipSpace : Reader Unit := do
  if (← peek) = some (chr ' ') then
    let _space ← Reader.get

/-- One round of the loop over the property infos. -/
def readPropertyInfo : Reader PropertyInfo := do
  let type ← word []
  let name ← word []
  let name ← popComma name
  let name ← stripParentheses name
  let type ← popComma type
  skipSpace
  return (type, name)

/-- One round of the loop over the child names. -/
def readChildName : Reader Str := do
  let child ← word []
  let child ← popComma child
  skipSpace
  return child

/-- `while (count < 2 && is.get(c))`: the next bytes that are not white space. -/
def readNonSpaceFuel : ℕ → ℕ → Reader Str
  | _, 0 => return []
  | 0, _ + 1 => throw (.undefined .nonTermination)
  | fuel + 1, count + 1 => do
      match ← Reader.get with
      | none => return []
      | some c =>
        if isSpace c then readNonSpaceFuel fuel (count + 1)
        else return c :: (← readNonSpaceFuel fuel count)

def readNonSpace (count : ℕ) : Reader Str := fun s =>
  readNonSpaceFuel (s.rest.length + 1) count s

/-- The value two characters denote in hexadecimal, read through a stream of their own.
That stream is built from a C string, so a zero byte ends it. -/
def hexByte (hex : Str) : Outcome UInt8 := do
  let (value, _) ← int 16 (.ofStr (hex.takeWhile (· != 0)))
  match value with
  | none => throw (.undefined .indeterminate)
  | some value => return .ofNat (value.toInt % 256).toNat

/-- The bytes of a span, two characters each. -/
def readHexBytes : ℕ → Reader (List UInt8)
  | 0 => return []
  | total + 1 => do
      let hex ← readNonSpace 2
      if hex.length < 2 then
        throw (.runtimeError (str "Unexpected end of stream while reading UUEncoded bytes"))
      let b ← hexByte hex
      return b :: (← readHexBytes total)

/-- `shared_span::read` into a span without chunks. -/
def readSpan : Reader SharedSpan := do
  let _label ← word []
  let _label ← word []
  let _signalType ← unsigned 10 16
  let _label ← word []
  let signalSize ← unsigned 10 64
  let _label ← word []
  let dataSize ← unsigned 10 64
  let total := ((← written signalSize) + (← written dataSize)) % 2 ^ 64
  let _label ← word []
  let _label ← word []
  if 2 ^ 63 ≤ total then throw .lengthError
  let data ← readHexBytes total
  let _label ← word []
  if total = 0 then return .empty
  return ← SharedSpan.createFromData data

/-- A string that is empty when there is none. -/
def nothingIfEmpty (s : Str) : Option Str := if s = [] then none else some s

/-- `operator>>` of `TreeNode`. -/
def readNode : Reader TreeNode := do
  let _label ← word []
  let _label ← word []
  let labelRule ← word []
  let description ← readLengthString
  let _label ← word []
  let _bracket ← word []
  let _space ← Reader.get
  let propertyInfos ← untilPeek (chr ']') readPropertyInfo
  let _bracket ← word []
  let _label ← word []
  let version ← readVersion
  let _comma ← word []
  let _label ← word []
  let _bracket ← word []
  let _space ← Reader.get
  let childNames ← untilPeek (chr ']') readChildName
  let _bracket ← word []
  let queryHowTo ← readLengthString
  if queryHowTo.1 ≠ str "query_how_to" then
    throw (.runtimeError (str "Expected 'query_how_to' label, got: " ++ queryHowTo.1))
  let qaSequence ← readLengthString
  if qaSequence.1 ≠ str "qa_sequence" then
    throw (.runtimeError (str "Expected 'qa_sequence' label, got: " ++ qaSequence.1))
  let propertyData ← readSpan
  let _parenthesis ← word []
  let _newline ← Reader.get
  return {
    labelRule, description := description.2, propertyInfos, version, childNames, propertyData
    queryHowTo := nothingIfEmpty queryHowTo.2, qaSequence := nothingIfEmpty qaSequence.2 }

end Wwatp
