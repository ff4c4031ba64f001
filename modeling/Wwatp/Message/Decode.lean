import Wwatp.Message.Encode
import Wwatp.Tree.Parse

/-! The decoders of `http3_tree_message_helpers.cpp`, and the `can_decode` functions
that tell from the chunks received so far whether and where an encoding ends. -/
namespace Wwatp

open Cxx Cxx.Reader

/-- `get_signal<payload_chunk_header>`. -/
def SharedSpan.getPayloadSignal (s : SharedSpan) : Outcome PayloadChunkHeader :=
  match s.chunks with
  | [] => throw (.invalidArgument (str "No signal in the shared_span"))
  | c :: _ =>
    if s.signalType = 2 then .ok (.ofBytes c.data)
    else throw (.invalidArgument (str "Cannot decode signal of type payload_chunk_header" ++
      str " from shared_span with signal type " ++ toDecimal s.signalType.toNat))

/-- What a reader returns for a string. -/
def readFrom {α : Type} (r : Reader α) (s : Str) : Outcome α := do
  return (← r (.ofStr s)).1

/-- The use of a variable that an extraction may have left unwritten. -/
def writtenValue {α : Type} : Option α → Outcome α
  | some a => .ok a
  | none => throw (.undefined .indeterminate)

/-- `iss >> vector_size` for a count sent as a label. -/
def vectorSize (label : Str) : Outcome (Option ℕ) := readFrom (unsigned 10 64) label

def decodeLabel : List SharedSpan → Outcome (ℕ × Str)
  | [] => throw (.undefined .index)
  | chunk :: _ => .ok (1, chunk.bytes)

def canDecodeLabel (start : ℕ) (encoded : List SharedSpan) : Outcome (Option ℕ) :=
  match encoded[start]? with
  | none => .ok none
  | some chunk => do
    if (← chunk.getWireSize) < 6 then
      throw (.invalidArgument (str "Chunk size is less than header size"))
    let header ← chunk.getPayloadSignal
    if chunk.size < header.dataLength.toNat then
      throw (.invalidArgument (str "Chunk size is less than data size"))
    return some (start + 1)

/-- The rounds of `while (string_offset > 0)`: how many chunks follow the first one. -/
def moreChunks : ℕ → Int → ℕ
  | 0, _ => 0
  | fuel + 1, offset => if offset > 0 then moreChunks fuel (offset - maxPayload) + 1 else 0

/-- `string_offset` before the loop: an `int32_t` that a 64-bit length is stored in. -/
def stringOffset (length : ℕ) : Int := ((length : Int) - (maxPayload - 8 : ℕ)).bmod (2 ^ 32)

def canDecodeLongString (start : ℕ) (encoded : List SharedSpan) : Outcome (Option ℕ) :=
  match encoded[start]? with
  | none => .ok none
  | some chunk => do
    if chunk.size < 6 then throw (.invalidArgument (str "Chunk size is less than header size"))
    let length := leValue (← chunk.podAt 8)
    let offset := stringOffset length
    let expected := start + 1 + moreChunks offset.toNat offset
    return if expected > encoded.length then none else some expected

def decodeLongString (encoded : List SharedSpan) : Outcome (ℕ × Str) := do
  match ← canDecodeLongString 0 encoded with
  | none => throw (.invalidArgument (str "Cannot decode long string"))
  | some count =>
    let concatenated := SharedSpan.concat (encoded.take count)
    return (count, (concatenated.restrict 8 concatenated.size).bytes)

/-- The node in the text of a `MaybeTreeNode` and the count of its property chunks. -/
def readMaybeTreeNode : Reader (TreeNode × Option ℕ) := do
  let _just ← word []
  let node ← readNode
  let count ← unsigned 16 64
  return (node, count)

def decodeMaybeTreeNode (encoded : List SharedSpan) : Outcome (ℕ × Option TreeNode) := do
  match ← canDecodeLongString 0 encoded with
  | none => throw (.invalidArgument (str "Cannot decode MaybeTreeNode"))
  | some start =>
    let (_, text) ← decodeLongString encoded
    if text = str "Nothing" then return (start, none)
    let (node, count) ← readFrom readMaybeTreeNode text
    match count with
    -- an indeterminate count can take the iterator anywhere
    | none => throw (.undefined .iterator)
    | some count =>
      let stop := (start + count) % 2 ^ 64
      if stop < start ∨ encoded.length < stop then throw (.undefined .iterator)
      return (stop, some { node with
        propertyData := .concat ((encoded.take stop).drop start) })

/-- The number in the last 16 bytes of a chunk that holds at least as many. -/
def contentsSize (last : SharedSpan) : Outcome (Option ℕ) := do
  let bytes ← last.podAtOffset 16 (6 + last.size - 16)
  readFrom (unsigned 16 64) bytes

def canDecodeMaybeTreeNode (start : ℕ) (encoded : List SharedSpan) : Outcome (Option ℕ) :=
  match encoded[start]? with
  | none => .ok none
  | some chunk => do
    if chunk.size < 6 then throw (.invalidArgument (str "Chunk size is less than header size"))
    match ← canDecodeLongString start encoded with
    | none => return none
    | some count =>
      match encoded[count - 1]? with
      | none => return none
      | some last =>
        if last.size < 16 then
          let (_, text) ← decodeLongString [last]
          return if text = str "Nothing" then some count else none
        else
          let contents ← writtenValue (← contentsSize last)
          let total := (count + contents) % 2 ^ 64
          return if total > encoded.length then none else some total

/-- Elements decoded one after another, each from where the one before it ended. -/
def decodeEach {α : Type} (decode : List SharedSpan → Outcome (ℕ × α)) (encoded : List SharedSpan) :
    ℕ → ℕ → Outcome (ℕ × List α)
  | 0, offset => .ok (offset, [])
  | count + 1, offset => do
    if encoded.length < offset then throw (.undefined .iterator)
    let (used, a) ← decode (encoded.drop offset)
    let (stop, rest) ← decodeEach decode encoded count (offset + used)
    return (stop, a :: rest)

/-- The elements of a vector checked one after another. -/
def canDecodeEach (canDecode : ℕ → List SharedSpan → Outcome (Option ℕ)) (encoded : List SharedSpan) :
    ℕ → ℕ → Outcome (Option ℕ)
  | 0, offset => .ok (some offset)
  | count + 1, offset => do
    match ← canDecode offset encoded with
    | none => return none
    | some next => canDecodeEach canDecode encoded count next

/-- The check that a nested decoder consumed a chunk. -/
def consuming {α : Type} (what : Str) (decode : List SharedSpan → Outcome (ℕ × α))
    (encoded : List SharedSpan) : Outcome (ℕ × α) := do
  let decoded ← decode encoded
  if decoded.1 = 0 then throw (.invalidArgument what)
  return decoded

/-- `iss.tellg() + 1` and the label from there. -/
def labelFrom (text : Str) (tellg : Option ℕ) : Outcome Str :=
  let start := match tellg with
    | some position => position + 1
    | none => 0
  if text.length < start then throw .outOfRange else .ok (text.drop start)

def decodeSequentialNotification (encoded : List SharedSpan) :
    Outcome (ℕ × SequentialNotification) := do
  match ← canDecodeLongString 0 encoded with
  | none => throw (.invalidArgument (str "Cannot decode SequentialNotification"))
  | some count =>
    if count ≠ 1 then throw (.invalidArgument (str "Chunk count is not 1"))
    let (used, text) ← decodeLongString encoded
    let (number, iss) ← unsigned 10 64 (.ofStr text)
    let label ← labelFrom text (iss.tellg text)
    let (usedNode, node) ← consuming (str "Cannot decode MaybeTreeNode") decodeMaybeTreeNode
      (encoded.drop used)
    return (count + usedNode, ⟨.ofNat (← writtenValue number), label, node⟩)

def canDecodeSequentialNotification (start : ℕ) (encoded : List SharedSpan) :
    Outcome (Option ℕ) :=
  match encoded[start]? with
  | none => .ok none
  | some chunk => do
    if chunk.size < 6 then throw (.invalidArgument (str "Chunk size is less than header size"))
    match ← canDecodeLongString start encoded with
    | none => return none
    | some count =>
      if count ≥ encoded.length then return none
      canDecodeMaybeTreeNode count encoded

def decodeVectorSequentialNotification (encoded : List SharedSpan) :
    Outcome (ℕ × List SequentialNotification) := do
  let (used, label) ← decodeLabel encoded
  let size ← writtenValue (← vectorSize label)
  decodeEach decodeSequentialNotification encoded size used

def canDecodeVectorSequentialNotification (start : ℕ) (encoded : List SharedSpan) :
    Outcome (Option ℕ) :=
  if start ≥ encoded.length then .ok none
  else do
    match ← canDecodeLabel start encoded with
    | none => return none
    | some count =>
      let (_, label) ← decodeLabel (encoded.drop (count - 1))
      let size ← writtenValue (← vectorSize label)
      canDecodeEach canDecodeSequentialNotification encoded size (1 + start)

/-- The expected version in front of a label. -/
def readPriorVersion : Reader (Option UInt16) := do
  let version ← word []
  if version = str "Nothing" then return none
  return some (.ofNat (← written (← unsigned 10 16)))

def decodeNewNodeVersion (encoded : List SharedSpan) : Outcome (ℕ × NewNodeVersion) := do
  match ← canDecodeLongString 0 encoded with
  | none => throw (.invalidArgument (str "Cannot decode NewNodeVersion"))
  | some count =>
    if count ≠ 1 then throw (.invalidArgument (str "Chunk count is not 1"))
    let (used, text) ← decodeLongString encoded
    let (version, iss) ← readPriorVersion (.ofStr text)
    let label ← labelFrom text (iss.tellg text)
    let (usedNode, node) ← consuming (str "Cannot decode MaybeTreeNode") decodeMaybeTreeNode
      (encoded.drop used)
    return (count + usedNode, ⟨version, label, node⟩)

def canDecodeNewNodeVersion (start : ℕ) (encoded : List SharedSpan) : Outcome (Option ℕ) :=
  match encoded[start]? with
  | none => .ok none
  | some chunk => do
    if chunk.size < 6 then throw (.invalidArgument (str "Chunk size is less than header size"))
    match ← canDecodeLabel start encoded with
    | none => return none
    | some count => canDecodeMaybeTreeNode count encoded

/-- The label in front of a vector, which has to take one chunk. -/
def decodeCount (what : Str) (encoded : List SharedSpan) : Outcome (ℕ × Option ℕ) := do
  match ← canDecodeLabel 0 encoded with
  | none => throw (.invalidArgument what)
  | some count =>
    if count ≠ 1 then throw (.invalidArgument (str "Chunk count is not 1"))
    let (used, label) ← decodeLabel encoded
    return (used, ← vectorSize label)

/-- The count in front of a vector at `start`, or nothing when it has not arrived. -/
def canDecodeCount (what : Str) (start : ℕ) (encoded : List SharedSpan) :
    Outcome (Option (Option ℕ)) :=
  if start ≥ encoded.length then .ok none
  else do
    match ← canDecodeLabel start encoded with
    | none => return none
    | some count =>
      if count - start ≠ 1 then throw (.invalidArgument what)
      let (_, label) ← decodeLabel (encoded.drop start |>.take 1)
      return some (← vectorSize label)

def decodeSubTransaction (encoded : List SharedSpan) : Outcome (ℕ × SubTransaction) := do
  let (used, size) ← decodeCount (str "Cannot decode SubTransaction") encoded
  let newNode := consuming (str "Cannot decode NewNodeVersion") decodeNewNodeVersion
  let (usedBase, parent) ← newNode (encoded.drop used)
  let (stop, descendants) ← decodeEach newNode encoded (← writtenValue size) (usedBase + 1)
  return (stop, ⟨parent, descendants⟩)

def canDecodeSubTransaction (start : ℕ) (encoded : List SharedSpan) : Outcome (Option ℕ) := do
  match ← canDecodeCount (str "Chunk count for vector length is not 1") start encoded with
  | none => return none
  | some size =>
    match ← canDecodeNewNodeVersion (start + 1) encoded with
    | none => return none
    | some current => canDecodeEach canDecodeNewNodeVersion encoded (← writtenValue size) current

def decodeTransaction (encoded : List SharedSpan) : Outcome (ℕ × Transaction) := do
  let (used, size) ← decodeCount (str "Cannot decode Transaction") encoded
  decodeEach (consuming (str "Cannot decode SubTransaction") decodeSubTransaction) encoded
    (← writtenValue size) used

def canDecodeTransaction (start : ℕ) (encoded : List SharedSpan) : Outcome (Option ℕ) := do
  match ← canDecodeCount (str "Chunk count is not 1") start encoded with
  | none => return none
  | some size => canDecodeEach canDecodeSubTransaction encoded (← writtenValue size) (start + 1)

/-- A node of a vector, which must not be nothing. -/
def decodeTreeNode (encoded : List SharedSpan) : Outcome (ℕ × TreeNode) := do
  let (used, node) ← consuming (str "Cannot decode TreeNode") decodeMaybeTreeNode encoded
  match node with
  | none => throw (.invalidArgument (str "TreeNode is nothing"))
  | some node => return (used, node)

def decodeVectorTreeNode (encoded : List SharedSpan) : Outcome (ℕ × List TreeNode) := do
  let (used, size) ← decodeCount (str "Cannot decode VectorTreeNode") encoded
  decodeEach decodeTreeNode encoded (← writtenValue size) used

def canDecodeVectorTreeNode (start : ℕ) (encoded : List SharedSpan) : Outcome (Option ℕ) := do
  match ← canDecodeCount (str "Chunk count is not 1") start encoded with
  | none => return none
  | some size => canDecodeEach canDecodeMaybeTreeNode encoded (← writtenValue size) (start + 1)

/-- The values that have a decoder of their own. -/
inductive Decoder
  | label | longString | maybeTreeNode | sequentialNotification | vectorSequentialNotification
  | newNodeVersion | subTransaction | transaction | vectorTreeNode
  deriving DecidableEq, Repr

/-- The type of the decoded values. -/
abbrev Decoder.Value : Decoder → Type
  | label | longString => Str
  | maybeTreeNode => Option TreeNode
  | sequentialNotification => SequentialNotification
  | vectorSequentialNotification => List SequentialNotification
  | newNodeVersion => NewNodeVersion
  | subTransaction => SubTransaction
  | transaction => Transaction
  | vectorTreeNode => List TreeNode

def Decoder.canDecode : Decoder → ℕ → List SharedSpan → Outcome (Option ℕ)
  | label => canDecodeLabel
  | longString => canDecodeLongString
  | maybeTreeNode => canDecodeMaybeTreeNode
  | sequentialNotification => canDecodeSequentialNotification
  | vectorSequentialNotification => canDecodeVectorSequentialNotification
  | newNodeVersion => canDecodeNewNodeVersion
  | subTransaction => canDecodeSubTransaction
  | transaction => canDecodeTransaction
  | vectorTreeNode => canDecodeVectorTreeNode

def Decoder.decode : (x : Decoder) → List SharedSpan → Outcome (ℕ × x.Value)
  | label => decodeLabel
  | longString => decodeLongString
  | maybeTreeNode => decodeMaybeTreeNode
  | sequentialNotification => decodeSequentialNotification
  | vectorSequentialNotification => decodeVectorSequentialNotification
  | newNodeVersion => decodeNewNodeVersion
  | subTransaction => decodeSubTransaction
  | transaction => decodeTransaction
  | vectorTreeNode => decodeVectorTreeNode

end Wwatp
