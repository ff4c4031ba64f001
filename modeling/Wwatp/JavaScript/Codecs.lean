import Wwatp.Cxx.Frames
import Wwatp.JavaScript.NodeText
import Wwatp.Message.MaybeTreeNodeCodec

/-! The codecs of the JavaScript client: their chunks say where a value ends. -/
namespace Wwatp
namespace JavaScript

open Cxx

/-- The longest string of the engine in Node, for which `package.json` asks. Making a longer one throws. -/
def maxStringLength : ℕ := 2 ^ 29 - 24

/-- The longest array. -/
def maxArrayLength : ℕ := 2 ^ 32 - 1

/-- A string that is put together from parts. -/
def checkedString (s : JSString) : Option JSString := if s.length ≤ maxStringLength then some s else none

def checkedArray (chunks : List SpanChunk) : Option (List SpanChunk) :=
  if chunks.length ≤ maxArrayLength then some chunks else none

def collectPayloadBytes (chunks : List SpanChunk) : List UInt8 :=
  chunks.flatMap fun chunk => if chunk.hasPayloadHeader then chunk.payload else []

/-- `chunks.slice(start, stop)` -/
def sliceChunks (start stop : ℕ) (chunks : List SpanChunk) : List SpanChunk := (chunks.take stop).drop start

def encodeChunksLabel (requestId : UInt16) (signal : UInt8) (s : JSString) : Option (List SpanChunk) :=
  if (utf8Bytes s).length > 1200 - 6 then none
  else some [.ofPayload requestId signal (utf8Bytes s)]

def canDecodeChunksLabel : Scan SpanChunk := fun startChunk chunks =>
  match chunks[startChunk]? with
  | none => none
  | some chunk => if chunk.hasPayloadHeader then some (startChunk + 1) else none

def decodeChunksLabel (startChunk : ℕ) (chunks : List SpanChunk) : Option (ℕ × JSString) := do
  let next ← canDecodeChunksLabel startChunk chunks
  let chunk ← chunks[startChunk]?
  return (next, utf8Decode chunk.payload)

/-- The string in the chunks of a long string. -/
def longStringText (startChunk endChunk : ℕ) (chunks : List SpanChunk) : JSString :=
  let bytes := collectPayloadBytes (sliceChunks startChunk endChunk chunks)
  utf8Decode ((bytes.drop 8).take (leValue (bytes.take 8)))

def decodeChunksLongString (startChunk : ℕ) (chunks : List SpanChunk) : Option (ℕ × JSString) := do
  let endChunk ← canDecodeChunksLongString startChunk chunks
  return (endChunk, longStringText startChunk endChunk chunks)

def encodeChunksMaybeTreeNode (requestId : UInt16) (signal : UInt8) :
    Option JSTreeNode → Option (List SpanChunk)
  | none => some (encodeChunksLongString requestId signal (toUSVString (js "Nothing")))
  | some node => do
    let text := js "Just " ++ formatTreeNodeText node ++ js "\n"
    let contentsChunks ← checkedArray (flattenWithSignal node.propertyData signal requestId)
    let hexCount := ofStr (padLeft 16 (chr '0') (toBase 16 contentsChunks.length))
    let fullText ← checkedString (text ++ hexCount)
    checkedArray (encodeChunksLongString requestId signal (toUSVString fullText) ++ contentsChunks)

/-- The last 16 units of a text. -/
def hexEnd (text : JSString) : JSString := text.drop (text.length - 16)

def canDecodeChunksMaybeTreeNode : Scan SpanChunk := fun startChunk chunks => do
  let afterStr ← canDecodeChunksLongString startChunk chunks
  let text := longStringText startChunk afterStr chunks
  if text = js "Nothing" then some afterStr
  else if text.length < 16 then none
  else if ¬isDigits 16 (hexEnd text) then none
  else
    let stop := afterStr + (toUint32 (parseInt 16 (hexEnd text))).toNat
    if stop > chunks.length then none else some stop

def decodeChunksMaybeTreeNode (startChunk : ℕ) (chunks : List SpanChunk) : Option (ℕ × Option JSTreeNode) := do
  let afterStr ← canDecodeChunksLongString startChunk chunks
  let text := longStringText startChunk afterStr chunks
  if text = js "Nothing" then some (afterStr, none)
  else if ¬js "Just " <+: text then none
  else if text.length < 16 then none
  else
    let node ← parseTreeNodeText ((text.take (text.length - 16)).drop 5)
    let stop := afterStr + (toUint32 (parseInt 16 (hexEnd text))).toNat
    if stop > chunks.length then none
    else some (stop, some { node with propertyData := collectPayloadBytes (sliceChunks afterStr stop chunks) })

structure JSSequentialNotification where
  signalCount : Number
  labelRule : JSString
  maybeNode : Option JSTreeNode

/-- A text and a node after it. -/
def encodeHeaderAndNode (requestId : UInt16) (signal : UInt8) (text : JSString) (maybeNode : Option JSTreeNode) :
    Option (List SpanChunk) := do
  let text ← checkedString text
  let maybeChunks ← encodeChunksMaybeTreeNode requestId signal maybeNode
  checkedArray (encodeChunksLongString requestId signal (toUSVString text) ++ maybeChunks)

def canDecodeHeaderAndNode : Scan SpanChunk := fun startChunk chunks => do
  let afterStr ← canDecodeChunksLongString startChunk chunks
  canDecodeChunksMaybeTreeNode afterStr chunks

def encodeChunksSequentialNotification (requestId : UInt16) (signal : UInt8) (sn : JSSequentialNotification) :
    Option (List SpanChunk) :=
  encodeHeaderAndNode requestId signal
    (numberToString (some (toUint32 sn.signalCount).toNat) ++ js " " ++ sn.labelRule) sn.maybeNode

def canDecodeChunksSequentialNotification : Scan SpanChunk := canDecodeHeaderAndNode

def decodeChunksSequentialNotification (startChunk : ℕ) (chunks : List SpanChunk) :
    Option (ℕ × JSSequentialNotification) := do
  let (afterStr, text) ← decodeChunksLongString startChunk chunks
  let number := text.takeWhile (· ≠ 0x20)
  let signalCount := toUint32 (parseInt 10 number)
  let labelRule := text.drop (number.length + 1)
  let (nextChunk, maybeNode) ← decodeChunksMaybeTreeNode afterStr chunks
  return (nextChunk, ⟨some signalCount.toNat, labelRule, maybeNode⟩)

/-- `[maybeVersion, [labelRule, maybeTreeNode]]` -/
abbrev JSNewNodeVersion := Option Number × (JSString × Option JSTreeNode)

/-- `[mainNewNodeVersion, descendantNewNodeVersions]` -/
abbrev JSSubTransaction := JSNewNodeVersion × List JSNewNodeVersion

abbrev JSTransaction := List JSSubTransaction

def encodeChunksNewNodeVersion (requestId : UInt16) (signal : UInt8) : JSNewNodeVersion → Option (List SpanChunk)
  | (maybeVersion, (labelRule, maybeTreeNode)) =>
    let text := match maybeVersion with
      | none => js "Nothing"
      | some version => js "Just " ++ numberToString version
    encodeHeaderAndNode requestId signal (text ++ js " " ++ labelRule) maybeTreeNode

def canDecodeChunksNewNodeVersion : Scan SpanChunk := canDecodeHeaderAndNode

/-- The version and the label in the text of a change. -/
def parseVersionAndLabel (text : JSString) : Option (Option Number × JSString) :=
  if js "Nothing" <+: text then some (none, text.drop 8)
  else if js "Just " <+: text then
    let number := (text.drop 5).takeWhile (· ≠ 0x20)
    if 5 + number.length < text.length then some (some (parseInt 10 number), text.drop (5 + number.length + 1))
    else some (none, [])
  else none

def decodeChunksNewNodeVersion (startChunk : ℕ) (chunks : List SpanChunk) : Option (ℕ × JSNewNodeVersion) := do
  let (afterStr, text) ← decodeChunksLongString startChunk chunks
  let (version, label) ← parseVersionAndLabel text
  let (nextChunk, maybeNode) ← decodeChunksMaybeTreeNode afterStr chunks
  return (nextChunk, (version, (label, maybeNode)))

/-- A label with a count and the chunks of the values behind it, which are pushed one after the other. -/
def encodeCounted (requestId : UInt16) (signal : UInt8) (count : ℕ) (values : List (Option (List SpanChunk))) :
    Option (List SpanChunk) := do
  let label ← encodeChunksLabel requestId signal (ofStr (toDecimal count))
  let chunks ← values.mapM id
  checkedArray (label ++ chunks.flatten)

/-- The count in a label, if it is made of digits. -/
def countOf (chunks : List SpanChunk) (startChunk : ℕ) : Option ℕ := do
  let (_, countStr) ← decodeChunksLabel startChunk chunks
  if isDigits 10 countStr then some (toUint32 (parseInt 10 countStr)).toNat else none

/-- The loop over the values behind a count. -/
def canDecodeCounted (scan : Scan SpanChunk) : Scan SpanChunk := fun startChunk chunks => do
  let afterCount ← canDecodeChunksLabel startChunk chunks
  let n ← countOf chunks startChunk
  times scan n afterCount chunks

/-- The loop of a decoder, which does not look whether the count is made of digits. -/
def decodeCounted {Value : Type} (decode : ℕ → List SpanChunk → Option (ℕ × Value)) (startChunk : ℕ)
    (chunks : List SpanChunk) : Option (ℕ × List Value) := do
  let (afterCount, countStr) ← decodeChunksLabel startChunk chunks
  decodeTimes decode (toUint32 (parseInt 10 countStr)).toNat afterCount chunks

def encodeChunksVectorSequentialNotification (requestId : UInt16) (signal : UInt8)
    (vec : List JSSequentialNotification) : Option (List SpanChunk) :=
  encodeCounted requestId signal (vec.length % 2 ^ 32) (vec.map (encodeChunksSequentialNotification requestId signal))

def canDecodeChunksVectorSequentialNotification : Scan SpanChunk :=
  canDecodeCounted canDecodeChunksSequentialNotification

def decodeChunksVectorSequentialNotification (startChunk : ℕ) (chunks : List SpanChunk) :
    Option (ℕ × List JSSequentialNotification) :=
  decodeCounted decodeChunksSequentialNotification startChunk chunks

def encodeChunksSubTransaction (requestId : UInt16) (signal : UInt8) : JSSubTransaction → Option (List SpanChunk)
  | (main, descendants) =>
    encodeCounted requestId signal descendants.length
      ((main :: descendants).map (encodeChunksNewNodeVersion requestId signal))

def canDecodeChunksSubTransaction : Scan SpanChunk := fun startChunk chunks => do
  let afterCount ← canDecodeChunksLabel startChunk chunks
  let n ← countOf chunks startChunk
  let mainEnd ← canDecodeChunksNewNodeVersion afterCount chunks
  times canDecodeChunksNewNodeVersion n mainEnd chunks

def decodeChunksSubTransaction (startChunk : ℕ) (chunks : List SpanChunk) : Option (ℕ × JSSubTransaction) := do
  let (afterCount, countStr) ← decodeChunksLabel startChunk chunks
  let (afterMain, main) ← decodeChunksNewNodeVersion afterCount chunks
  let (nextChunk, descendants) ←
    decodeTimes decodeChunksNewNodeVersion (toUint32 (parseInt 10 countStr)).toNat afterMain chunks
  return (nextChunk, (main, descendants))

def encodeChunksTransaction (requestId : UInt16) (signal : UInt8) (transaction : JSTransaction) :
    Option (List SpanChunk) :=
  encodeCounted requestId signal transaction.length (transaction.map (encodeChunksSubTransaction requestId signal))

def canDecodeChunksTransaction : Scan SpanChunk := canDecodeCounted canDecodeChunksSubTransaction

def decodeChunksTransaction (startChunk : ℕ) (chunks : List SpanChunk) : Option (ℕ × JSTransaction) :=
  decodeCounted decodeChunksSubTransaction startChunk chunks

def encodeChunksVectorTreeNode (requestId : UInt16) (signal : UInt8) (nodes : List JSTreeNode) :
    Option (List SpanChunk) :=
  encodeCounted requestId signal (nodes.length % 2 ^ 32)
    (nodes.map fun node => encodeChunksMaybeTreeNode requestId signal (some node))

def canDecodeChunksVectorTreeNode : Scan SpanChunk := canDecodeCounted canDecodeChunksMaybeTreeNode

/-- Values that are nothing are left out. -/
def decodeChunksVectorTreeNode (startChunk : ℕ) (chunks : List SpanChunk) : Option (ℕ × List JSTreeNode) := do
  let (nextChunk, values) ← decodeCounted decodeChunksMaybeTreeNode startChunk chunks
  return (nextChunk, values.filterMap id)

end JavaScript
end Wwatp
