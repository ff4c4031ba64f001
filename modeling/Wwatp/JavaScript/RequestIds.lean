import Wwatp.JavaScript.ResponseHandler

/-! The client puts the id of its message on every chunk of a response. No codec looks at it. -/
namespace Wwatp
namespace JavaScript

open Cxx

section Chunks

variable (requestId : UInt16)

@[simp] theorem payload_withRequestId (chunk : SpanChunk) : (chunk.withRequestId requestId).payload = chunk.payload := by
  obtain ⟨header, payload⟩ := chunk
  cases header <;> rfl

@[simp] theorem hasPayloadHeader_withRequestId (chunk : SpanChunk) :
    (chunk.withRequestId requestId).hasPayloadHeader = chunk.hasPayloadHeader := by
  obtain ⟨header, payload⟩ := chunk
  cases header <;> rfl

@[simp] theorem signal_withRequestId (chunk : SpanChunk) : (chunk.withRequestId requestId).signal = chunk.signal := by
  obtain ⟨header, payload⟩ := chunk
  cases header <;> rfl

theorem collect_withRequestId (need : ℕ) (chunks : List SpanChunk) :
    collect need (chunks.map (SpanChunk.withRequestId requestId)) = collect need chunks := by
  induction chunks generalizing need with
  | nil => rfl
  | cons chunk rest ih =>
      cases need with
      | zero => rfl
      | succ need =>
          rw [List.map_cons, collect, collect, hasPayloadHeader_withRequestId, payload_withRequestId]
          dsimp only
          rw [ih]

theorem chunksTo_withRequestId (totalNeeded acc : ℕ) (chunks : List SpanChunk) :
    chunksTo totalNeeded (chunks.map (SpanChunk.withRequestId requestId)) acc = chunksTo totalNeeded chunks acc := by
  induction chunks generalizing acc with
  | nil => rfl
  | cons chunk rest ih => rw [List.map_cons, chunksTo, chunksTo, payload_withRequestId, ih]

theorem countChunks_withRequestId (totalNeeded available : ℕ) (seen chunks : List SpanChunk) :
    countChunks totalNeeded (seen.map (SpanChunk.withRequestId requestId))
        (chunks.map (SpanChunk.withRequestId requestId)) available =
      countChunks totalNeeded seen chunks available := by
  induction chunks generalizing seen available with
  | nil => rfl
  | cons chunk rest ih =>
      have hSeen : seen.map (SpanChunk.withRequestId requestId) ++ [chunk.withRequestId requestId] =
          (seen ++ [chunk]).map (SpanChunk.withRequestId requestId) := by
        rw [List.map_append, List.map_singleton]
      rw [List.map_cons, countChunks, countChunks, hasPayloadHeader_withRequestId, payload_withRequestId]
      dsimp only
      rw [hSeen, chunksTo_withRequestId, ih]

theorem collectPayloadBytes_withRequestId (chunks : List SpanChunk) :
    collectPayloadBytes (chunks.map (SpanChunk.withRequestId requestId)) = collectPayloadBytes chunks := by
  rw [collectPayloadBytes, collectPayloadBytes, List.flatMap_map]
  simp only [hasPayloadHeader_withRequestId, payload_withRequestId]

theorem sliceChunks_withRequestId (start stop : ℕ) (chunks : List SpanChunk) :
    sliceChunks start stop (chunks.map (SpanChunk.withRequestId requestId)) =
      (sliceChunks start stop chunks).map (SpanChunk.withRequestId requestId) := by
  rw [sliceChunks, sliceChunks, List.map_drop, List.map_take]

end Chunks

/-- A function of chunks from a start on that does not look at the ids. -/
def IgnoresIds {Result : Type} (read : ℕ → List SpanChunk → Result) : Prop :=
  ∀ requestId start chunks, read start (chunks.map (SpanChunk.withRequestId requestId)) = read start chunks

namespace IgnoresIds

variable {Value : Type} {scan : Scan SpanChunk} {decode : ℕ → List SpanChunk → Option (ℕ × Value)}

theorem times (h : IgnoresIds scan) (n : ℕ) : IgnoresIds (Cxx.times scan n) := by
  intro requestId start chunks
  induction n generalizing start with
  | zero => rfl
  | succ n ih => simp only [Cxx.times, h requestId, ih]

theorem decodeTimes (h : IgnoresIds decode) (n : ℕ) : IgnoresIds (Cxx.decodeTimes decode n) := by
  intro requestId start chunks
  induction n generalizing start with
  | zero => rfl
  | succ n ih => simp only [Cxx.decodeTimes, h requestId, ih]

theorem label : IgnoresIds canDecodeChunksLabel := by
  intro requestId start chunks
  rw [canDecodeChunksLabel, canDecodeChunksLabel, List.getElem?_map]
  cases chunks[start]? with
  | none => rfl
  | some chunk => simp

theorem decodeLabel : IgnoresIds decodeChunksLabel := by
  intro requestId start chunks
  rw [decodeChunksLabel, decodeChunksLabel, label, List.getElem?_map]
  cases chunks[start]? with
  | none => rfl
  | some chunk => simp

theorem longString : IgnoresIds canDecodeChunksLongString := by
  intro requestId start chunks
  rw [canDecodeChunksLongString, canDecodeChunksLongString, List.length_map, ← List.map_drop, collect_withRequestId]
  simp only [← countChunks_withRequestId requestId _ _ [] (chunks.drop start), List.map_nil]

theorem text (start stop : ℕ) (chunks : List SpanChunk) (requestId : UInt16) :
    longStringText start stop (chunks.map (SpanChunk.withRequestId requestId)) = longStringText start stop chunks := by
  rw [longStringText, longStringText, sliceChunks_withRequestId, collectPayloadBytes_withRequestId]

theorem decodeLongString : IgnoresIds decodeChunksLongString := by
  intro requestId start chunks
  simp only [decodeChunksLongString, longString requestId, text]

theorem maybeTreeNode : IgnoresIds canDecodeChunksMaybeTreeNode := by
  intro requestId start chunks
  simp only [canDecodeChunksMaybeTreeNode, longString requestId, text, List.length_map]

theorem decodeMaybeTreeNode : IgnoresIds decodeChunksMaybeTreeNode := by
  intro requestId start chunks
  simp only [decodeChunksMaybeTreeNode, longString requestId, text, List.length_map, sliceChunks_withRequestId,
    collectPayloadBytes_withRequestId]

theorem headerAndNode : IgnoresIds canDecodeHeaderAndNode := by
  intro requestId start chunks
  simp only [canDecodeHeaderAndNode, longString requestId, maybeTreeNode requestId]

theorem decodeSequentialNotification : IgnoresIds decodeChunksSequentialNotification := by
  intro requestId start chunks
  simp only [decodeChunksSequentialNotification, decodeLongString requestId, decodeMaybeTreeNode requestId]

theorem counted (h : IgnoresIds scan) : IgnoresIds (canDecodeCounted scan) := by
  intro requestId start chunks
  have hCount : countOf (chunks.map (SpanChunk.withRequestId requestId)) start = countOf chunks start := by
    rw [countOf, countOf, decodeLabel]
  simp only [canDecodeCounted, label requestId, hCount, h.times _ requestId]

theorem decodeCounted (h : IgnoresIds decode) : IgnoresIds (JavaScript.decodeCounted decode) := by
  intro requestId start chunks
  simp only [JavaScript.decodeCounted, decodeLabel requestId, h.decodeTimes _ requestId]

theorem decodeVectorTreeNode : IgnoresIds decodeChunksVectorTreeNode := by
  intro requestId start chunks
  simp only [decodeChunksVectorTreeNode, decodeMaybeTreeNode.decodeCounted requestId]

/-- Every scan for a response. -/
theorem response {signal : UInt8} (hScan : responseScan signal = some scan) : IgnoresIds scan := by
  unfold responseScan at hScan
  split at hScan
  all_goals first
    | (obtain rfl := Option.some.inj hScan; exact maybeTreeNode)
    | (obtain rfl := Option.some.inj hScan; exact maybeTreeNode.counted)
    | (obtain rfl := Option.some.inj hScan; exact headerAndNode.counted)
    | (obtain rfl := Option.some.inj hScan; exact label)
    | cases hScan

end IgnoresIds

end JavaScript
end Wwatp
