import Wwatp.Message.Codec
import Wwatp.Message.LongString
import Wwatp.Tree.ParseLocality
import Wwatp.Tree.TextRoundTrip

/-! The codec of optional tree nodes: the text of the node, the number of its property
chunks in hexadecimal, and these chunks. Decoding reads the number from the text;
`can_decode` reads it from the last 16 bytes of the last chunk of the text. -/
namespace Wwatp

open Cxx Cxx.Reader

/-- `operator>>` reads back what `operator<<` writes, up to its end; the property data is
not part of the text. -/
def TreeNode.TextRoundTrips (n : TreeNode) : Prop :=
  ∃ text, n.text = .ok text ∧
    readNode (.ofStr text) = .ok ({ n with propertyData := .empty }, .ofStr [])

section Count

variable {count : ℕ}

/-- The count is written with 16 hexadecimal digits, zeros in front. -/
theorem chunkCountText_eq (h : count < 2 ^ 64) :
    ∃ digits, digits.length = 16 ∧ (∀ d ∈ digits, d < 16) ∧ valueOf 16 digits = count ∧
      chunkCountText count = digits.map digitChar := by
  have hWidth : (digitsOf 16 count).length ≤ 16 := by
    have hPow : count < 16 ^ 16 := by
      norm_num at h ⊢
      exact h
    have hLe := toBase_length_le (by decide) (by decide) hPow
    rwa [toBase_eq, List.length_map] at hLe
  refine ⟨List.replicate (16 - (digitsOf 16 count).length) 0 ++ digitsOf 16 count, ?_, ?_, ?_, ?_⟩
  · rw [List.length_append, List.length_replicate]
    omega
  · intro d hd
    rcases List.mem_append.mp hd with hZero | hDigit
    · rw [List.eq_of_mem_replicate hZero]
      decide
    · exact digitsOf_lt (by decide) d hDigit
  · rw [valueOf_replicate_zero, valueOf_digitsOf]
  · rw [chunkCountText, padLeft, toBase_eq, List.length_map, List.map_append, List.map_replicate]
    rfl

theorem length_chunkCountText (h : count < 2 ^ 64) : (chunkCountText count).length = 16 := by
  obtain ⟨digits, hLength, -, -, hText⟩ := chunkCountText_eq h
  rw [hText, List.length_map, hLength]

theorem unsigned_chunkCountText (h : count < 2 ^ 64) {spaces : Str}
    (hSpaces : ∀ b ∈ spaces, isSpace b = true) :
    unsigned 16 64 (.ofStr (spaces ++ chunkCountText count)) =
      .ok (some count, { rest := [], eof := true }) := by
  obtain ⟨digits, hLength, hLess, hValue, hText⟩ := chunkCountText_eq h
  have hNe : digits ≠ [] := by
    rintro rfl
    cases hLength
  have hWidth : valueOf 16 digits < 2 ^ 64 := by
    rw [hValue]
    exact h
  have hEnd : ∀ c ∈ ([] : Str).head?, isSpace c = true := nofun
  have hRead := unsigned_digits (by decide) hSpaces hNe hLess hEnd hWidth
  rwa [List.append_nil, hValue, ← hText] at hRead

/-- No digit of the count is an `N`. -/
theorem notMem_chunkCountText (h : count < 2 ^ 64) : chr 'N' ∉ chunkCountText count := by
  obtain ⟨digits, -, hLess, -, hText⟩ := chunkCountText_eq h
  rw [hText, List.mem_map]
  rintro ⟨d, hd, hN⟩
  have hd := hLess d hd
  interval_cases d <;> cases hN

end Count

section

variable (requestId : UInt16) (signal : UInt8)

def maybeTreeNodeCodec : Codec (Option TreeNode) where
  encode := encodeMaybeTreeNode requestId signal
  decode := decodeMaybeTreeNode
  canDecode := canDecodeMaybeTreeNode

/-- The number of bytes in the last chunk of a long string of this length. -/
def lastChunkSize (length : ℕ) : ℕ := (length + 7) % 1194 + 1

/-- The bytes in the last chunk of a long string. -/
def lastPayload (s : Str) : List UInt8 :=
  (leBytes 8 s.length ++ s).drop (maxPayload * ((s.length + 7) / maxPayload))

theorem length_lastPayload (s : Str) : (lastPayload s).length = lastChunkSize s.length := by
  have hSplit := Nat.div_add_mod (s.length + 7) 1194
  rw [lastPayload, List.length_drop, List.length_append, leBytes_length, maxPayload, lastChunkSize]
  omega

/-- The last bytes of the last chunk are the last bytes of the string. -/
theorem drop_lastPayload {front back : Str} (h : back.length ≤ lastChunkSize (front ++ back).length) :
    (lastPayload (front ++ back)).drop ((lastPayload (front ++ back)).length - back.length) = back := by
  have hSplit := Nat.div_add_mod ((front ++ back).length + 7) 1194
  have hSum : maxPayload * (((front ++ back).length + 7) / maxPayload) +
      (lastChunkSize (front ++ back).length - back.length) =
        (leBytes 8 (front ++ back).length ++ front).length := by
    simp only [lastChunkSize, List.length_append, leBytes_length, maxPayload] at h hSplit ⊢
    omega
  rw [length_lastPayload, lastPayload, List.drop_drop, hSum, ← List.append_assoc, List.drop_left]

theorem contentsSize_payloadSpan {payload : List UInt8} (hFits : payload.length ≤ maxPayload)
    (hLong : 16 ≤ payload.length) :
    contentsSize (payloadSpan requestId signal payload) =
      readFrom (unsigned 16 64) (payload.drop (payload.length - 16)) := by
  have hData : (payloadChunk requestId signal payload).data =
      (ChunkHeader.payload ⟨requestId, signal, .ofNat payload.length⟩).toBytes ++ payload :=
    congrArg (_ ++ ·) (List.take_of_length_le hFits)
  have hOffset : 6 + payload.length - 16 ≤ (payloadChunk requestId signal payload).data.length := by
    rw [hData, List.length_append, ChunkHeader.toBytes_length]
    exact Nat.sub_le _ _
  have hDrop : (payloadChunk requestId signal payload).data.drop (6 + payload.length - 16) =
      payload.drop (payload.length - 16) := by
    have hSum : 6 + payload.length - 16 = (ChunkHeader.payload
        ⟨requestId, signal, .ofNat payload.length⟩).toBytes.length + (payload.length - 16) := by
      rw [ChunkHeader.toBytes_length]
      exact Nat.add_sub_assoc hLong 6
    rw [hData, hSum, List.drop_length_add_append]
  have hTail : (payload.drop (payload.length - 16)).length = 16 := by
    rw [List.length_drop]
    omega
  rw [contentsSize, size_payloadSpan, payloadSpan_of_le requestId signal hFits, SharedSpan.podAtOffset]
  simp only [if_neg (Nat.not_lt.mpr hOffset), hDrop, SharedSpan.podFromChunk, hTail, le_refl, if_true,
    List.take_of_length_le, Outcome.ok_bind]

theorem lastPayload_le (s : Str) : (lastPayload s).length ≤ maxPayload := by
  rw [length_lastPayload, lastChunkSize, maxPayload]
  omega

/-- Behind the encoding of a text, `can_decode` looks at its last chunk only. -/
theorem canDecodeMaybeTreeNode_encode {s : Str} (hLength : s.length < 2 ^ 31 + 1186)
    (front back : List SharedSpan) :
    canDecodeMaybeTreeNode front.length (front ++ encodeLongString requestId signal s ++ back) =
      let count := front.length + (encodeLongString requestId signal s).length
      let last := payloadSpan requestId signal (lastPayload s)
      if lastChunkSize s.length < 16 then do
        let (_, text) ← decodeLongString [last]
        return if text = str "Nothing" then some count else none
      else do
        let contents ← writtenValue (← contentsSize last)
        let total := (count + contents) % 2 ^ 64
        return if total > (front ++ encodeLongString requestId signal s ++ back).length then none
          else some total := by
  have hCan := canDecodeLongString_encode requestId signal (s := s) (by omega) front back
  rw [longStringChunks_of_lt hLength, ← length_encodeLongString requestId signal] at hCan
  have hPos : 0 < (encodeLongString requestId signal s).length := by
    rw [length_encodeLongString]
    omega
  have hFirst : (front ++ encodeLongString requestId signal s ++ back)[front.length]? =
      some (payloadSpan requestId signal (leBytes 8 s.length ++ s.take (maxPayload - 8))) := by
    rw [List.append_assoc, List.getElem?_append_right (Nat.le_refl _), Nat.sub_self]
    rfl
  have hSize : ¬(payloadSpan requestId signal
      (leBytes 8 s.length ++ s.take (maxPayload - 8))).size < 6 := by
    rw [size_payloadSpan, List.length_append, leBytes_length]
    omega
  have hLast : (front ++ encodeLongString requestId signal s ++ back)[
      front.length + (encodeLongString requestId signal s).length - 1]? =
        some (payloadSpan requestId signal (lastPayload s)) := by
    rw [List.append_assoc, Nat.add_sub_assoc hPos, List.getElem?_append_right (by omega),
      Nat.add_sub_cancel_left, List.getElem?_append_left (by omega), ← List.getLast?_eq_getElem?,
      getLast?_encodeLongString]
    rfl
  simp only [canDecodeMaybeTreeNode, hFirst, if_neg hSize, hCan, Outcome.ok_bind, hLast]
  rw [size_payloadSpan, length_lastPayload]

/-- The count of property chunks at the end of the last chunk is read from it. -/
theorem contentsSize_lastPayload {body : Str} {count : ℕ} (hCount : count < 2 ^ 64)
    (hLast : 16 ≤ lastChunkSize (body ++ chunkCountText count).length) :
    contentsSize (payloadSpan requestId signal (lastPayload (body ++ chunkCountText count))) = .ok (some count) := by
  have hSixteen := length_chunkCountText hCount
  have hTail := drop_lastPayload (show (chunkCountText count).length ≤
    lastChunkSize (body ++ chunkCountText count).length by rw [hSixteen]; exact hLast)
  rw [hSixteen] at hTail
  rw [contentsSize_payloadSpan requestId signal (lastPayload_le _)
    (by rw [length_lastPayload]; exact hLast), hTail, readFrom]
  have hRead := unsigned_chunkCountText hCount (List.forall_mem_nil (isSpace · = true))
  rw [List.nil_append] at hRead
  rw [hRead]
  rfl

/-- A count of property chunks at the end of the last chunk is found. -/
theorem canDecodeMaybeTreeNode_encode_of_le {body : Str} {count : ℕ} (hCount : count < 2 ^ 64)
    (hLength : (body ++ chunkCountText count).length < 2 ^ 31 + 1186)
    (hLast : 16 ≤ lastChunkSize (body ++ chunkCountText count).length) {front back : List SharedSpan}
    (hBack : count ≤ back.length)
    (hSize : (front ++ encodeLongString requestId signal (body ++ chunkCountText count) ++
      back).length < 2 ^ 64) :
    canDecodeMaybeTreeNode front.length
        (front ++ encodeLongString requestId signal (body ++ chunkCountText count) ++ back) =
      .ok (some (front.length +
        (encodeLongString requestId signal (body ++ chunkCountText count)).length + count)) := by
  have hContents := contentsSize_lastPayload requestId signal hCount hLast
  rw [canDecodeMaybeTreeNode_encode requestId signal hLength]
  simp only [if_neg (Nat.not_lt.mpr hLast), hContents, Outcome.ok_bind, writtenValue,
    Outcome.pure_eq_ok]
  simp only [List.length_append] at hSize ⊢
  rw [Nat.mod_eq_of_lt (by omega), if_neg (by omega)]

/-- As long as property chunks are missing, none is found. -/
theorem canDecodeMaybeTreeNode_encode_of_missing {body : Str} {count : ℕ} (hCount : count < 2 ^ 64)
    (hLength : (body ++ chunkCountText count).length < 2 ^ 31 + 1186)
    (hLast : 16 ≤ lastChunkSize (body ++ chunkCountText count).length) {front back : List SharedSpan}
    (hBack : back.length < count)
    (hSize : (front ++ encodeLongString requestId signal (body ++ chunkCountText count)).length + count < 2 ^ 64) :
    canDecodeMaybeTreeNode front.length
        (front ++ encodeLongString requestId signal (body ++ chunkCountText count) ++ back) = .ok none := by
  have hContents := contentsSize_lastPayload requestId signal hCount hLast
  rw [canDecodeMaybeTreeNode_encode requestId signal hLength]
  simp only [if_neg (Nat.not_lt.mpr hLast), hContents, Outcome.ok_bind, writtenValue,
    Outcome.pure_eq_ok]
  simp only [List.length_append] at hSize ⊢
  rw [Nat.mod_eq_of_lt (by omega), if_pos (by omega)]

/-- A last chunk that is too short for the count hides the end of the encoding. -/
theorem canDecodeMaybeTreeNode_encode_of_lt {body : Str} {count : ℕ} (hCount : count < 2 ^ 64)
    (hLength : (body ++ chunkCountText count).length < 2 ^ 31 + 1186)
    (hLast : lastChunkSize (body ++ chunkCountText count).length < 16) (front back : List SharedSpan)
    (n : ℕ) :
    canDecodeMaybeTreeNode front.length
      (front ++ encodeLongString requestId signal (body ++ chunkCountText count) ++ back) ≠
        .ok (some n) := by
  have hPart : ∀ b ∈ lastPayload (body ++ chunkCountText count), b ∈ chunkCountText count := by
    have hShort := length_lastPayload (body ++ chunkCountText count)
    have hSixteen := length_chunkCountText hCount
    rw [lastPayload, ← List.append_assoc] at hShort ⊢
    have hBody : (leBytes 8 (body ++ chunkCountText count).length ++ body).length ≤
        maxPayload * (((body ++ chunkCountText count).length + 7) / maxPayload) := by
      simp only [List.length_drop, List.length_append, hSixteen] at hShort hLast ⊢
      omega
    intro b hb
    rw [List.drop_append, List.drop_eq_nil_of_le hBody, List.nil_append] at hb
    exact List.mem_of_mem_drop hb
  intro h
  rw [canDecodeMaybeTreeNode_encode requestId signal hLength, if_pos hLast] at h
  obtain ⟨⟨taken, text⟩, hDecode, h⟩ := Outcome.bind_eq_ok.mp h
  have hSome := Except.ok.inj h
  split_ifs at hSome with hNothing
  · have hText := decodeLongString_singleton requestId signal (lastPayload_le _) hDecode
    have hN : chr 'N' ∈ lastPayload (body ++ chunkCountText count) := by
      apply List.mem_of_mem_drop (i := 8)
      rw [← hText, show text = str "Nothing" from hNothing]
      exact List.mem_cons_self
    exact notMem_chunkCountText hCount (hPart _ hN)

/-- The text of a node: a word, the node, a line end and the number of its chunks. -/
theorem maybeTreeNodeText_some {node : TreeNode} {text : Str} (h : node.text = .ok text) :
    maybeTreeNodeText (some node) =
      .ok (str "Just " ++ text ++ str "\n" ++ chunkCountText node.propertyData.chunks.length) := by
  rw [maybeTreeNodeText, h]
  rfl

/-- White space in front of a node is skipped. -/
theorem readNode_space (text : Str) : readNode (.ofStr (chr ' ' :: text)) = readNode (.ofStr text) := by
  have hWord : word [] (.ofStr (chr ' ' :: text)) = word [] (.ofStr text) := rfl
  rw [readNode]
  change (word [] (.ofStr (chr ' ' :: text)) >>= _) = (word [] (.ofStr text) >>= _)
  rw [hWord]

theorem word_just (rest : Str) :
    word [] (.ofStr (str "Just " ++ rest)) = .ok (str "Just", .ofStr (chr ' ' :: rest)) :=
  word_ofStr [] (List.forall_mem_nil (isSpace · = true)) (show str "Just" ≠ [] by decide +kernel)
    (show ∀ b ∈ str "Just", isSpace b = false by decide +kernel)
    (show isSpace (chr ' ') = true by decide)

theorem just_ne_nothing (rest : Str) : str "Just " ++ rest ≠ str "Nothing" := by
  intro h
  have hHead : some (chr 'J') = some (chr 'N') := congrArg List.head? h
  revert hHead
  decide

/-- Reading the text of a node gives the node and the number of its chunks. -/
theorem readMaybeTreeNode_text {node : TreeNode} {text : Str}
    (hRead : readNode (.ofStr text) = .ok ({ node with propertyData := .empty }, .ofStr []))
    {count : ℕ} (hCount : count < 2 ^ 64) :
    readFrom readMaybeTreeNode (str "Just " ++ text ++ str "\n" ++ chunkCountText count) =
      .ok ({ node with propertyData := .empty }, some count) := by
  let rest := str "\n" ++ chunkCountText count
  have hJust : word [] (.ofStr (str "Just " ++ text ++ str "\n" ++ chunkCountText count)) =
      .ok (str "Just", .ofStr (chr ' ' :: (text ++ rest))) := by
    rw [List.append_assoc, List.append_assoc]
    exact word_just (text ++ rest)
  have hNode : readNode (.ofStr (chr ' ' :: (text ++ rest))) =
      .ok ({ node with propertyData := .empty }, .ofStr rest) := by
    rw [readNode_space]
    exact local_readNode.append rest hRead rfl
  have hNumber := unsigned_chunkCountText hCount
    (show ∀ b ∈ str "\n", isSpace b = true by decide +kernel)
  have hAll : readMaybeTreeNode (.ofStr (str "Just " ++ text ++ str "\n" ++ chunkCountText count)) =
      .ok (({ node with propertyData := .empty }, some count), { rest := [], eof := true }) :=
    bind_eq_ok.mpr ⟨_, _, hJust, bind_eq_ok.mpr ⟨_, _, hNode, bind_eq_ok.mpr ⟨_, _, hNumber, rfl⟩⟩⟩
  rw [readFrom, hAll]
  rfl

/-- When the end of the node is missing, no count is read. -/
theorem readMaybeTreeNode_cut {node : TreeNode} {front more : Str} (hMore : more ≠ [])
    (hRead : readNode (.ofStr (front ++ more)) = .ok (node, .ofStr [])) {cut : TreeNode}
    {count : Option ℕ} (h : readFrom readMaybeTreeNode (str "Just " ++ front) = .ok (cut, count)) :
    count = none := by
  obtain ⟨⟨⟨_, _⟩, last⟩, hAll, hResult⟩ := Outcome.bind_eq_ok.mp h
  obtain ⟨rfl, rfl⟩ := Prod.mk.inj (Except.ok.inj hResult)
  obtain ⟨just, middle, hJust, hAll⟩ := bind_eq_ok.mp hAll
  rw [word_just] at hJust
  obtain ⟨rfl, rfl⟩ := Prod.mk.inj (Except.ok.inj hJust)
  obtain ⟨found, behind, hNode, hAll⟩ := bind_eq_ok.mp hAll
  rw [readNode_space] at hNode
  have hEnd : behind.eof = true := by
    by_contra hOpen
    -- the run would end in the same place with the rest of the text behind it
    have hWhole := local_readNode.append more hNode (by simpa using hOpen)
    rw [← IStream.ofStr_append, hRead] at hWhole
    have hRest := congrArg IStream.rest (Prod.mk.inj (Except.ok.inj hWhole)).2
    exact hMore (List.append_eq_nil_iff.mp hRest.symm).2
  obtain ⟨number, last, hNumber, hAll⟩ := bind_eq_ok.mp hAll
  simp only [unsigned, IStream.sentry, IStream.not_good_of_eof hEnd] at hNumber
  obtain ⟨rfl, -⟩ := Prod.mk.inj (Except.ok.inj hNumber)
  exact ((Prod.mk.inj (Prod.mk.inj (Except.ok.inj hAll)).1).2).symm

/-- Decoding a node takes its text and as many chunks as the text says. -/
theorem decodeMaybeTreeNode_encode {node : TreeNode} {text : Str}
    (hRead : readNode (.ofStr text) = .ok ({ node with propertyData := .empty }, .ofStr []))
    {properties back : List SharedSpan} {full : Str}
    (hFull : full = str "Just " ++ text ++ str "\n" ++ chunkCountText properties.length)
    (hLength : full.length < 2 ^ 31 + 1186)
    (hSize : (encodeLongString requestId signal full ++ (properties ++ back)).length < 2 ^ 64) :
    decodeMaybeTreeNode (encodeLongString requestId signal full ++ (properties ++ back)) =
      .ok ((encodeLongString requestId signal full).length + properties.length,
        some { node with propertyData := .concat properties }) := by
  have hCan := canDecodeLongString_encode requestId signal (s := full) (by omega) []
    (properties ++ back)
  simp only [List.nil_append, List.length_nil, Nat.zero_add, longStringChunks_of_lt hLength,
    ← length_encodeLongString requestId signal full] at hCan
  have hNot : full ≠ str "Nothing" := by
    rw [hFull, List.append_assoc, List.append_assoc]
    exact just_ne_nothing _
  simp only [List.length_append] at hSize
  have hCount : properties.length < 2 ^ 64 := by omega
  have hNode := readMaybeTreeNode_text hRead hCount
  rw [← hFull] at hNode
  have hTaken : ((encodeLongString requestId signal full ++ (properties ++ back)).take
      ((encodeLongString requestId signal full).length + properties.length)).drop
        (encodeLongString requestId signal full).length = properties := by
    rw [List.take_length_add_append, List.drop_left, List.take_left]
  have hStop : ((encodeLongString requestId signal full).length + properties.length) % 2 ^ 64 =
      (encodeLongString requestId signal full).length + properties.length :=
    Nat.mod_eq_of_lt (by omega)
  have hWithin : ¬((encodeLongString requestId signal full).length + properties.length <
      (encodeLongString requestId signal full).length ∨
        (encodeLongString requestId signal full ++ (properties ++ back)).length <
          (encodeLongString requestId signal full).length + properties.length) := by
    simp only [List.length_append]
    omega
  simp only [decodeMaybeTreeNode, hCan, Outcome.ok_bind, if_neg hNot, hNode, hStop, if_neg hWithin,
    decodeLongString_encode_of_lt requestId signal hLength, hTaken, Outcome.pure_eq_ok]

/-- Of a text too long for an `int32_t` the decoder sees a part of the node only, which it
cannot read to the end. -/
theorem decodeMaybeTreeNode_encode_of_ge {node : TreeNode} {text : Str}
    (hRead : readNode (.ofStr text) = .ok ({ node with propertyData := .empty }, .ofStr []))
    {full : Str} {count : ℕ} (hCount : count < 2 ^ 64)
    (hFull : full = str "Just " ++ text ++ str "\n" ++ chunkCountText count)
    (hLength : 2 ^ 31 + 1186 ≤ full.length) (hSize : full.length < 2 ^ 64) (back : List SharedSpan)
    (decoded : ℕ × Option TreeNode) :
    decodeMaybeTreeNode (encodeLongString requestId signal full ++ back) ≠ .ok decoded := by
  have hMissing := longStringChunks_of_ge hLength
  have hPos := longStringChunks_pos full.length
  have hSixteen := length_chunkCountText hCount
  have hFullLength : full.length = 5 + text.length + 1 + 16 := by
    rw [hFull]
    simp only [List.length_append, hSixteen]
    rfl
  -- what the decoder sees: `Just`, and the node without its end
  let seen := 1194 * longStringChunks full.length - 8
  have hSeen : full.take seen = str "Just " ++ text.take (seen - 5) := by
    have hJust : (str "Just ").length = 5 := rfl
    rw [hFull, List.append_assoc, List.append_assoc, List.take_append,
      List.take_of_length_le (by rw [hJust]; omega), hJust, List.take_append_of_le_length (by omega)]
  obtain ⟨front, more, hMore, hText, hFront⟩ :
      ∃ front more, more ≠ [] ∧ text = front ++ more ∧ text.take (seen - 5) = front := by
    refine ⟨_, text.drop (seen - 5), ?_, (List.take_append_drop _ _).symm, rfl⟩
    rw [ne_eq, List.drop_eq_nil_iff]
    omega
  have hCan := canDecodeLongString_encode requestId signal hSize [] back
  rw [hText] at hRead
  intro h
  obtain ⟨start, hStart, h⟩ := Outcome.bind_eq_ok.mp h
  rw [List.nil_append, List.length_nil] at hCan
  obtain rfl := Except.ok.inj (hCan.symm.trans hStart)
  obtain ⟨⟨taken, part⟩, hPart, h⟩ := Outcome.bind_eq_ok.mp h
  rw [decodeLongString_encode requestId signal hSize, hSeen, hFront] at hPart
  obtain ⟨rfl, rfl⟩ := Prod.mk.inj (Except.ok.inj hPart)
  simp only [if_neg (just_ne_nothing front)] at h
  obtain ⟨⟨cut, number⟩, hNode, h⟩ := Outcome.bind_eq_ok.mp h
  obtain rfl := readMaybeTreeNode_cut hMore hRead hNode
  cases h

/-- Nodes that differ at most in how their property data is cut, or no node. -/
def SameMaybeNode : Option TreeNode → Option TreeNode → Prop := Option.Rel TreeNode.SameNode

/-- The re-wrapped chunks of the property data hold its bytes. -/
theorem sameNode_propertyChunks (node : TreeNode) :
    TreeNode.SameNode
      { node with propertyData := .concat (propertyChunks requestId signal (some node)) } node :=
  ⟨rfl, by rw [SharedSpan.bytes_concat, propertyChunks, SharedSpan.bytes_flattenWithSignal]⟩

theorem maybeTreeNodeCodec_roundTrips_none :
    (maybeTreeNodeCodec requestId signal).RoundTrips SameMaybeNode none := by
  have hLength : (str "Nothing").length < 2 ^ 31 + 1186 := by decide +kernel
  have hOne : encodeLongString requestId signal (str "Nothing") =
      [payloadSpan requestId signal (lastPayload (str "Nothing"))] := rfl
  refine ⟨encodeLongString requestId signal (str "Nothing"), ?_, fun front back hSize => ⟨?_, ?_⟩⟩
  · change Except.ok (_ ++ []) = _
    rw [List.append_nil]
  · have hShort : lastChunkSize (str "Nothing").length < 16 := by decide +kernel
    have hText := decodeLongString_encode_of_lt requestId signal hLength []
    rw [List.append_nil, hOne] at hText
    change canDecodeMaybeTreeNode _ _ = _
    rw [canDecodeMaybeTreeNode_encode requestId signal hLength, if_pos hShort, hText]
    simp only [Outcome.ok_bind, if_true, Outcome.pure_eq_ok]
  · have hCan := canDecodeLongString_encode requestId signal
      (show (str "Nothing").length < 2 ^ 64 by decide +kernel) [] back
    simp only [List.nil_append, List.length_nil, Nat.zero_add, longStringChunks_of_lt hLength,
      ← length_encodeLongString requestId signal] at hCan
    refine ⟨none, ?_, .none⟩
    rw [List.append_assoc, List.drop_left]
    change decodeMaybeTreeNode _ = _
    simp only [decodeMaybeTreeNode, hCan, Outcome.ok_bind,
      decodeLongString_encode_of_lt requestId signal hLength, if_true, Outcome.pure_eq_ok]

/-- The length of a text is an `int32_t` for the decoders, and its last chunk holds the
whole count of the property chunks. -/
def TextDecodable (text : Str) : Prop :=
  text.length < 2 ^ 31 + 1186 ∧ 16 ≤ lastChunkSize text.length

/-- A node with a decodable text round-trips. -/
theorem maybeTreeNodeCodec_roundTrips_of_decodable {node : TreeNode} {text full : Str}
    (hText : node.text = .ok text)
    (hRead : readNode (.ofStr text) = .ok ({ node with propertyData := .empty }, .ofStr []))
    (hFull : maybeTreeNodeText (some node) = .ok full) (hCount : node.propertyData.chunks.length < 2 ^ 64)
    (hDecodable : TextDecodable full) :
    (maybeTreeNodeCodec requestId signal).RoundTrips SameMaybeNode (some node) := by
  obtain ⟨hLength, hLast⟩ := hDecodable
  let properties := propertyChunks requestId signal (some node)
  have hProperties : properties.length = node.propertyData.chunks.length :=
    SharedSpan.length_flattenWithSignal _ _
  rw [← hProperties] at hCount
  have hFullText : full = str "Just " ++ text ++ str "\n" ++ chunkCountText properties.length := by
    rw [maybeTreeNodeText_some hText, ← hProperties] at hFull
    exact (Except.ok.inj hFull).symm
  have hEncode : encodeMaybeTreeNode requestId signal (some node) =
      .ok (encodeLongString requestId signal full ++ properties) := by
    rw [encodeMaybeTreeNode, hFull]
    rfl
  refine ⟨_, hEncode, fun front back hTotal => ⟨?_, ?_⟩⟩
  · have hBehind : properties.length ≤ (properties ++ back).length := by
      rw [List.length_append]
      omega
    rw [List.append_assoc, List.append_assoc, ← List.append_assoc front] at hTotal ⊢
    rw [List.length_append, ← Nat.add_assoc]
    rw [hFullText] at hLength hLast hTotal ⊢
    exact canDecodeMaybeTreeNode_encode_of_le requestId signal hCount hLength hLast hBehind hTotal
  · refine ⟨_, ?_, .some (sameNode_propertyChunks requestId signal node)⟩
    simp only [List.length_append] at hTotal
    rw [List.append_assoc, List.append_assoc, List.drop_left, List.length_append]
    exact decodeMaybeTreeNode_encode requestId signal hRead hFullText hLength
      (by simp only [List.length_append]; omega)

/-- A node round-trips exactly when its text is decodable. -/
theorem maybeTreeNodeCodec_roundTrips_some_iff {node : TreeNode} {text full : Str}
    (hText : node.text = .ok text)
    (hRead : readNode (.ofStr text) = .ok ({ node with propertyData := .empty }, .ofStr []))
    (hFull : maybeTreeNodeText (some node) = .ok full)
    (hSize : full.length + (propertyChunks requestId signal (some node)).length < 2 ^ 64) :
    (maybeTreeNodeCodec requestId signal).RoundTrips SameMaybeNode (some node) ↔
      TextDecodable full := by
  let properties := propertyChunks requestId signal (some node)
  have hProperties : properties.length = node.propertyData.chunks.length :=
    SharedSpan.length_flattenWithSignal _ _
  have hBoth : full.length + properties.length < 2 ^ 64 := hSize
  have hCount : properties.length < 2 ^ 64 := by omega
  have hFullText : full = str "Just " ++ text ++ str "\n" ++ chunkCountText properties.length := by
    rw [maybeTreeNodeText_some hText, ← hProperties] at hFull
    exact (Except.ok.inj hFull).symm
  have hSixteen : 16 ≤ full.length := by
    rw [hFullText, List.length_append, length_chunkCountText hCount]
    exact Nat.le_add_left _ _
  have hEncode : encodeMaybeTreeNode requestId signal (some node) =
      .ok (encodeLongString requestId signal full ++ properties) := by
    rw [encodeMaybeTreeNode, hFull]
    rfl
  have hChunks := length_encodeLongString requestId signal full
  constructor
  · rintro ⟨chunks, hChunksEq, hAll⟩
    obtain rfl := Except.ok.inj (hEncode.symm.trans hChunksEq)
    obtain ⟨hCan, decoded, hDecode, -⟩ := hAll [] []
      (by simp only [List.append_nil, List.nil_append, List.length_append]; omega)
    have hLength : full.length < 2 ^ 31 + 1186 := by
      by_contra hLong
      simp only [List.nil_append, List.append_nil, List.length_nil, List.drop_zero] at hDecode
      exact decodeMaybeTreeNode_encode_of_ge requestId signal hRead hCount hFullText
        (by omega) (by omega) properties _ hDecode
    refine ⟨hLength, ?_⟩
    by_contra hShort
    rw [hFullText] at hLength hShort hCan
    rw [List.append_nil, ← List.append_assoc] at hCan
    exact canDecodeMaybeTreeNode_encode_of_lt requestId signal hCount hLength (by omega) []
      properties _ hCan
  · exact maybeTreeNodeCodec_roundTrips_of_decodable requestId signal hText hRead hFull (hProperties ▸ hCount)

/-- The codec of an optional node whose text reads back round-trips for every request,
exactly when there is no node or its text is decodable. -/
theorem maybeTreeNodeCodec_roundTrips_iff (requestId : UInt16) (signal : UInt8)
    (mnode : Option TreeNode) (text : Str) (hText : maybeTreeNodeText mnode = .ok text)
    (hRead : ∀ node ∈ mnode, node.TextRoundTrips)
    (hSize : text.length + (propertyChunks requestId signal mnode).length < 2 ^ 64) :
    (maybeTreeNodeCodec requestId signal).RoundTrips SameMaybeNode mnode ↔
      mnode = none ∨ TextDecodable text := by
  cases mnode with
  | none => exact iff_of_true (maybeTreeNodeCodec_roundTrips_none requestId signal) (.inl rfl)
  | some node =>
      obtain ⟨nodeText, hNodeText, hNodeRead⟩ := hRead node rfl
      rw [maybeTreeNodeCodec_roundTrips_some_iff requestId signal hNodeText hNodeRead hText hSize]
      exact ⟨.inr, fun h => h.resolve_left nofun⟩

end

/-- The text of a plain node round-trips. -/
theorem TreeNode.Plain.textRoundTrips {node : TreeNode} (h : node.Plain) : node.TextRoundTrips := by
  obtain ⟨version, hVersion⟩ : ∃ text, node.version.text = .ok text := ⟨_, if_neg h.version.policy.1⟩
  refine ⟨_, h.text_eq hVersion, ?_⟩
  have hRead := h.reads hVersion
  rwa [Reads, List.append_nil] at hRead

/-- The text of the version every new node has. -/
def defaultVersionText : Str :=
  str "Version: 0 Max_Version: 256 Policy: default Authorial_Proof: Nothing Authors: Nothing" ++
    str " Readers: Nothing Collision_Depth: Nothing "

theorem text_defaultVersion : ({} : TreeNodeVersion).text = .ok defaultVersionText := by
  have hText : str "Version: " ++ toDecimal 0 ++ str " Max_Version: " ++ toDecimal 256 ++
      str " Policy: " ++ str "default" ++ str " Authorial_Proof: " ++ str "Nothing" ++
      str " Authors: " ++ str "Nothing" ++ str " Readers: " ++ str "Nothing" ++
      str " Collision_Depth: " ++ str "Nothing" ++ str " " = defaultVersionText := by
    decide +kernel
  exact congrArg Except.ok hText

/-- A node named `A` whose description has the given length. -/
def describedNode (length : ℕ) : TreeNode :=
  { labelRule := str "A", description := List.replicate length (chr 'x') }

theorem describedNode_plain {length : ℕ} (h : length < 2 ^ 63 - 1) : (describedNode length).Plain where
  labelRule := show Nonblank (str "A") by decide +kernel
  description := by rwa [describedNode, List.length_replicate]
  propertyInfos := rfl
  version := ⟨show Nonblank (str "default") by decide +kernel, nofun, nofun, nofun⟩
  collisionDepth := rfl
  childNames := rfl
  queryHowTo := nofun
  qaSequence := nofun

/-- The text that is sent for such a node. -/
def describedText (length : ℕ) : Str :=
  str "Just " ++ plainText (describedNode length) defaultVersionText ++ str "\n" ++ chunkCountText 0

theorem maybeTreeNodeText_described {length : ℕ} (h : length < 2 ^ 63 - 1) :
    maybeTreeNodeText (some (describedNode length)) = .ok (describedText length) :=
  maybeTreeNodeText_some ((describedNode_plain h).text_eq text_defaultVersion)

/-- The response with a node that has no description. -/
theorem maybeTreeNodeCodec_roundTrips_iff_described :
    (maybeTreeNodeCodec 1 0x08).RoundTrips SameMaybeNode (some (describedNode 0)) ↔
      some (describedNode 0) = none ∨ TextDecodable (describedText 0) := by
  have hLength : (describedText 0).length = 351 := by decide +kernel
  have hSize : (describedText 0).length +
      (propertyChunks 1 0x08 (some (describedNode 0))).length < 2 ^ 64 := by
    rw [hLength]
    decide
  refine maybeTreeNodeCodec_roundTrips_iff 1 0x08 (some (describedNode 0)) (describedText 0)
    (maybeTreeNodeText_described (by decide)) ?_ hSize
  rintro node ⟨⟩
  exact (describedNode_plain (by decide)).textRoundTrips

/-- With a description of 834 bytes the last chunk of the text holds one byte. -/
theorem maybeTreeNodeCodec_not_roundTrips_described :
    (describedNode 834).TextRoundTrips ∧
      ¬(maybeTreeNodeCodec 1 0x08).RoundTrips SameMaybeNode (some (describedNode 834)) := by
  have hPlain : (describedNode 834).Plain := describedNode_plain (by decide)
  have hLength : (describedText 834).length = 1187 := by decide +kernel
  have hSize : (describedText 834).length +
      (propertyChunks 1 0x08 (some (describedNode 834))).length < 2 ^ 64 := by
    rw [hLength]
    decide
  have hRead := hPlain.reads text_defaultVersion
  rw [Reads, List.append_nil] at hRead
  refine ⟨hPlain.textRoundTrips, fun h => ?_⟩
  rw [maybeTreeNodeCodec_roundTrips_some_iff 1 0x08 (hPlain.text_eq text_defaultVersion) hRead
    (maybeTreeNodeText_described (by decide)) hSize] at h
  have hLast := h.2
  rw [hLength] at hLast
  revert hLast
  decide

end Wwatp
