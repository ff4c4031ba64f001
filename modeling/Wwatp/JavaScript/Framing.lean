import Wwatp.JavaScript.Codecs

/-! Every value that the JavaScript client encodes says where its chunks end. -/
namespace Wwatp
namespace JavaScript

open Cxx

section LongStrings

variable {requestId : UInt16} {signal : UInt8} {bytes : List UInt8}

/-- The chunks of a long string. -/
abbrev countedChunks (requestId : UInt16) (signal : UInt8) (bytes : List UInt8) : List SpanChunk :=
  flattenWithSignal (le64Encode bytes.length ++ bytes) signal requestId

theorem frames_counted (hLength : bytes.length < 2 ^ 32) :
    Frames canDecodeChunksLongString (countedChunks requestId signal bytes) where
  whole := canDecodeChunks_counted requestId signal hLength
  part front _ hk := canDecodeChunks_counted_take requestId signal hLength front hk

theorem collectPayloadBytes_flatten (data : List UInt8) :
    collectPayloadBytes (flattenWithSignal data signal requestId) = data := by
  rw [flattenWithSignal]
  split_ifs with hNil
  · rw [hNil]
    rfl
  · rw [collectPayloadBytes, List.flatMap_map]
    show List.flatMap id _ = _
    rw [List.flatMap_id, List.blocks_flatten (by decide)]

/-- The client sees the bytes of the string as they were sent. -/
theorem longStringText_counted (hLength : bytes.length < 2 ^ 32) (front back : List SpanChunk) :
    longStringText front.length (front.length + (countedChunks requestId signal bytes).length)
      (front ++ countedChunks requestId signal bytes ++ back) = utf8Decode bytes := by
  have hSlice : sliceChunks front.length (front.length + (countedChunks requestId signal bytes).length)
      (front ++ countedChunks requestId signal bytes ++ back) = countedChunks requestId signal bytes := by
    rw [sliceChunks, ← List.length_append, List.take_left, List.drop_left]
  have hValue : leValue (leBytes 8 bytes.length) = bytes.length := leValue_leBytes (by norm_num at hLength ⊢; omega)
  rw [longStringText, hSlice, collectPayloadBytes_flatten, le64Encode, Nat.mod_eq_of_lt hLength, List.take_left' (leBytes_length ..),
    List.drop_left' (leBytes_length ..), hValue, List.take_length]

/-- Bytes of a checked string are few enough. -/
theorem length_of_checkedString {s t : JSString} (h : checkedString s = some t) :
    t = s ∧ (utf8Bytes s).length < 2 ^ 32 := by
  rw [checkedString] at h
  split_ifs at h with hMax
  have hBytes := length_utf8Bytes_le s
  rw [maxStringLength] at hMax
  exact ⟨(Option.some.inj h).symm, by omega⟩

theorem length_of_checkedArray {chunks array : List SpanChunk} (h : checkedArray chunks = some array) :
    array = chunks ∧ chunks.length < 2 ^ 32 := by
  rw [checkedArray, maxArrayLength] at h
  split_ifs at h
  exact ⟨(Option.some.inj h).symm, by omega⟩

end LongStrings

section Nodes

variable {requestId : UInt16} {signal : UInt8}

theorem utf8Decode_nothing : utf8Decode (str "Nothing") = js "Nothing" := by decide

theorem frames_nothing : Frames canDecodeChunksMaybeTreeNode (countedChunks requestId signal (str "Nothing")) := by
  have hLength : (str "Nothing").length < 2 ^ 32 := by decide
  have hFrames : Frames canDecodeChunksLongString (countedChunks requestId signal (str "Nothing")) := frames_counted hLength
  constructor
  · intro front back
    rw [canDecodeChunksMaybeTreeNode, hFrames.whole]
    simp only [Option.bind_eq_bind, Option.bind_some, longStringText_counted hLength, utf8Decode_nothing, if_true]
  · intro front k hk
    rw [canDecodeChunksMaybeTreeNode, hFrames.part front k hk]
    rfl

/-- What the client makes of the text in front of a node's chunks: their count stands in its last 16 units. -/
theorem nodeText_count {middle : List UInt8} {count : ℕ} (hCount : count < 2 ^ 32) :
    utf8Decode (str "Just " ++ middle ++ chunkCountText count) ≠ js "Nothing" ∧
      16 ≤ (utf8Decode (str "Just " ++ middle ++ chunkCountText count)).length ∧
      isDigits 16 (hexEnd (utf8Decode (str "Just " ++ middle ++ chunkCountText count))) ∧
      (toUint32 (parseInt 16 (hexEnd (utf8Decode (str "Just " ++ middle ++ chunkCountText count))))).toNat = count := by
  obtain ⟨digits, hSixteen, hDigits, hValue, hText⟩ := chunkCountText_eq (show count < 2 ^ 64 by omega)
  have hAscii := ascii_digits hDigits
  have hHex : (ofStr (digits.map digitChar)).length = 16 := by simp [ofStr, hSixteen]
  have hNe : digits ≠ [] := List.ne_nil_of_length_pos (by omega)
  rw [hText, utf8Decode_between (by decide +kernel) hAscii (by decide), hexEnd, List.length_append, hHex, Nat.add_sub_cancel,
    List.drop_left]
  refine ⟨fun hNothing => ?_, Nat.le_add_left .., isDigits_digits (by decide) hNe hDigits, ?_⟩
  · have hJ : ofStr (str "Just ") = 0x4A :: ofStr (str "ust ") := by decide
    have hN : js "Nothing" = 0x4E :: ofStr (str "othing") := by decide
    rw [hJ, hN, List.cons_append, List.cons_append] at hNothing
    exact absurd (List.cons.inj hNothing).1 (by decide)
  · rw [parseInt_digits (by decide) hNe hDigits, hValue, nearestDouble_of_lt (by omega), toUint32]
    have hMod : ((count : ℤ) % 2 ^ 32).toNat = count := by omega
    rw [hMod, UInt32.toNat_ofNat_of_lt' hCount]

/-- A node: a text that ends with the count of the chunks, and the chunks behind it. -/
theorem frames_node {middle : List UInt8} {contents : List SpanChunk}
    (hLength : (str "Just " ++ middle ++ chunkCountText contents.length).length < 2 ^ 32)
    (hCount : contents.length < 2 ^ 32) :
    Frames canDecodeChunksMaybeTreeNode
      (countedChunks requestId signal (str "Just " ++ middle ++ chunkCountText contents.length) ++ contents) := by
  obtain ⟨hJust, hLong, hHex, hParsed⟩ := @nodeText_count middle _ hCount
  have hFrames := @frames_counted requestId signal _ hLength
  set bytes := str "Just " ++ middle ++ chunkCountText contents.length
  have hScan (front back : List SpanChunk) :
      canDecodeChunksMaybeTreeNode front.length (front ++ countedChunks requestId signal bytes ++ back) =
        if contents.length > back.length then none
        else some (front.length + (countedChunks requestId signal bytes).length + contents.length) := by
    rw [canDecodeChunksMaybeTreeNode, hFrames.whole]
    simp only [Option.bind_eq_bind, Option.bind_some, longStringText_counted hLength, hHex, hParsed, if_neg hJust,
      if_neg (Nat.not_lt.mpr hLong), not_true, if_false]
    simp only [List.length_append, gt_iff_lt, Nat.add_lt_add_iff_left]
  constructor
  · intro front back
    rw [← List.append_assoc front, List.append_assoc _ contents, hScan, if_neg (by simp), List.length_append,
      Nat.add_assoc]
  · intro front k hk
    rw [List.length_append] at hk
    rw [List.take_append]
    by_cases hText : k < (countedChunks requestId signal bytes).length
    · rw [Nat.sub_eq_zero_of_le hText.le, List.take_zero, List.append_nil, canDecodeChunksMaybeTreeNode,
        hFrames.part front k hText]
      rfl
    · rw [List.take_of_length_le (by omega), ← List.append_assoc, hScan, if_pos]
      rw [List.length_take]
      omega

theorem frames_encodeChunksMaybeTreeNode {maybeNode : Option JSTreeNode} {chunks : List SpanChunk}
    (h : encodeChunksMaybeTreeNode requestId signal maybeNode = some chunks) :
    Frames canDecodeChunksMaybeTreeNode chunks := by
  cases maybeNode with
  | none =>
      have hBytes : utf8Bytes (js "Nothing") = str "Nothing" := by
        have hAscii : js "Nothing" = ofStr (str "Nothing") := by decide
        rw [hAscii, utf8Bytes_ofStr (by decide +kernel)]
      obtain rfl := Option.some.inj h
      show Frames _ (countedChunks requestId signal (utf8Bytes (js "Nothing")))
      rw [hBytes]
      exact frames_nothing
  | some node =>
      obtain ⟨contents, hContents, h⟩ := Option.bind_eq_some_iff.mp h
      obtain ⟨fullText, hText, h⟩ := Option.bind_eq_some_iff.mp h
      obtain ⟨rfl, hLength⟩ := length_of_checkedString hText
      obtain ⟨hArray, hCount⟩ := length_of_checkedArray hContents
      rw [← hArray] at hCount
      obtain ⟨digits, -, hDigits, -, hDigitText⟩ := chunkCountText_eq (show contents.length < 2 ^ 64 by omega)
      have hAscii : Ascii (chunkCountText contents.length) := by
        rw [hDigitText]
        exact ascii_digits hDigits
      have hJust : js "Just " = ofStr (str "Just ") := by decide
      have hBytes : utf8Bytes (js "Just " ++ formatTreeNodeText node ++ js "\n" ++ ofStr (chunkCountText contents.length)) =
          str "Just " ++ utf8Bytes (formatTreeNodeText node ++ js "\n") ++ chunkCountText contents.length := by
        rw [utf8Bytes_append_ascii hAscii, List.append_assoc, hJust, utf8Bytes_ascii_append (by decide +kernel)]
      obtain ⟨rfl, -⟩ := length_of_checkedArray h
      change (utf8Bytes (_ ++ ofStr (chunkCountText contents.length))).length < _ at hLength
      rw [hBytes] at hLength
      show Frames _ (countedChunks requestId signal (utf8Bytes (_ ++ ofStr (chunkCountText contents.length))) ++ contents)
      rw [hBytes]
      exact frames_node hLength hCount

theorem frames_encodeHeaderAndNode {text : JSString} {maybeNode : Option JSTreeNode} {chunks : List SpanChunk}
    (h : encodeHeaderAndNode requestId signal text maybeNode = some chunks) : Frames canDecodeHeaderAndNode chunks := by
  obtain ⟨header, hHeader, hRest⟩ := Option.bind_eq_some_iff.mp h
  obtain ⟨maybeChunks, hNode, hArray⟩ := Option.bind_eq_some_iff.mp hRest
  obtain ⟨rfl, hLength⟩ := length_of_checkedString hHeader
  obtain ⟨rfl, -⟩ := length_of_checkedArray hArray
  exact (frames_counted hLength).bind (frames_encodeChunksMaybeTreeNode hNode)

end Nodes

section Counts

variable {requestId : UInt16} {signal : UInt8} {n : ℕ} {scan : Scan SpanChunk} {chunks : List SpanChunk}

/-- The chunk with a count, as it is read. -/
theorem countOf_label (hn : n < 2 ^ 32) (front back : List SpanChunk) :
    canDecodeChunksLabel front.length (front ++ .ofPayload requestId signal (toDecimal n) :: back) =
        some (front.length + 1) ∧
      countOf (front ++ .ofPayload requestId signal (toDecimal n) :: back) front.length = some n := by
  have hText : toDecimal n = (digitsOf 10 n).map digitChar := toBase_eq 10 n
  have hNe := digitsOf_ne_nil 10 n
  have hDigits := @digitsOf_lt 10 n (by decide)
  have hGet : (front ++ SpanChunk.ofPayload requestId signal (toDecimal n) :: back)[front.length]? =
      some (.ofPayload requestId signal (toDecimal n)) := by simp
  have hLabel : canDecodeChunksLabel front.length (front ++ .ofPayload requestId signal (toDecimal n) :: back) =
      some (front.length + 1) := by
    rw [canDecodeChunksLabel, hGet]
    rfl
  have hDecode : decodeChunksLabel front.length (front ++ .ofPayload requestId signal (toDecimal n) :: back) =
      some (front.length + 1, utf8Decode (toDecimal n)) := by
    rw [decodeChunksLabel, hLabel, hGet]
    rfl
  refine ⟨hLabel, ?_⟩
  rw [countOf, hDecode]
  show (if isDigits 10 (utf8Decode (toDecimal n)) then _ else none) = _
  rw [utf8Decode_ascii (ascii_toDecimal n) (by simpa [hText] using hNe), hText, if_pos (isDigits_digits (by decide) hNe hDigits),
    parseInt_digits (by decide) hNe hDigits, valueOf_digitsOf, nearestDouble_of_lt (by omega), toUint32]
  have hMod : ((n : ℤ) % 2 ^ 32).toNat = n := by omega
  rw [hMod, UInt32.toNat_ofNat_of_lt' hn]

theorem canDecodeChunksLabel_end (front : List SpanChunk) : canDecodeChunksLabel front.length front = none := by
  rw [canDecodeChunksLabel, List.getElem?_eq_none (Nat.le_refl _)]

/-- Values behind a count: what the scan does once it has read the count. -/
theorem frames_of_count {second : ℕ → Scan SpanChunk} (hn : n < 2 ^ 32)
    (hSecond : Frames (second n) chunks) :
    Frames (fun startChunk chunks => do
      let afterCount ← canDecodeChunksLabel startChunk chunks
      let n ← countOf chunks startChunk
      second n afterCount chunks) (.ofPayload requestId signal (toDecimal n) :: chunks) := by
  refine @Frames.append _ _ _ [.ofPayload requestId signal (toDecimal n)] _ (fun front k hk => ?_)
    (fun front back => ?_) hSecond
  · obtain rfl : k = 0 := Nat.lt_one_iff.mp hk
    rw [List.take_zero, List.append_nil, canDecodeChunksLabel_end]
    rfl
  · obtain ⟨hLabel, hCount⟩ := @countOf_label requestId signal _ hn front back
    rw [List.append_assoc, List.singleton_append]
    simp only [hLabel, hCount, Option.bind_eq_bind, Option.bind_some, List.length_singleton]

theorem eq_map_some_of_mapM {Value : Type} {values : List (Option Value)} {results : List Value}
    (h : values.mapM id = some results) : values = results.map some := by
  induction values generalizing results with
  | nil =>
      obtain rfl := Option.some.inj h
      rfl
  | cons value rest ih =>
      rw [List.mapM_cons] at h
      obtain ⟨first, hFirst, h⟩ := Option.bind_eq_some_iff.mp h
      obtain ⟨more, hMore, h⟩ := Option.bind_eq_some_iff.mp h
      obtain rfl := Option.some.inj h
      rw [List.map_cons, ← ih hMore]
      exact congrArg (· :: rest) hFirst

theorem ne_nil_of_frames (hNone : scan 0 [] = none) (h : Frames scan chunks) : chunks ≠ [] := by
  rintro rfl
  have hWhole := h.whole [] []
  rw [List.length_nil, List.append_nil, List.append_nil, hNone] at hWhole
  cases hWhole

/-- The chunks of values that are encoded behind a count. There are not more of them than chunks. -/
theorem encodeCounted_eq {values : List (Option (List SpanChunk))} (hNone : scan 0 [] = none)
    (hFrames : ∀ value ∈ values, ∀ chunks, value = some chunks → Frames scan chunks)
    (h : encodeCounted requestId signal n values = some chunks) :
    ∃ lists : List (List SpanChunk), lists.length = values.length ∧ values.length < 2 ^ 32 ∧
      (∀ chunks ∈ lists, Frames scan chunks) ∧
      chunks = .ofPayload requestId signal (toDecimal n) :: lists.flatten := by
  obtain ⟨label, hLabel, hRest⟩ := Option.bind_eq_some_iff.mp h
  obtain ⟨lists, hLists, hArray⟩ := Option.bind_eq_some_iff.mp hRest
  obtain ⟨rfl, hLength⟩ := length_of_checkedArray hArray
  have hValues := eq_map_some_of_mapM hLists
  have hAll : ∀ chunks ∈ lists, Frames scan chunks := fun chunks hChunks =>
    hFrames (some chunks) (hValues ▸ List.mem_map_of_mem hChunks) chunks rfl
  have hSome : ∀ chunks ∈ lists, 1 ≤ chunks.length := fun chunks hChunks =>
    List.length_pos_of_ne_nil (ne_nil_of_frames hNone (hAll chunks hChunks))
  have hMany : lists.length ≤ lists.flatten.length := by
    have hSum := List.length_le_sum_of_one_le (lists.map List.length) (by simpa using hSome)
    rwa [List.length_map, ← List.length_flatten] at hSum
  have hSame : values.length = lists.length := by rw [hValues, List.length_map]
  rw [List.length_append] at hLength
  refine ⟨lists, hSame.symm, by omega, hAll, ?_⟩
  rw [encodeChunksLabel, utf8Bytes_ofStr (ascii_toDecimal n)] at hLabel
  split_ifs at hLabel
  obtain rfl := Option.some.inj hLabel
  rfl

theorem frames_encodeCounted {values : List (Option (List SpanChunk))} (hNone : scan 0 [] = none)
    (hFrames : ∀ value ∈ values, ∀ chunks, value = some chunks → Frames scan chunks)
    (hCount : values.length < 2 ^ 32 → n = values.length)
    (h : encodeCounted requestId signal n values = some chunks) : Frames (canDecodeCounted scan) chunks := by
  obtain ⟨lists, hLength, hMany, hLists, rfl⟩ := encodeCounted_eq hNone hFrames h
  obtain rfl := hCount hMany
  refine frames_of_count hMany ?_
  rw [← hLength]
  exact Frames.times hLists

theorem frames_encodeChunksNewNodeVersion {change : JSNewNodeVersion}
    (h : encodeChunksNewNodeVersion requestId signal change = some chunks) :
    Frames canDecodeChunksNewNodeVersion chunks := frames_encodeHeaderAndNode h

theorem frames_encodeChunksSubTransaction {subTransaction : JSSubTransaction}
    (h : encodeChunksSubTransaction requestId signal subTransaction = some chunks) :
    Frames canDecodeChunksSubTransaction chunks := by
  obtain ⟨main, descendants⟩ := subTransaction
  have hFrames : ∀ value ∈ (main :: descendants).map (encodeChunksNewNodeVersion requestId signal),
      ∀ chunks, value = some chunks → Frames canDecodeChunksNewNodeVersion chunks := by
    intro value hValue chunks hSome
    obtain ⟨change, -, rfl⟩ := List.mem_map.mp hValue
    exact frames_encodeChunksNewNodeVersion hSome
  obtain ⟨lists, hLength, hMany, hLists, rfl⟩ := encodeCounted_eq rfl hFrames h
  rw [List.length_map, List.length_cons] at hLength hMany
  obtain ⟨first, rest, rfl⟩ := List.exists_cons_of_length_eq_add_one hLength
  obtain ⟨hFirst, hRest⟩ := List.forall_mem_cons.mp hLists
  have hAll := hFirst.bind (Frames.times hRest)
  rw [List.length_cons, Nat.add_right_cancel_iff] at hLength
  rw [hLength] at hAll
  rw [List.flatten_cons]
  let second (n startChunk : ℕ) (chunks : List SpanChunk) : Option ℕ :=
    (canDecodeChunksNewNodeVersion startChunk chunks).bind (times canDecodeChunksNewNodeVersion n · chunks)
  exact @frames_of_count _ _ _ _ second (by omega) hAll

end Counts

section Decoders

theorem stopsAt_maybeTreeNode : StopsAt canDecodeChunksMaybeTreeNode decodeChunksMaybeTreeNode := by
  intro start chunks stop next value hScan hDecode
  obtain ⟨afterStr, hStr, hScan⟩ := Option.bind_eq_some_iff.mp hScan
  obtain ⟨afterStr', hStr', hDecode⟩ := Option.bind_eq_some_iff.mp hDecode
  obtain rfl := Option.some.inj (hStr.symm.trans hStr')
  dsimp only at hScan hDecode
  by_cases hNothing : longStringText start afterStr chunks = js "Nothing"
  · rw [if_pos hNothing] at hScan hDecode
    obtain rfl := Option.some.inj hScan
    exact (congrArg Prod.fst (Option.some.inj hDecode)).symm
  · rw [if_neg hNothing] at hScan hDecode
    split_ifs at hScan hDecode
    obtain ⟨node, -, hDecode⟩ := Option.bind_eq_some_iff.mp hDecode
    obtain rfl := Option.some.inj hScan
    exact (congrArg Prod.fst (Option.some.inj hDecode)).symm

theorem decodeChunksLongString_next {start next : ℕ} {chunks : List SpanChunk} {text : JSString}
    (h : decodeChunksLongString start chunks = some (next, text)) : canDecodeChunksLongString start chunks = some next := by
  obtain ⟨stop, hStop, h⟩ := Option.bind_eq_some_iff.mp h
  obtain ⟨rfl, -⟩ := Prod.mk.inj (Option.some.inj h)
  exact hStop

theorem stopsAt_sequentialNotification :
    StopsAt canDecodeChunksSequentialNotification decodeChunksSequentialNotification := by
  intro start chunks stop next value hScan hDecode
  obtain ⟨afterStr, hStr, hScan⟩ := Option.bind_eq_some_iff.mp hScan
  obtain ⟨⟨afterStr', text⟩, hText, hDecode⟩ := Option.bind_eq_some_iff.mp hDecode
  obtain rfl := Option.some.inj (hStr.symm.trans (decodeChunksLongString_next hText))
  obtain ⟨⟨stop', node⟩, hNode, hDecode⟩ := Option.bind_eq_some_iff.mp hDecode
  obtain rfl := stopsAt_maybeTreeNode _ _ _ _ _ hScan hNode
  exact (congrArg Prod.fst (Option.some.inj hDecode)).symm

theorem stopsAt_newNodeVersion : StopsAt canDecodeChunksNewNodeVersion decodeChunksNewNodeVersion := by
  intro start chunks stop next value hScan hDecode
  obtain ⟨afterStr, hStr, hScan⟩ := Option.bind_eq_some_iff.mp hScan
  obtain ⟨⟨afterStr', text⟩, hText, hDecode⟩ := Option.bind_eq_some_iff.mp hDecode
  obtain rfl := Option.some.inj (hStr.symm.trans (decodeChunksLongString_next hText))
  obtain ⟨⟨version, label⟩, -, hDecode⟩ := Option.bind_eq_some_iff.mp hDecode
  obtain ⟨⟨stop', node⟩, hNode, hDecode⟩ := Option.bind_eq_some_iff.mp hDecode
  obtain rfl := stopsAt_maybeTreeNode _ _ _ _ _ hScan hNode
  exact (congrArg Prod.fst (Option.some.inj hDecode)).symm

/-- The decoder of a count reads the one that the scan sees. -/
theorem decodeChunksLabel_count {start afterCount next n : ℕ} {chunks : List SpanChunk} {countStr : JSString}
    (hLabel : canDecodeChunksLabel start chunks = some afterCount) (hCount : countOf chunks start = some n)
    (hDecode : decodeChunksLabel start chunks = some (next, countStr)) :
    next = afterCount ∧ (toUint32 (parseInt 10 countStr)).toNat = n := by
  rw [countOf, hDecode] at hCount
  simp only [Option.bind_eq_bind, Option.bind_some] at hCount
  split_ifs at hCount
  obtain ⟨next', hNext, hDecode⟩ := Option.bind_eq_some_iff.mp hDecode
  obtain ⟨chunk, -, hDecode⟩ := Option.bind_eq_some_iff.mp hDecode
  obtain ⟨rfl, -⟩ := Prod.mk.inj (Option.some.inj hDecode)
  exact ⟨Option.some.inj (hNext.symm.trans hLabel), Option.some.inj hCount⟩

theorem stopsAt_counted {Value : Type} {scan : Scan SpanChunk} {decode : ℕ → List SpanChunk → Option (ℕ × Value)}
    (h : StopsAt scan decode) : StopsAt (canDecodeCounted scan) (decodeCounted decode) := by
  intro start chunks stop next values hScan hDecode
  obtain ⟨afterCount, hLabel, hScan⟩ := Option.bind_eq_some_iff.mp hScan
  obtain ⟨n, hCount, hScan⟩ := Option.bind_eq_some_iff.mp hScan
  obtain ⟨⟨afterCount', countStr⟩, hDecoded, hDecode⟩ := Option.bind_eq_some_iff.mp hDecode
  obtain ⟨rfl, rfl⟩ := decodeChunksLabel_count hLabel hCount hDecoded
  exact h.times _ _ _ _ _ _ hScan hDecode

theorem stopsAt_subTransaction : StopsAt canDecodeChunksSubTransaction decodeChunksSubTransaction := by
  intro start chunks stop next value hScan hDecode
  obtain ⟨afterCount, hLabel, hScan⟩ := Option.bind_eq_some_iff.mp hScan
  obtain ⟨n, hCount, hScan⟩ := Option.bind_eq_some_iff.mp hScan
  obtain ⟨mainEnd, hMain, hScan⟩ := Option.bind_eq_some_iff.mp hScan
  obtain ⟨⟨afterCount', countStr⟩, hDecoded, hDecode⟩ := Option.bind_eq_some_iff.mp hDecode
  obtain ⟨rfl, rfl⟩ := decodeChunksLabel_count hLabel hCount hDecoded
  obtain ⟨⟨afterMain, main⟩, hMain', hDecode⟩ := Option.bind_eq_some_iff.mp hDecode
  obtain rfl := stopsAt_newNodeVersion _ _ _ _ _ hMain hMain'
  obtain ⟨⟨stop', descendants⟩, hRest, hDecode⟩ := Option.bind_eq_some_iff.mp hDecode
  obtain rfl := stopsAt_newNodeVersion.times _ _ _ _ _ _ hScan hRest
  exact (congrArg Prod.fst (Option.some.inj hDecode)).symm

theorem stopsAt_vectorTreeNode : StopsAt canDecodeChunksVectorTreeNode decodeChunksVectorTreeNode := by
  intro start chunks stop next nodes hScan hDecode
  obtain ⟨⟨stop', values⟩, hValues, hDecode⟩ := Option.bind_eq_some_iff.mp hDecode
  obtain rfl := stopsAt_counted stopsAt_maybeTreeNode _ _ _ _ _ hScan hValues
  exact (congrArg Prod.fst (Option.some.inj hDecode)).symm

end Decoders

/-- What the three encoders return is framed: a part of it has no end, all of it has its end wherever it stands, and the
decoder stops there. -/
theorem encoded_framed (requestId : UInt16) (signal : UInt8) :
    (∀ transaction chunks, encodeChunksTransaction requestId signal transaction = some chunks →
      FramesDecoded canDecodeChunksTransaction decodeChunksTransaction chunks) ∧
    (∀ nodes chunks, encodeChunksVectorTreeNode requestId signal nodes = some chunks →
      FramesDecoded canDecodeChunksVectorTreeNode decodeChunksVectorTreeNode chunks) ∧
    (∀ notifications chunks, encodeChunksVectorSequentialNotification requestId signal notifications = some chunks →
      FramesDecoded canDecodeChunksVectorSequentialNotification decodeChunksVectorSequentialNotification chunks) := by
  refine ⟨fun transaction chunks h => ?_, fun nodes chunks h => ?_, fun notifications chunks h => ?_⟩
  · refine Frames.decoded (frames_encodeCounted rfl ?_ (fun _ => (List.length_map _).symm) h)
      (stopsAt_counted stopsAt_subTransaction)
    intro value hValue chunks hSome
    obtain ⟨subTransaction, -, rfl⟩ := List.mem_map.mp hValue
    exact frames_encodeChunksSubTransaction hSome
  · refine Frames.decoded (frames_encodeCounted rfl ?_ ?_ h) stopsAt_vectorTreeNode
    · intro value hValue chunks hSome
      obtain ⟨node, -, rfl⟩ := List.mem_map.mp hValue
      exact frames_encodeChunksMaybeTreeNode hSome
    · rw [List.length_map]
      exact Nat.mod_eq_of_lt
  · refine Frames.decoded (frames_encodeCounted rfl ?_ ?_ h) (stopsAt_counted stopsAt_sequentialNotification)
    · intro value hValue chunks hSome
      obtain ⟨notification, -, rfl⟩ := List.mem_map.mp hValue
      exact frames_encodeHeaderAndNode hSome
    · rw [List.length_map]
      exact Nat.mod_eq_of_lt

end JavaScript
end Wwatp
