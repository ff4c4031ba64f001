import Wwatp.Message.Decode

/-! The long-string codec: how many chunks the decoders expect for a length, and what
they read from the chunks of the encoder. -/
namespace Wwatp

open Cxx

theorem moreChunks_eq {fuel : ℕ} {offset : Int} (h : offset.toNat ≤ fuel) :
    moreChunks fuel offset = (offset.toNat + 1193) / 1194 := by
  induction fuel generalizing offset with
  | zero =>
      rw [moreChunks, Nat.le_zero.mp h]
  | succ fuel ih =>
      rw [moreChunks]
      split_ifs with hPos
      · rw [ih] <;> unfold maxPayload <;> omega
      · have hZero : offset.toNat = 0 := by omega
        rw [hZero]

/-- The number of chunks the decoders take for a long string of this length. -/
def longStringChunks (length : ℕ) : ℕ := 1 + moreChunks (stringOffset length).toNat (stringOffset length)

theorem longStringChunks_eq (length : ℕ) :
    longStringChunks length = 1 + ((stringOffset length).toNat + 1193) / 1194 := by
  rw [longStringChunks, moreChunks_eq (Nat.le_refl _)]

theorem longStringChunks_pos (length : ℕ) : 0 < longStringChunks length := by
  rw [longStringChunks]
  omega

/-- The length as an `int32_t`, for lengths that it can hold. -/
theorem stringOffset_of_lt {length : ℕ} (h : length < 2 ^ 31 + 1186) :
    stringOffset length = (length : Int) - 1186 := by
  rw [stringOffset, maxPayload]
  apply Int.bmod_eq_of_le <;> omega

/-- A length that an `int32_t` cannot hold loses at least 2^32, or comes out negative. -/
theorem stringOffset_of_ge {length : ℕ} (h : 2 ^ 31 + 1186 ≤ length) :
    stringOffset length ≤ 0 ∨ stringOffset length + 2 ^ 32 ≤ (length : Int) - 1186 := by
  have hSplit := Int.bdiv_add_bmod ((length : Int) - 1186) (2 ^ 32)
  have hLess := Int.bmod_lt (x := (length : Int) - 1186) (m := 2 ^ 32) (by decide)
  rw [stringOffset, maxPayload]
  norm_num at hSplit hLess ⊢
  omega

/-- Up to a length of 2^31 + 1185 the decoders expect the chunks the encoder makes. -/
theorem longStringChunks_of_lt {length : ℕ} (h : length < 2 ^ 31 + 1186) :
    longStringChunks length = (length + 1201) / 1194 := by
  rw [longStringChunks_eq, stringOffset_of_lt h]
  omega

/-- From a length of 2^31 + 1186 on they miss more than the last 17 bytes. -/
theorem longStringChunks_of_ge {length : ℕ} (h : 2 ^ 31 + 1186 ≤ length) :
    1194 * longStringChunks length + 17 < length + 8 := by
  rw [longStringChunks_eq]
  rcases stringOffset_of_ge h with hOffset | hOffset <;> omega

theorem longStringChunks_le (length : ℕ) : longStringChunks length ≤ (length + 1201) / 1194 := by
  rcases Nat.lt_or_ge length (2 ^ 31 + 1186) with hFits | hLong
  · exact Nat.le_of_eq (longStringChunks_of_lt hFits)
  · have hMissing := longStringChunks_of_ge hLong
    omega

section

variable (requestId : UInt16) (signal : UInt8)

/-- The encoder cuts the length and the string behind it into full chunks. -/
theorem encodeLongString_eq (s : Str) :
    encodeLongString requestId signal s =
      ((leBytes 8 s.length ++ s).blocks maxPayload).map (payloadSpan requestId signal) := by
  have hNe : leBytes 8 s.length ++ s ≠ [] := by
    rw [← List.length_pos_iff, List.length_append, leBytes_length]
    omega
  have hTake : (leBytes 8 s.length ++ s).take maxPayload =
      leBytes 8 s.length ++ s.take (maxPayload - 8) := by
    rw [List.take_append, leBytes_length, List.take_of_length_le (by rw [leBytes_length]; decide)]
  have hDrop : (leBytes 8 s.length ++ s).drop maxPayload = s.drop (maxPayload - 8) := by
    rw [List.drop_append, leBytes_length, List.drop_eq_nil_of_le (by rw [leBytes_length]; decide),
      List.nil_append]
  rw [List.blocks_of_ne_nil (by decide) hNe, hTake, hDrop, List.map_cons]
  rfl

theorem length_encodeLongString (s : Str) :
    (encodeLongString requestId signal s).length = (s.length + 1201) / 1194 := by
  rw [encodeLongString_eq, List.length_map, List.blocks_length (by decide), List.length_append,
    leBytes_length, maxPayload]
  omega

theorem encodeLongString_ne_nil (s : Str) : encodeLongString requestId signal s ≠ [] :=
  List.cons_ne_nil _ _

/-- The first chunk starts with the length. -/
theorem podAt_encodeLongString_head (s : Str) :
    (payloadSpan requestId signal (leBytes 8 s.length ++ s.take (maxPayload - 8))).podAt 8 =
      .ok (leBytes 8 s.length) := by
  have hLength : (leBytes 8 s.length ++ s.take (maxPayload - 8)).length ≤ maxPayload := by
    rw [List.length_append, leBytes_length, List.length_take, maxPayload]
    omega
  rw [payloadSpan_of_le requestId signal hLength, SharedSpan.podAt, if_neg (List.cons_ne_nil _ _),
    List.map_singleton, body_payloadChunk requestId signal hLength, SharedSpan.podFromChunk,
    if_pos (by rw [List.length_append, leBytes_length]; omega), List.take_left' (leBytes_length 8 _)]

/-- Where the first chunk of an encoded string stands, the decoders expect a number of chunks that
depends on the length alone. -/
theorem canDecodeLongString_first {s : Str} (hLength : s.length < 2 ^ 64) (front rest : List SharedSpan) :
    canDecodeLongString front.length (front ++
        payloadSpan requestId signal (leBytes 8 s.length ++ s.take (maxPayload - 8)) :: rest) =
      .ok (if longStringChunks s.length > rest.length + 1 then none else some (front.length + longStringChunks s.length)) := by
  have hFirst : (front ++ payloadSpan requestId signal (leBytes 8 s.length ++ s.take (maxPayload - 8)) :: rest)[front.length]? =
      some (payloadSpan requestId signal (leBytes 8 s.length ++ s.take (maxPayload - 8))) := by
    rw [List.getElem?_append_right (Nat.le_refl _), Nat.sub_self]
    rfl
  have hSize : ¬(payloadSpan requestId signal
      (leBytes 8 s.length ++ s.take (maxPayload - 8))).size < 6 := by
    rw [size_payloadSpan, List.length_append, leBytes_length]
    omega
  have hExpected : front.length + 1 +
      moreChunks (stringOffset s.length).toNat (stringOffset s.length) =
        front.length + longStringChunks s.length := by
    rw [longStringChunks, Nat.add_assoc]
  have hValue : leValue (leBytes 8 s.length) = s.length :=
    leValue_leBytes (by norm_num at hLength ⊢; exact hLength)
  simp only [canDecodeLongString, hFirst, if_neg hSize, podAt_encodeLongString_head, Outcome.ok_bind,
    hValue, hExpected, Outcome.pure_eq_ok, List.length_append, List.length_cons]
  congr 1
  split_ifs <;> first | rfl | omega

/-- Wherever the encoding of a string stands, the decoders find its first chunk and its end. -/
theorem canDecodeLongString_encode {s : Str} (hLength : s.length < 2 ^ 64)
    (front back : List SharedSpan) :
    canDecodeLongString front.length (front ++ encodeLongString requestId signal s ++ back) =
      .ok (some (front.length + longStringChunks s.length)) := by
  have hLe := longStringChunks_le s.length
  have hEncoded := length_encodeLongString requestId signal s
  rw [encodeLongString, List.length_cons] at hEncoded
  rw [List.append_assoc, encodeLongString, List.cons_append, canDecodeLongString_first requestId signal hLength,
    if_neg (by rw [List.length_append]; omega)]

/-- Without its last chunks the encoding of a string cannot be decoded. -/
theorem canDecodeLongString_take {s : Str} (hLength : s.length < 2 ^ 31 + 1186) (front : List SharedSpan) {k : ℕ}
    (h : k < (encodeLongString requestId signal s).length) :
    canDecodeLongString front.length (front ++ (encodeLongString requestId signal s).take k) = .ok none := by
  have hCount := longStringChunks_of_lt hLength
  have hEncoded := length_encodeLongString requestId signal s
  cases k with
  | zero =>
      have hNone : (front ++ ([] : List SharedSpan))[front.length]? = none := by simp
      rw [List.take_zero, canDecodeLongString, hNone]
  | succ k =>
      rw [encodeLongString] at h ⊢
      rw [List.take_succ_cons, canDecodeLongString_first requestId signal (by omega), if_pos]
      rw [encodeLongString] at hEncoded
      have hTake := List.length_take_le k (((s.drop (maxPayload - 8)).blocks maxPayload).map (payloadSpan requestId signal))
      omega

/-- The text of some chunks that start with the length of a string. -/
theorem bytes_restrict_blocks {blob : List UInt8} {blocks : List (List UInt8)} {b : List UInt8}
    {rest : List (List UInt8)} (hBlocks : blocks = b :: rest) (hFirst : 8 ≤ b.length)
    (hEach : ∀ a ∈ blocks, 0 < a.length ∧ a.length ≤ maxPayload) (hBlob : blocks.flatten = blob) :
    ((SharedSpan.concat (blocks.map (payloadSpan requestId signal))).restrict 8
      (SharedSpan.concat (blocks.map (payloadSpan requestId signal))).size).bytes = blob.drop 8 := by
  have hBytes : (SharedSpan.concat (blocks.map (payloadSpan requestId signal))).bytes = blob := by
    simp only [SharedSpan.bytes_concat, List.flatMap_map, bytes_payloadSpan, List.flatMap_id', hBlob]
  let chunk := payloadChunk requestId signal
  have hSize {a : List UInt8} (ha : a ∈ blocks) : (chunk a).size = a.length := by
    rw [← Chunk.body_length, body_payloadChunk requestId signal (hEach a ha).2]
  have hChunks : (SharedSpan.concat (blocks.map (payloadSpan requestId signal))).chunks =
      chunk b :: rest.map chunk := by
    have hAll : (blocks.map (payloadSpan requestId signal)).flatMap SharedSpan.chunks =
        blocks.map chunk := by
      rw [List.flatMap_map, List.map_eq_flatMap]
      apply List.flatMap_congr
      intro a ha
      rw [payloadSpan_of_le requestId signal (hEach a ha).2]
    rw [hBlocks] at hAll ⊢
    exact hAll
  rw [SharedSpan.bytes_restrict_size hChunks (by decide), hBytes]
  · rw [hSize (by rw [hBlocks]; exact List.mem_cons_self)]
    exact hFirst
  · intro d hd
    obtain ⟨a, ha, rfl⟩ := List.mem_map.mp hd
    have hMem : a ∈ blocks := by
      rw [hBlocks]
      exact List.mem_cons_of_mem _ ha
    rw [hSize hMem]
    exact (hEach a hMem).1

/-- Decoding gives the string, as far as the chunks that the decoder expects reach. -/
theorem decodeLongString_encode {s : Str} (hLength : s.length < 2 ^ 64) (back : List SharedSpan) :
    decodeLongString (encodeLongString requestId signal s ++ back) =
      .ok (longStringChunks s.length, s.take (1194 * longStringChunks s.length - 8)) := by
  have hCan := canDecodeLongString_encode requestId signal hLength [] back
  simp only [List.nil_append, List.length_nil, Nat.zero_add] at hCan
  have hLe : longStringChunks s.length ≤ (encodeLongString requestId signal s).length := by
    rw [length_encodeLongString]
    exact longStringChunks_le _
  obtain ⟨more, hCount⟩ := Nat.exists_eq_add_of_lt (longStringChunks_pos s.length)
  rw [Nat.zero_add] at hCount
  let blob := leBytes 8 s.length ++ s
  have hNe : blob ≠ [] := by
    rw [← List.length_pos_iff, List.length_append, leBytes_length]
    omega
  have hBlocks : (blob.blocks maxPayload).take (longStringChunks s.length) =
      blob.take maxPayload :: ((blob.drop maxPayload).blocks maxPayload).take more := by
    rw [List.blocks_of_ne_nil (by decide) hNe, hCount, List.take_succ_cons]
  have hFirst : 8 ≤ (blob.take maxPayload).length := by
    rw [List.length_take, List.length_append, leBytes_length, maxPayload]
    omega
  have hText := bytes_restrict_blocks requestId signal hBlocks hFirst
    (fun a ha => List.length_of_mem_blocks (by decide) (List.mem_of_mem_take ha))
    (List.flatten_take_blocks (by decide) blob _)
  have hTake : (encodeLongString requestId signal s ++ back).take (longStringChunks s.length) =
      ((blob.blocks maxPayload).take (longStringChunks s.length)).map
        (payloadSpan requestId signal) := by
    rw [List.take_append_of_le_length hLe, encodeLongString_eq, List.map_take]
  have hDrop : (blob.take (maxPayload * longStringChunks s.length)).drop 8 =
      s.take (1194 * longStringChunks s.length - 8) := by
    rw [List.drop_take, List.drop_left' (leBytes_length 8 _), maxPayload]
  simp only [decodeLongString, hCan, Outcome.ok_bind, hTake, hText, hDrop, Outcome.pure_eq_ok]

/-- Within the range of an `int32_t` the codec of long strings round-trips. -/
theorem decodeLongString_encode_of_lt {s : Str} (hLength : s.length < 2 ^ 31 + 1186)
    (back : List SharedSpan) :
    decodeLongString (encodeLongString requestId signal s ++ back) =
      .ok ((encodeLongString requestId signal s).length, s) := by
  have hCount := longStringChunks_of_lt hLength
  rw [decodeLongString_encode requestId signal (by omega), length_encodeLongString, hCount,
    List.take_of_length_le (by omega)]

/-- What can be decoded from a single chunk is the text behind its first 8 bytes. -/
theorem decodeLongString_singleton {payload : List UInt8} (hFits : payload.length ≤ maxPayload)
    {count : ℕ} {text : Str}
    (h : decodeLongString [payloadSpan requestId signal payload] = .ok (count, text)) :
    text = payload.drop 8 := by
  obtain ⟨taken, hCan, h⟩ := Outcome.bind_eq_ok.mp h
  cases taken with
  | none => cases h
  | some taken =>
      simp only [canDecodeLongString, List.getElem?_cons_zero, size_payloadSpan] at hCan
      split_ifs at hCan
      · cases hCan
      · obtain ⟨bytes, hPod, hCan⟩ := Outcome.bind_eq_ok.mp hCan
        have hLong : 8 ≤ payload.length := by
          rw [payloadSpan_of_le requestId signal hFits, SharedSpan.podAt,
            if_neg (List.cons_ne_nil _ _), List.map_singleton,
            body_payloadChunk requestId signal hFits, SharedSpan.podFromChunk] at hPod
          by_contra hShort
          rw [if_neg hShort] at hPod
          cases hPod
        have hOne : taken = 1 := by
          have hSome := Except.ok.inj hCan
          simp only [List.length_singleton] at hSome
          split_ifs at hSome
          obtain rfl := Option.some.inj hSome
          omega
        obtain ⟨-, rfl⟩ := Prod.mk.inj (Except.ok.inj h)
        rw [hOne]
        have hEach : ∀ a ∈ [payload], 0 < a.length ∧ a.length ≤ maxPayload := by
          rw [List.forall_mem_singleton]
          exact ⟨by omega, hFits⟩
        have hBlob : [payload].flatten = payload := List.flatten_singleton
        exact bytes_restrict_blocks requestId signal (Eq.refl [payload]) hLong hEach hBlob

/-- The last chunk of a long string. -/
theorem getLast?_encodeLongString (s : Str) :
    (encodeLongString requestId signal s).getLast? = some (payloadSpan requestId signal
      ((leBytes 8 s.length ++ s).drop (maxPayload * ((s.length + 7) / maxPayload)))) := by
  have hNe : leBytes 8 s.length ++ s ≠ [] := by
    rw [← List.length_pos_iff, List.length_append, leBytes_length]
    omega
  have hLength : (leBytes 8 s.length ++ s).length - 1 = s.length + 7 := by
    rw [List.length_append, leBytes_length]
    omega
  rw [encodeLongString_eq, List.getLast?_map, List.getLast?_blocks (by decide) hNe, hLength]
  rfl

end

end Wwatp
