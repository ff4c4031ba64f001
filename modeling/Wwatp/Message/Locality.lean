import Wwatp.Message.Announced

/-! Where a value ends does not depend on the chunks around it. -/
namespace Wwatp

open Cxx Cxx.Reader

/-- The chunks of `encoded` stand in `all` behind the first `before` ones. -/
structure StandsIn (encoded all : List SharedSpan) (before : ℕ) : Prop where
  same : ∀ i chunk, encoded[i]? = some chunk → all[before + i]? = some chunk
  fits : before + encoded.length ≤ all.length

theorem standsIn_append (front encoded back : List SharedSpan) :
    StandsIn encoded (front ++ encoded ++ back) front.length where
  same i chunk hChunk := by
    have hFits : i < encoded.length := (List.getElem?_eq_some_iff.mp hChunk).1
    rw [List.append_assoc, List.getElem?_append_right (Nat.le_add_right _ _), Nat.add_sub_cancel_left,
      List.getElem?_append_left hFits, hChunk]
  fits := by
    rw [List.length_append, List.length_append]
    omega

/-- A value that ends inside of a list ends at the same chunk of every list around it. -/
def LocalDecode (canDecode : ℕ → List SharedSpan → Outcome (Option ℕ)) : Prop :=
  ∀ {encoded all : List SharedSpan} {before start n : ℕ}, StandsIn encoded all before →
    all.length < 2 ^ 64 → canDecode start encoded = .ok (some n) →
      canDecode (before + start) all = .ok (some (before + n))

theorem localDecode_label : LocalDecode canDecodeLabel := by
  intro encoded all before start n hIn _ h
  rw [canDecodeLabel] at h ⊢
  cases hChunk : encoded[start]? with
  | none =>
    rw [hChunk] at h
    cases h
  | some chunk =>
    rw [hIn.same start chunk hChunk]
    rw [hChunk] at h
    dsimp only at h ⊢
    obtain ⟨wire, hWire, h⟩ := Outcome.bind_eq_ok.mp h
    rw [hWire, Outcome.ok_bind]
    split_ifs at h ⊢ with hShort
    · cases h
    obtain ⟨header, hHeader, h⟩ := Outcome.bind_eq_ok.mp h
    rw [hHeader, Outcome.ok_bind]
    split_ifs at h ⊢ with hData
    · cases h
    obtain rfl := Option.some.inj (Except.ok.inj h)
    rfl

theorem localDecode_longString : LocalDecode canDecodeLongString := by
  intro encoded all before start n hIn _ h
  have hFits := hIn.fits
  rw [canDecodeLongString] at h ⊢
  cases hChunk : encoded[start]? with
  | none =>
    rw [hChunk] at h
    cases h
  | some chunk =>
    rw [hIn.same start chunk hChunk]
    rw [hChunk] at h
    dsimp only at h ⊢
    split_ifs at h ⊢ with hHeader
    · cases h
    obtain ⟨bytes, hLength, h⟩ := Outcome.bind_eq_ok.mp h
    rw [hLength, Outcome.ok_bind]
    dsimp only [Outcome.pure_eq_ok] at h ⊢
    split_ifs at h with hMore
    · cases h
    obtain rfl := Option.some.inj (Except.ok.inj h)
    rw [if_neg (by omega)]
    exact congrArg (fun n => Except.ok (some n)) (by omega)

/-- Neither the sum of the two counts nor the place of the last chunk depends on the rest. -/
theorem localDecode_maybeTreeNode : LocalDecode canDecodeMaybeTreeNode := by
  intro encoded all before start n hIn hSize h
  have hFits := hIn.fits
  rw [canDecodeMaybeTreeNode] at h ⊢
  cases hChunk : encoded[start]? with
  | none =>
    rw [hChunk] at h
    cases h
  | some chunk =>
    rw [hIn.same start chunk hChunk]
    rw [hChunk] at h
    dsimp only at h ⊢
    split_ifs at h ⊢ with hHeader
    · cases h
    obtain ⟨count?, hLong, h⟩ := Outcome.bind_eq_ok.mp h
    cases count? with
    | none => cases h
    | some count =>
      obtain ⟨hStart, hCount, -⟩ := canDecodeLongString_some hLong
      rw [localDecode_longString hIn hSize hLong, Outcome.ok_bind]
      dsimp only at h ⊢
      cases hLast : encoded[count - 1]? with
      | none =>
        rw [hLast] at h
        cases h
      | some last =>
        rw [hLast] at h
        rw [show before + count - 1 = before + (count - 1) by omega, hIn.same _ last hLast]
        dsimp only at h ⊢
        split_ifs at h ⊢ with hShort
        · obtain ⟨⟨used, text⟩, hText, h⟩ := Outcome.bind_eq_ok.mp h
          rw [hText, Outcome.ok_bind]
          dsimp only [Outcome.pure_eq_ok] at h ⊢
          split_ifs at h ⊢ with hNothing
          · obtain rfl := Option.some.inj (Except.ok.inj h)
            rfl
          · cases h
        · obtain ⟨size, hContents, h⟩ := Outcome.bind_eq_ok.mp h
          obtain ⟨contents, hWritten, h⟩ := Outcome.bind_eq_ok.mp h
          rw [hContents, Outcome.ok_bind, hWritten, Outcome.ok_bind]
          dsimp only [Outcome.pure_eq_ok] at h ⊢
          split_ifs at h with hMore
          · cases h
          obtain rfl := Option.some.inj (Except.ok.inj h)
          -- the sum wraps around in the one list as in the other
          have hWrap : (before + count + contents) % 2 ^ 64 = before + (count + contents) % 2 ^ 64 := by
            omega
          rw [hWrap, if_neg (by omega)]

theorem localDecode_sequentialNotification : LocalDecode canDecodeSequentialNotification := by
  intro encoded all before start n hIn hSize h
  have hFits := hIn.fits
  rw [canDecodeSequentialNotification] at h ⊢
  cases hChunk : encoded[start]? with
  | none =>
    rw [hChunk] at h
    cases h
  | some chunk =>
    rw [hIn.same start chunk hChunk]
    rw [hChunk] at h
    dsimp only at h ⊢
    split_ifs at h ⊢ with hHeader
    · cases h
    obtain ⟨count?, hLong, h⟩ := Outcome.bind_eq_ok.mp h
    cases count? with
    | none => cases h
    | some count =>
      rw [localDecode_longString hIn hSize hLong, Outcome.ok_bind]
      dsimp only at h ⊢
      split_ifs at h with hNode
      · cases h
      rw [if_neg (by omega)]
      exact localDecode_maybeTreeNode hIn hSize h

theorem localDecode_newNodeVersion : LocalDecode canDecodeNewNodeVersion := by
  intro encoded all before start n hIn hSize h
  rw [canDecodeNewNodeVersion] at h ⊢
  cases hChunk : encoded[start]? with
  | none =>
    rw [hChunk] at h
    cases h
  | some chunk =>
    rw [hIn.same start chunk hChunk]
    rw [hChunk] at h
    dsimp only at h ⊢
    split_ifs at h ⊢ with hHeader
    · cases h
    obtain ⟨count?, hLabel, h⟩ := Outcome.bind_eq_ok.mp h
    cases count? with
    | none => cases h
    | some count =>
      rw [localDecode_label hIn hSize hLabel, Outcome.ok_bind]
      exact localDecode_maybeTreeNode hIn hSize h

/-- Elements that are local one by one are so one after another. -/
theorem localDecode_each {canDecode : ℕ → List SharedSpan → Outcome (Option ℕ)}
    (hLocal : LocalDecode canDecode) (count : ℕ) :
    LocalDecode fun start encoded => canDecodeEach canDecode encoded count start := by
  intro encoded all before start n hIn hSize h
  induction count generalizing start with
  | zero =>
    obtain rfl := Option.some.inj (Except.ok.inj h)
    rfl
  | succ count ih =>
    obtain ⟨next?, hNext, h⟩ := Outcome.bind_eq_ok.mp h
    cases next? with
    | none => cases h
    | some next =>
      dsimp only
      rw [canDecodeEach, hLocal hIn hSize hNext, Outcome.ok_bind]
      exact ih h

/-- The label of the one chunk at an offset. -/
theorem decodeLabel_drop {encoded : List SharedSpan} {i : ℕ} {chunk : SharedSpan}
    (h : encoded[i]? = some chunk) : decodeLabel (encoded.drop i) = .ok (1, chunk.bytes) := by
  obtain ⟨hFits, hChunk⟩ := List.getElem?_eq_some_iff.mp h
  rw [List.drop_eq_getElem_cons hFits, hChunk]
  rfl

/-- A count in front of a vector that has arrived is the same in every list around it. -/
theorem canDecodeCount_standsIn {encoded all : List SharedSpan} {before start : ℕ} {what : Str}
    {size : Option ℕ} (hIn : StandsIn encoded all before) (hSize : all.length < 2 ^ 64)
    (h : canDecodeCount what start encoded = .ok (some size)) :
    canDecodeCount what (before + start) all = .ok (some size) := by
  have hFits := hIn.fits
  obtain ⟨hStart, ⟨chunk, hChunk, hVector⟩, -⟩ := canDecodeCount_some what h
  rw [canDecodeCount, if_neg (by omega)] at h
  obtain ⟨count?, hLabel, -⟩ := Outcome.bind_eq_ok.mp h
  cases count? with
  | none => rw [hLabel] at h; cases h
  | some count =>
    obtain ⟨rfl, -, -⟩ := canDecodeLabel_some hLabel
    have hTake : (all.drop (before + start)).take 1 = [chunk] := by
      obtain ⟨hIn', hAt⟩ := List.getElem?_eq_some_iff.mp (hIn.same start chunk hChunk)
      rw [List.drop_eq_getElem_cons hIn', hAt]
      rfl
    rw [canDecodeCount, if_neg (by omega), localDecode_label hIn hSize hLabel, Outcome.ok_bind]
    dsimp only
    rw [if_neg (by omega), hTake, decodeLabel, Outcome.ok_bind, hVector]
    rfl

/-- A vector of local elements is local. -/
theorem localDecode_vector {canDecode canDecodeAll : ℕ → List SharedSpan → Outcome (Option ℕ)}
    {what : Str} (hLocal : LocalDecode canDecode)
    (hAll : ∀ start encoded, canDecodeAll start encoded = do
      match ← canDecodeCount what start encoded with
      | none => return none
      | some size => canDecodeEach canDecode encoded (← writtenValue size) (start + 1)) :
    LocalDecode canDecodeAll := by
  intro encoded all before start n hIn hSize h
  rw [hAll] at h ⊢
  obtain ⟨size?, hCount, h⟩ := Outcome.bind_eq_ok.mp h
  cases size? with
  | none => cases h
  | some size =>
    obtain ⟨written, hWritten, h⟩ := Outcome.bind_eq_ok.mp h
    rw [canDecodeCount_standsIn hIn hSize hCount, Outcome.ok_bind]
    dsimp only
    rw [hWritten, Outcome.ok_bind]
    exact localDecode_each hLocal written hIn hSize h

theorem localDecode_subTransaction : LocalDecode canDecodeSubTransaction := by
  intro encoded all before start n hIn hSize h
  obtain ⟨size, current, hCount, hParent, h⟩ := canDecodeSubTransaction_some h
  rw [canDecodeSubTransaction, canDecodeCount_standsIn hIn hSize hCount, Outcome.ok_bind]
  dsimp only
  rw [Nat.add_assoc, localDecode_newNodeVersion hIn hSize hParent, Outcome.ok_bind]
  exact localDecode_each localDecode_newNodeVersion size hIn hSize h

theorem localDecode_vectorSequentialNotification :
    LocalDecode canDecodeVectorSequentialNotification := by
  intro encoded all before start n hIn hSize h
  have hFits := hIn.fits
  rw [canDecodeVectorSequentialNotification] at h ⊢
  split_ifs at h with hStart
  · cases h
  obtain ⟨count?, hLabel, h⟩ := Outcome.bind_eq_ok.mp h
  cases count? with
  | none => cases h
  | some count =>
    obtain ⟨rfl, hHere, -⟩ := canDecodeLabel_some hLabel
    have hChunk : encoded[start]? = some encoded[start] := List.getElem?_eq_getElem hHere
    rw [if_neg (by omega), localDecode_label hIn hSize hLabel, Outcome.ok_bind]
    dsimp only at h ⊢
    rw [Nat.add_sub_cancel, decodeLabel_drop hChunk, Outcome.ok_bind] at h
    rw [show before + (start + 1) - 1 = before + start by omega,
      decodeLabel_drop (hIn.same start _ hChunk), Outcome.ok_bind]
    obtain ⟨size, hVector, h⟩ := Outcome.bind_eq_ok.mp h
    obtain ⟨written, hWritten, h⟩ := Outcome.bind_eq_ok.mp h
    dsimp only
    rw [hVector, Outcome.ok_bind, hWritten, Outcome.ok_bind, Nat.add_left_comm]
    exact localDecode_each localDecode_sequentialNotification written hIn hSize h

theorem Decoder.localDecode (x : Decoder) : LocalDecode x.canDecode := by
  cases x with
  | label => exact localDecode_label
  | longString => exact localDecode_longString
  | maybeTreeNode => exact localDecode_maybeTreeNode
  | sequentialNotification => exact localDecode_sequentialNotification
  | vectorSequentialNotification => exact localDecode_vectorSequentialNotification
  | newNodeVersion => exact localDecode_newNodeVersion
  | subTransaction => exact localDecode_subTransaction
  | transaction => exact localDecode_vector localDecode_subTransaction fun _ _ => rfl
  | vectorTreeNode => exact localDecode_vector localDecode_maybeTreeNode fun _ _ => rfl

/-- Neither earlier nor later chunks of a stream change where a value ends. -/
theorem Decoder.canDecode_append (x : Decoder) {front encoded back : List SharedSpan} {n : ℕ}
    (hSize : (front ++ encoded ++ back).length < 2 ^ 64)
    (h : x.canDecode 0 encoded = .ok (some n)) :
    x.canDecode front.length (front ++ encoded ++ back) = .ok (some (front.length + n)) :=
  x.localDecode (standsIn_append front encoded back) hSize h

/-- That chunk between two others of its kind. -/
theorem Decoder.canDecode_append_nothing :
    Decoder.maybeTreeNode.canDecode 1 ([nothingChunk] ++ [nothingChunk] ++ [nothingChunk]) =
      .ok (some (1 + 1)) := by
  have hCan : Decoder.maybeTreeNode.canDecode 0 [nothingChunk] = .ok (some 1) := by decide +kernel
  have hSize : ([nothingChunk] ++ [nothingChunk] ++ [nothingChunk]).length < 2 ^ 64 := by decide
  exact Decoder.canDecode_append .maybeTreeNode hSize hCan

end Wwatp
