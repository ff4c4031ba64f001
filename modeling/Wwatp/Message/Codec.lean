import Wwatp.Message.Decode

/-! Round trips of the codecs, and how the round trip of a vector follows from that of
its elements. -/
namespace Wwatp

open Cxx

/-- An encoder with the two functions that take its encodings apart. -/
structure Codec (α : Type) where
  encode : α → Outcome (List SharedSpan)
  decode : List SharedSpan → Outcome (ℕ × α)
  canDecode : ℕ → List SharedSpan → Outcome (Option ℕ)

/-- Wherever the encoding of a value stands in a list of chunks, `can_decode` finds its
end, and `decode` takes exactly its chunks and gives the value back. The number of
chunks of a list is a `size_t`. -/
def Codec.RoundTrips {α : Type} (codec : Codec α) (same : α → α → Prop) (a : α) : Prop :=
  ∃ chunks, codec.encode a = .ok chunks ∧ ∀ front back : List SharedSpan,
    (front ++ chunks ++ back).length < 2 ^ 64 →
      codec.canDecode front.length (front ++ chunks ++ back) =
        .ok (some (front.length + chunks.length)) ∧
      ∃ b, codec.decode ((front ++ chunks ++ back).drop front.length) = .ok (chunks.length, b) ∧
        same b a

theorem consuming_ok {α : Type} {what : Str} {decode : List SharedSpan → Outcome (ℕ × α)}
    {encoded : List SharedSpan} {count : ℕ} {a : α} (h : decode encoded = .ok (count, a))
    (hCount : count ≠ 0) : consuming what decode encoded = .ok (count, a) := by
  rw [consuming, h]
  simp only [Outcome.ok_bind, if_neg hCount, Outcome.pure_eq_ok]

theorem of_consuming {α : Type} {what : Str} {decode : List SharedSpan → Outcome (ℕ × α)}
    {encoded : List SharedSpan} {count : ℕ} {a : α}
    (h : consuming what decode encoded = .ok (count, a)) : decode encoded = .ok (count, a) := by
  obtain ⟨decoded, hDecode, h⟩ := Outcome.bind_eq_ok.mp h
  split_ifs at h
  · obtain ⟨_, hThrow, -⟩ := Outcome.bind_eq_ok.mp h
    cases hThrow
  · rw [hDecode, Except.ok.inj h]

namespace Codec

variable {α : Type} {codec : Codec α} {same : α → α → Prop}

/-- A value that round-trips exactly under a condition; already a decoder that gives
the value back, whatever it reports, needs the condition. -/
structure RoundTripsWhen (codec : Codec α) (same : α → α → Prop) (condition : Prop) (a : α) :
    Prop where
  sufficient : condition → codec.RoundTrips same a
  necessary : ∀ chunks back count b, codec.encode a = .ok chunks →
    (chunks ++ back).length < 2 ^ 64 → codec.decode (chunks ++ back) = .ok (count, b) →
      same b a → condition

theorem RoundTripsWhen.iff {condition : Prop} {a : α} (h : codec.RoundTripsWhen same condition a)
    {chunks : List SharedSpan} (hEncode : codec.encode a = .ok chunks) (hSize : chunks.length < 2 ^ 64) :
    codec.RoundTrips same a ↔ condition := by
  refine ⟨fun hRoundTrips => ?_, h.sufficient⟩
  obtain ⟨found, hFound, hAll⟩ := hRoundTrips
  obtain rfl := Except.ok.inj (hEncode.symm.trans hFound)
  obtain ⟨-, b, hDecode, hSame⟩ := hAll [] [] (by simpa using hSize)
  rw [List.nil_append, List.length_nil, List.drop_zero] at hDecode
  exact h.necessary chunks [] _ b hEncode (by simpa using hSize) hDecode hSame

/-- Elements that round-trip do so one after another. -/
theorem each_roundTrips {l : List α} (h : ∀ a ∈ l, codec.RoundTrips same a) :
    ∃ chunks, encodeEach codec.encode l = .ok chunks ∧ ∀ front back : List SharedSpan,
      (front ++ chunks ++ back).length < 2 ^ 64 →
        canDecodeEach codec.canDecode (front ++ chunks ++ back) l.length front.length =
          .ok (some (front.length + chunks.length)) ∧
        ∃ l', decodeEach codec.decode (front ++ chunks ++ back) l.length front.length =
          .ok (front.length + chunks.length, l') ∧ List.Forall₂ same l' l := by
  induction l with
  | nil => exact ⟨[], rfl, fun front back _ => ⟨rfl, [], rfl, .nil⟩⟩
  | cons a l ih =>
      obtain ⟨first, hEncode, hFirst⟩ := h a List.mem_cons_self
      obtain ⟨rest, hEach, hRest⟩ := ih fun b hb => h b (List.mem_cons_of_mem a hb)
      refine ⟨first ++ rest, by simp only [encodeEach, hEncode, hEach]; rfl, fun front back hSize => ?_⟩
      -- the first element with the others behind it, and the others behind the first
      have hSplit : front ++ (first ++ rest) ++ back = front ++ first ++ (rest ++ back) := by
        simp only [List.append_assoc]
      have hSplitRest : front ++ first ++ (rest ++ back) = front ++ first ++ rest ++ back := by
        simp only [List.append_assoc]
      have hSum : front.length + (first ++ rest).length =
          front.length + first.length + rest.length := by
        rw [List.length_append, Nat.add_assoc]
      have hBegin : ¬(front ++ first ++ (rest ++ back)).length < front.length := by
        simp only [List.length_append]
        omega
      rw [hSplit] at hSize ⊢
      obtain ⟨hCan, b, hDecode, hSame⟩ := hFirst front (rest ++ back) hSize
      rw [hSplitRest] at hSize
      obtain ⟨hCanRest, l', hDecodeRest, hSameRest⟩ := hRest (front ++ first) back hSize
      rw [← hSplitRest, List.length_append] at hCanRest hDecodeRest
      refine ⟨?_, b :: l', ?_, .cons hSame hSameRest⟩
      · simp only [List.length_cons, canDecodeEach, hCan, Outcome.ok_bind, hCanRest, hSum]
      · simp only [List.length_cons, decodeEach, if_neg hBegin, hDecode, Outcome.ok_bind, hDecodeRest,
          hSum, Outcome.pure_eq_ok]

/-- A vector that is decoded element by element needs the condition of every element. -/
theorem each_necessary {condition : α → Prop} {l : List α}
    (h : ∀ a ∈ l, codec.RoundTripsWhen same (condition a) a) {front chunks back : List SharedSpan}
    (hEncode : encodeEach codec.encode l = .ok chunks)
    (hSize : (front ++ chunks ++ back).length < 2 ^ 64) {stop : ℕ} {l' : List α}
    (hDecode : decodeEach codec.decode (front ++ chunks ++ back) l.length front.length = .ok (stop, l'))
    (hSame : List.Forall₂ same l' l) : ∀ a ∈ l, condition a := by
  induction l generalizing front chunks l' stop with
  | nil => exact List.forall_mem_nil _
  | cons a l ih =>
      simp only [encodeEach, Outcome.bind_eq_ok, Outcome.pure_eq_ok, Except.ok.injEq] at hEncode
      obtain ⟨first, hFirst, rest, hRest, rfl⟩ := hEncode
      have hSplit : front ++ (first ++ rest) ++ back = front ++ first ++ (rest ++ back) := by
        simp only [List.append_assoc]
      have hBegin : ¬(front ++ first ++ (rest ++ back)).length < front.length := by
        simp only [List.length_append]
        omega
      rw [hSplit] at hSize hDecode
      simp only [List.length_cons, decodeEach, if_neg hBegin, Outcome.bind_eq_ok] at hDecode
      obtain ⟨⟨count, b⟩, hOne, ⟨last, more⟩, hMore, hResult⟩ := hDecode
      obtain ⟨rfl, rfl⟩ := Prod.mk.inj (Except.ok.inj hResult)
      obtain ⟨hSameOne, hSameMore⟩ := List.forall₂_cons.mp hSame
      have hAt := h a List.mem_cons_self
      have hHere : condition a := by
        have hOne' := hOne
        rw [List.append_assoc, List.drop_left] at hOne'
        have hShort : (first ++ (rest ++ back)).length < 2 ^ 64 := by
          rw [List.append_assoc, List.length_append] at hSize
          omega
        exact hAt.necessary first (rest ++ back) count b hFirst hShort hOne' hSameOne
      -- the first element ends where its encoding does
      obtain ⟨found, hFound, hAll⟩ := hAt.sufficient hHere
      obtain rfl := Except.ok.inj (hFirst.symm.trans hFound)
      obtain ⟨-, b', hOne', -⟩ := hAll front (rest ++ back) hSize
      obtain ⟨rfl, -⟩ := Prod.mk.inj (Except.ok.inj (hOne.symm.trans hOne'))
      rw [← List.length_append, ← List.append_assoc] at hMore
      rw [← List.append_assoc] at hSize
      rw [List.forall_mem_cons]
      exact ⟨hHere, ih (fun c hc => h c (List.mem_cons_of_mem a hc)) hRest hSize hMore hSameMore⟩

/-- A value that is sent as one chunk and then its parts one after another: it
round-trips exactly when the parts do. -/
theorem framed_roundTripsWhen {β : Type} (codec : Codec α) {whole : Codec β} (view : β → List α)
    {x : β} (first : SharedSpan) {condition : α → Prop}
    (hEncode : whole.encode x = do return first :: (← encodeEach codec.encode (view x)))
    (hDecode : ∀ rest stop b, whole.decode (first :: rest) = .ok (stop, b) ↔
      decodeEach codec.decode (first :: rest) (view x).length 1 = .ok (stop, view b))
    (hView : ∀ l : List α, l.length = (view x).length → ∃ b, view b = l)
    (hCan : ∀ start encoded, encoded[start]? = some first →
      whole.canDecode start encoded =
        canDecodeEach codec.canDecode encoded (view x).length (start + 1))
    (hEach : ∀ a ∈ view x, codec.RoundTripsWhen same (condition a) a) :
    whole.RoundTripsWhen (fun b x => List.Forall₂ same (view b) (view x))
      (∀ a ∈ view x, condition a) x := by
  constructor
  · intro hAll
    obtain ⟨parts, hParts, hEachRound⟩ := each_roundTrips fun a ha => (hEach a ha).sufficient (hAll a ha)
    refine ⟨first :: parts, by rw [hEncode, hParts]; rfl, fun front back hSize => ⟨?_, ?_⟩⟩
    · have hSplit : front ++ first :: parts ++ back = front ++ [first] ++ parts ++ back := by
        simp only [List.append_assoc, List.nil_append, List.cons_append]
      have hFirst : (front ++ first :: parts ++ back)[front.length]? = some first := by
        rw [List.append_assoc, List.getElem?_append_right (Nat.le_refl _), Nat.sub_self]
        rfl
      have hBefore : (front ++ [first]).length = front.length + 1 := List.length_append
      rw [hCan _ _ hFirst, hSplit]
      rw [hSplit] at hSize
      have hEnd := (hEachRound (front ++ [first]) back hSize).1
      rw [hBefore] at hEnd
      rw [hEnd, List.length_cons, Nat.add_assoc, Nat.add_comm 1]
    · have hShort : ([first] ++ parts ++ back).length < 2 ^ 64 := by
        simp only [List.length_append, List.length_cons, List.length_nil] at hSize ⊢
        omega
      obtain ⟨-, l', hList, hSame⟩ := hEachRound [first] back hShort
      obtain ⟨b, rfl⟩ := hView l' hSame.length_eq
      refine ⟨b, ?_, hSame⟩
      rw [List.append_assoc, List.drop_left, List.cons_append, hDecode, List.length_cons,
        Nat.add_comm parts.length]
      exact hList
  · intro chunks back count b hChunks hSize hWhole hSame
    rw [hEncode, Outcome.bind_eq_ok] at hChunks
    obtain ⟨parts, hParts, hChunks⟩ := hChunks
    obtain rfl := Except.ok.inj hChunks
    rw [List.cons_append, hDecode] at hWhole
    have hShort : ([first] ++ parts ++ back).length < 2 ^ 64 := hSize
    exact each_necessary hEach hParts hShort hWhole hSame

/-- Checking that a decoder consumed something changes nothing for codecs that always do. -/
theorem RoundTripsWhen.consuming {what : Str} {condition : Prop} {a : α}
    (hPos : ∀ chunks, codec.encode a = .ok chunks → chunks.length ≠ 0)
    (h : codec.RoundTripsWhen same condition a) :
    ({ codec with decode := consuming what codec.decode } : Codec α).RoundTripsWhen same
      condition a := by
  constructor
  · intro hCondition
    obtain ⟨chunks, hEncode, hAll⟩ := h.sufficient hCondition
    refine ⟨chunks, hEncode, fun front back hSize => ?_⟩
    obtain ⟨hCan, b, hDecode, hSame⟩ := hAll front back hSize
    exact ⟨hCan, b, consuming_ok hDecode (hPos chunks hEncode), hSame⟩
  · intro chunks back count b hEncode hSize hDecode hSame
    exact h.necessary chunks back count b hEncode hSize (of_consuming hDecode) hSame

end Codec

end Wwatp
