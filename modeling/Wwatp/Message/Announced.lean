import Wwatp.Message.MaybeTreeNodeCodec

/-! What `can_decode` announces against what `decode` takes, for chunks with any contents.
Both compute the number of chunks on their own: one from the end of a raw chunk, the other
from the text it has parsed. -/
namespace Wwatp

open Cxx Cxx.Reader

/-- Where an encoding is announced to end is in the list, and decoding it has defined
behaviour, so that no iterator leaves the list, and ends there if it returns. -/
def Announces {α : Type} (canDecode : ℕ → List SharedSpan → Outcome (Option ℕ))
    (decode : List SharedSpan → Outcome (ℕ × α)) (start : ℕ) (encoded : List SharedSpan) : Prop :=
  ∀ n, canDecode start encoded = .ok (some n) → n ≤ encoded.length ∧
    (decode (encoded.drop start)).Defined ∧
    ∀ used a, decode (encoded.drop start) = .ok (used, a) → start + used = n

section Node

variable {encoded : List SharedSpan} {start count : ℕ}

/-- The number of property chunks that the last chunk of a node's text announces, or
nothing when the chunk does not end a node. -/
def announcedCount (last : SharedSpan) : Outcome (Option ℕ) :=
  if last.size < 16 then do
    let (_, text) ← decodeLongString [last]
    return if text = str "Nothing" then some 0 else none
  else do
    return some (← writtenValue (← contentsSize last))

/-- The number of property chunks that the text of a node asks for; `none` is one that
was never written. -/
def textCount (text : Str) : Outcome (Option ℕ) :=
  if text = str "Nothing" then .ok (some 0)
  else do
    let (_, count) ← readFrom readMaybeTreeNode text
    return count

/-- The text of the node at `start` can be read without undefined behaviour, and asks for
the chunks that the end of its last chunk announces, whose number does not wrap around. -/
def CountsMatch (encoded : List SharedSpan) (start : ℕ) : Prop :=
  ∀ count last contents text, canDecodeLongString start encoded = .ok (some count) →
    encoded[count - 1]? = some last → announcedCount last = .ok (some contents) →
    decodeLongString (encoded.drop start) = .ok (count - start, text) → (textCount text).Defined ∧
      ∀ asked, textCount text = .ok asked → asked = some contents ∧ count + contents < 2 ^ 64

theorem canDecodeLongString_some (h : canDecodeLongString start encoded = .ok (some count)) :
    start < count ∧ count ≤ encoded.length ∧
      canDecodeLongString 0 (encoded.drop start) = .ok (some (count - start)) := by
  have hHead : (encoded.drop start)[0]? = encoded[start]? := by
    rw [List.getElem?_drop, Nat.add_zero]
  rw [canDecodeLongString] at h ⊢
  rw [hHead]
  cases hChunk : encoded[start]? with
  | none =>
    rw [hChunk] at h
    cases h
  | some chunk =>
    have hStart : start < encoded.length := (List.getElem?_eq_some_iff.mp hChunk).1
    rw [hChunk] at h
    dsimp only at h ⊢
    split_ifs at h ⊢ with hHeader
    · cases h
    · cases hLength : chunk.podAt 8 with
      | error fault =>
        rw [hLength] at h
        cases h
      | ok bytes =>
        rw [hLength] at h
        simp only [Outcome.ok_bind, Outcome.pure_eq_ok, Except.ok.injEq] at h ⊢
        split_ifs at h with hMore
        obtain rfl := Option.some.inj h
        rw [if_neg (by rw [List.length_drop]; omega)]
        refine ⟨by omega, by omega, congrArg some (by omega)⟩

theorem decodeLongString_of_canDecode {encoded : List SharedSpan}
    (h : canDecodeLongString 0 encoded = .ok (some count)) :
    ∃ text, decodeLongString encoded = .ok (count, text) := by
  rw [decodeLongString, h]
  exact ⟨_, rfl⟩

theorem contentsSize_lt {last : SharedSpan} {contents : ℕ} (h : contentsSize last = .ok (some contents)) :
    contents < 2 ^ 64 := by
  obtain ⟨bytes, -, hRead⟩ := Outcome.bind_eq_ok.mp h
  obtain ⟨⟨value, s⟩, hUnsigned, hValue⟩ := Outcome.bind_eq_ok.mp hRead
  obtain rfl := Except.ok.inj hValue
  exact unsigned_lt hUnsigned

theorem announcedCount_lt {last : SharedSpan} {contents : ℕ}
    (h : announcedCount last = .ok (some contents)) : contents < 2 ^ 64 := by
  rw [announcedCount] at h
  split_ifs at h with hShort
  · obtain ⟨⟨used, text⟩, -, hText⟩ := Outcome.bind_eq_ok.mp h
    dsimp only [Outcome.pure_eq_ok] at hText
    split_ifs at hText
    · obtain rfl := Option.some.inj (Except.ok.inj hText)
      decide
    · cases hText
  · obtain ⟨size, hSize, hWritten⟩ := Outcome.bind_eq_ok.mp h
    obtain ⟨value, hValue, hSome⟩ := Outcome.bind_eq_ok.mp hWritten
    obtain rfl := Option.some.inj (Except.ok.inj hSome)
    cases size with
    | none => cases hValue
    | some size =>
      obtain rfl := Except.ok.inj hValue
      exact contentsSize_lt hSize

theorem textCount_lt {text : Str} {asked : ℕ} (h : textCount text = .ok (some asked)) :
    asked < 2 ^ 64 := by
  rw [textCount] at h
  split_ifs at h with hNothing
  · obtain rfl := Option.some.inj (Except.ok.inj h)
    decide
  · obtain ⟨⟨node, number⟩, hRead, hNumber⟩ := Outcome.bind_eq_ok.mp h
    obtain rfl := Except.ok.inj hNumber
    obtain ⟨⟨⟨_, _⟩, last⟩, hAll, hPair⟩ := Outcome.bind_eq_ok.mp hRead
    obtain ⟨rfl, rfl⟩ := Prod.mk.inj (Except.ok.inj hPair)
    obtain ⟨just, middle, -, hAll⟩ := bind_eq_ok.mp hAll
    obtain ⟨found, behind, -, hAll⟩ := bind_eq_ok.mp hAll
    obtain ⟨number, after, hUnsigned, hAll⟩ := bind_eq_ok.mp hAll
    obtain ⟨hBoth, -⟩ := Prod.mk.inj (Except.ok.inj hAll)
    obtain ⟨-, rfl⟩ := Prod.mk.inj hBoth
    exact unsigned_lt hUnsigned

/-- A node that can be decoded ends where the end of its last chunk says. -/
theorem canDecodeMaybeTreeNode_some (hSize : encoded.length < 2 ^ 64) {n : ℕ}
    (h : canDecodeMaybeTreeNode start encoded = .ok (some n)) :
    ∃ count last contents, canDecodeLongString start encoded = .ok (some count) ∧
      encoded[count - 1]? = some last ∧ announcedCount last = .ok (some contents) ∧
      n = (count + contents) % 2 ^ 64 ∧ n ≤ encoded.length := by
  rw [canDecodeMaybeTreeNode] at h
  split at h
  · cases h
  · split_ifs at h with hHeader
    · cases h
    obtain ⟨count?, hLong, h⟩ := Outcome.bind_eq_ok.mp h
    cases count? with
    | none => cases h
    | some count =>
      have hBound := (canDecodeLongString_some hLong).2.1
      dsimp only at h
      split at h
      · cases h
      · next last hLast =>
        refine ⟨count, last, ?_⟩
        rw [announcedCount]
        split_ifs at h ⊢ with hShort
        · obtain ⟨⟨used, text⟩, hText, h⟩ := Outcome.bind_eq_ok.mp h
          dsimp only [Outcome.pure_eq_ok] at h
          split_ifs at h with hNothing
          · obtain rfl := Option.some.inj (Except.ok.inj h)
            refine ⟨0, hLong, hLast, ?_, ?_, hBound⟩
            · rw [hText, Outcome.ok_bind]
              dsimp only
              rw [if_pos hNothing]
              rfl
            · rw [Nat.add_zero, Nat.mod_eq_of_lt (by omega)]
          · cases h
        · obtain ⟨size, hContents, h⟩ := Outcome.bind_eq_ok.mp h
          obtain ⟨contents, hWritten, h⟩ := Outcome.bind_eq_ok.mp h
          dsimp only [Outcome.pure_eq_ok] at h
          split_ifs at h with hMore
          · cases h
          · obtain rfl := Option.some.inj (Except.ok.inj h)
            refine ⟨contents, hLong, hLast, ?_, rfl, Nat.not_lt.mp hMore⟩
            rw [hContents, Outcome.ok_bind, hWritten]
            rfl

/-- Decoding a node ends where its text says, if that is in the list. -/
theorem decodeMaybeTreeNode_ends_iff {length n : ℕ} {text : Str}
    (hLong : canDecodeLongString 0 encoded = .ok (some length))
    (hText : decodeLongString encoded = .ok (length, text)) (hLength : length ≤ encoded.length)
    (hSize : encoded.length < 2 ^ 64) :
    ((decodeMaybeTreeNode encoded).Defined ∧
        ∀ used node, decodeMaybeTreeNode encoded = .ok (used, node) → used = n) ↔
      (textCount text).Defined ∧ ∀ asked, textCount text = .ok asked →
        ∃ contents, asked = some contents ∧ length + contents = n ∧ n ≤ encoded.length := by
  simp only [decodeMaybeTreeNode, hLong, hText, Outcome.ok_bind, textCount]
  split_ifs with hNothing
  · constructor
    · rintro ⟨-, hEnds⟩
      refine ⟨Outcome.defined_ok _, fun asked hAsked => ?_⟩
      obtain rfl := Except.ok.inj hAsked
      obtain rfl := hEnds length none rfl
      exact ⟨0, rfl, rfl, hLength⟩
    · rintro ⟨-, hAsks⟩
      obtain ⟨contents, hZero, hEnd, -⟩ := hAsks (some 0) rfl
      obtain rfl := Option.some.inj hZero
      refine ⟨Outcome.defined_ok _, fun used node hUsed => ?_⟩
      obtain ⟨rfl, -⟩ := Prod.mk.inj (Except.ok.inj hUsed)
      exact hEnd
  · cases hRead : readFrom readMaybeTreeNode text with
    | error fault =>
      simp only [Outcome.error_bind, Outcome.defined_error_iff, reduceCtorEq, false_implies,
        implies_true, and_true]
    | ok result =>
      obtain ⟨node, count⟩ := result
      cases count with
      | none =>
        refine iff_of_false (fun h => h.1 .iterator rfl) fun h => ?_
        obtain ⟨contents, hNone, -⟩ := h.2 none rfl
        cases hNone
      | some count =>
        have hCount : count < 2 ^ 64 := by
          refine textCount_lt (show textCount text = .ok (some count) from ?_)
          rw [textCount, if_neg hNothing, hRead]
          rfl
        simp only [Outcome.ok_bind, Outcome.pure_eq_ok, Except.ok.injEq, forall_eq',
          Outcome.defined_ok, true_and]
        by_cases hOut : (length + count) % 2 ^ 64 < length ∨
            encoded.length < (length + count) % 2 ^ 64
        · rw [if_pos hOut]
          refine iff_of_false (fun h => h.1 .iterator rfl) fun h => ?_
          obtain ⟨contents, hSome, hEnd, hFits⟩ := h
          obtain rfl := Option.some.inj hSome
          omega
        · rw [if_neg hOut]
          have hStop : (length + count) % 2 ^ 64 = length + count := by omega
          rw [hStop] at hOut ⊢
          constructor
          · rintro ⟨-, hEnds⟩
            obtain rfl := hEnds _ _ rfl
            exact ⟨count, rfl, rfl, by omega⟩
          · rintro ⟨contents, hSome, hEnd, -⟩
            obtain rfl := Option.some.inj hSome
            refine ⟨Outcome.defined_ok _, fun used found hUsed => ?_⟩
            obtain ⟨rfl, -⟩ := Prod.mk.inj (Except.ok.inj hUsed)
            exact hEnd

/-- A node's encoding ends where it is announced to, for any chunks, exactly if its two
counts match. -/
theorem announces_maybeTreeNode_iff (hSize : encoded.length < 2 ^ 64) :
    Announces canDecodeMaybeTreeNode decodeMaybeTreeNode start encoded ↔
      ((∃ n, canDecodeMaybeTreeNode start encoded = .ok (some n)) → CountsMatch encoded start) := by
  rw [forall_exists_index]
  refine forall_congr' fun n => forall_congr' fun hCan => ?_
  obtain ⟨count, last, contents, hLong, hLast, hAnnounced, hEnd, hFits⟩ :=
    canDecodeMaybeTreeNode_some hSize hCan
  obtain ⟨hStart, hCount, hFromStart⟩ := canDecodeLongString_some hLong
  obtain ⟨text, hText⟩ := decodeLongString_of_canDecode hFromStart
  have hContents := announcedCount_lt hAnnounced
  have hShort : (encoded.drop start).length = encoded.length - start := List.length_drop
  have hEnds := fun n => decodeMaybeTreeNode_ends_iff (n := n) hFromStart hText (by omega) (by omega)
  have hMatch : CountsMatch encoded start ↔ (textCount text).Defined ∧
      ∀ asked, textCount text = .ok asked → asked = some contents ∧ count + contents < 2 ^ 64 := by
    constructor
    · exact fun h => h count last contents text hLong hLast hAnnounced hText
    · intro h count' last' contents' text' hLong' hLast' hAnnounced' hText'
      obtain rfl := Option.some.inj (Except.ok.inj (hLong.symm.trans hLong'))
      obtain rfl := Option.some.inj (hLast.symm.trans hLast')
      obtain rfl := Option.some.inj (Except.ok.inj (hAnnounced.symm.trans hAnnounced'))
      obtain rfl := (Prod.mk.inj (Except.ok.inj (hText.symm.trans hText'))).2
      exact h
  rw [hMatch]
  constructor
  · rintro ⟨-, hDefined, hUsed⟩
    have hHere : ∀ used node, decodeMaybeTreeNode (encoded.drop start) = .ok (used, node) →
        used = n - start := by
      intro used node hDecode
      have hSum := hUsed used node hDecode
      omega
    obtain ⟨hReads, hAsks⟩ := (hEnds (n - start)).mp ⟨hDefined, hHere⟩
    refine ⟨hReads, fun asked hAsked => ?_⟩
    obtain ⟨found, rfl, hSum, -⟩ := hAsks asked hAsked
    have hSame : found = contents := by
      have hFound := textCount_lt hAsked
      omega
    exact ⟨congrArg some hSame, by omega⟩
  · rintro ⟨hReads, hAsks⟩
    cases hText : textCount text with
    | error fault =>
      -- a text that cannot be read ends nowhere
      rw [hText] at hEnds hReads
      obtain ⟨hDefined, hZero⟩ := (hEnds 0).mpr ⟨hReads, nofun⟩
      obtain ⟨-, hOne⟩ := (hEnds 1).mpr ⟨hReads, nofun⟩
      refine ⟨hFits, hDefined, fun used node hDecode => ?_⟩
      have hUsed := hZero used node hDecode
      rw [hOne used node hDecode] at hUsed
      cases hUsed
    | ok asked =>
      obtain ⟨rfl, hWrap⟩ := hAsks asked hText
      rw [hText] at hEnds hReads
      obtain ⟨hDefined, hUsed⟩ := (hEnds (n - start)).mpr ⟨hReads, fun asked hAsked =>
        ⟨contents, (Except.ok.inj hAsked).symm, by omega, by omega⟩⟩
      refine ⟨hFits, hDefined, fun used node hDecode => ?_⟩
      have hHere := hUsed used node hDecode
      omega

end Node

section Header

variable {α β : Type} {encoded : List SharedSpan} {start : ℕ} {what whatNode : Str}

/-- The chunk in front of a node: a text with a value and a label. -/
def readHeader (what : Str) (reader : Reader α) (encoded : List SharedSpan) : Outcome (α × Str) := do
  match ← canDecodeLongString 0 encoded with
  | none => throw (.invalidArgument what)
  | some count =>
    if count ≠ 1 then throw (.invalidArgument (str "Chunk count is not 1"))
    let (_, text) ← decodeLongString encoded
    let (a, iss) ← reader (.ofStr text)
    return (a, ← labelFrom text (iss.tellg text))

/-- A header, the node behind it, and what becomes of the two. -/
def decodeAfterHeader (what whatNode : Str) (reader : Reader α)
    (finish : α × Str → Option TreeNode → Outcome β) (encoded : List SharedSpan) : Outcome (ℕ × β) := do
  let header ← readHeader what reader encoded
  let (used, node) ← consuming whatNode decodeMaybeTreeNode (encoded.drop 1)
  return (1 + used, ← finish header node)

/-- The condition for a node behind a header: if the header is read, the counts of the node
match, and what becomes of the two is defined unless the node is refused. -/
def HeaderAgrees (what : Str) (reader : Reader α) (finish : α × Str → Option TreeNode → Outcome β)
    (encoded : List SharedSpan) (start : ℕ) : Prop :=
  (readHeader what reader (encoded.drop start)).Defined ∧
    ∀ header, readHeader what reader (encoded.drop start) = .ok header →
      CountsMatch encoded (start + 1) ∧
        ∀ used node, decodeMaybeTreeNode (encoded.drop (start + 1)) = .ok (used, node) →
          (finish header node).Defined

def newNodeVersion (header : Option UInt16 × Str) (node : Option TreeNode) : Outcome NewNodeVersion :=
  .ok ⟨header.1, header.2, node⟩

def sequentialNotification (header : Option ℕ × Str) (node : Option TreeNode) :
    Outcome SequentialNotification := do
  return ⟨.ofNat (← writtenValue header.1), header.2, node⟩

theorem decodeNewNodeVersion_eq (encoded : List SharedSpan) : decodeNewNodeVersion encoded =
    decodeAfterHeader (str "Cannot decode NewNodeVersion") (str "Cannot decode MaybeTreeNode")
      readPriorVersion newNodeVersion encoded := by
  rw [decodeNewNodeVersion, decodeAfterHeader, readHeader]
  cases hLong : canDecodeLongString 0 encoded with
  | error fault => rfl
  | ok count? =>
    cases count? with
    | none => rfl
    | some count =>
      obtain ⟨text, hText⟩ := decodeLongString_of_canDecode hLong
      by_cases hOne : count = 1
      · subst hOne
        simp only [hText, Outcome.ok_bind, ne_eq, not_true_eq_false, if_false, bind_assoc, pure_bind,
          newNodeVersion]
      · simp only [Outcome.ok_bind, ne_eq, hOne, not_false_eq_true, if_true]
        rfl

theorem decodeSequentialNotification_eq (encoded : List SharedSpan) :
    decodeSequentialNotification encoded =
      decodeAfterHeader (str "Cannot decode SequentialNotification") (str "Cannot decode MaybeTreeNode")
        (unsigned 10 64) sequentialNotification encoded := by
  rw [decodeSequentialNotification, decodeAfterHeader, readHeader]
  cases hLong : canDecodeLongString 0 encoded with
  | error fault => rfl
  | ok count? =>
    cases count? with
    | none => rfl
    | some count =>
      obtain ⟨text, hText⟩ := decodeLongString_of_canDecode hLong
      by_cases hOne : count = 1
      · subst hOne
        simp only [hText, Outcome.ok_bind, ne_eq, not_true_eq_false, if_false, bind_assoc, pure_bind,
          sequentialNotification]
      · simp only [Outcome.ok_bind, ne_eq, hOne, not_false_eq_true, if_true]
        rfl

/-- A header that is read takes one chunk. -/
theorem canDecodeLongString_of_readHeader {reader : Reader α} {header : α × Str} {count : ℕ}
    (h : readHeader what reader encoded = .ok header)
    (hLong : canDecodeLongString 0 encoded = .ok (some count)) : count = 1 := by
  by_contra hOther
  rw [readHeader, hLong] at h
  simp only [Outcome.ok_bind, ne_eq, hOther, not_false_eq_true, if_true] at h
  cases h

/-- A decoded node takes at least the chunks of its text. -/
theorem decodeMaybeTreeNode_pos {used : ℕ} {node : Option TreeNode}
    (h : decodeMaybeTreeNode encoded = .ok (used, node)) : used ≠ 0 := by
  obtain ⟨length?, hLong, h⟩ := Outcome.bind_eq_ok.mp h
  cases length? with
  | none => cases h
  | some length =>
    have hPos := (canDecodeLongString_some hLong).1
    obtain ⟨⟨taken, text⟩, -, h⟩ := Outcome.bind_eq_ok.mp h
    dsimp only at h
    split_ifs at h with hNothing
    · obtain ⟨rfl, -⟩ := Prod.mk.inj (Except.ok.inj h)
      omega
    · obtain ⟨⟨found, count⟩, -, h⟩ := Outcome.bind_eq_ok.mp h
      cases count with
      | none => cases h
      | some count =>
        dsimp only at h
        split_ifs at h with hOut
        · cases h
        · obtain ⟨rfl, -⟩ := Prod.mk.inj (Except.ok.inj h)
          omega

/-- The check that a nested decoder consumed a chunk never fails for a node. -/
theorem consuming_decodeMaybeTreeNode (what : Str) (encoded : List SharedSpan) :
    consuming what decodeMaybeTreeNode encoded = decodeMaybeTreeNode encoded := by
  cases hNode : decodeMaybeTreeNode encoded with
  | error fault => rw [consuming, hNode]; rfl
  | ok decoded => exact consuming_ok hNode (decodeMaybeTreeNode_pos hNode)

/-- A node behind a header ends where it is announced to, for any chunks, exactly if the
condition holds. -/
theorem announces_afterHeader_iff {canDecode : ℕ → List SharedSpan → Outcome (Option ℕ)}
    {reader : Reader α} {finish : α × Str → Option TreeNode → Outcome β}
    (hSize : encoded.length < 2 ^ 64) (hFinish : ∀ header node, ¬(finish header node).Throws)
    (hFits : ∀ n, canDecode start encoded = .ok (some n) → n ≤ encoded.length)
    (hCan : ∀ n header, canDecode start encoded = .ok (some n) →
      readHeader what reader (encoded.drop start) = .ok header →
        canDecodeMaybeTreeNode (start + 1) encoded = .ok (some n)) :
    Announces canDecode (decodeAfterHeader what whatNode reader finish) start encoded ↔
      ((∃ n, canDecode start encoded = .ok (some n)) →
        HeaderAgrees what reader finish encoded start) := by
  rw [forall_exists_index]
  refine forall_congr' fun n => forall_congr' fun hSome => ?_
  rw [HeaderAgrees]
  have hDrop : (encoded.drop start).drop 1 = encoded.drop (start + 1) := List.drop_drop
  have hDecode : decodeAfterHeader what whatNode reader finish (encoded.drop start) =
      readHeader what reader (encoded.drop start) >>= fun header =>
        decodeMaybeTreeNode (encoded.drop (start + 1)) >>= fun decoded =>
          finish header decoded.2 >>= fun value => .ok (1 + decoded.1, value) := by
    rw [decodeAfterHeader, hDrop, consuming_decodeMaybeTreeNode]
    rfl
  rw [hDecode]
  cases hHeader : readHeader what reader (encoded.drop start) with
  | error fault =>
    simp only [Outcome.error_bind, Outcome.defined_error_iff, reduceCtorEq, false_implies, implies_true,
      and_true, hFits n hSome, true_and]
  | ok header =>
    have hNode := hCan n header hSome hHeader
    have hMatch : Announces canDecodeMaybeTreeNode decodeMaybeTreeNode (start + 1) encoded ↔
        CountsMatch encoded (start + 1) := by
      rw [announces_maybeTreeNode_iff hSize]
      exact ⟨fun h => h ⟨n, hNode⟩, fun h _ => h⟩
    simp only [Outcome.ok_bind, Outcome.defined_ok, true_and, Except.ok.injEq, forall_eq',
      Outcome.defined_bind_iff, ← hMatch]
    constructor
    · rintro ⟨hIn, ⟨hDefined, hFinished⟩, hEnds⟩
      have hAfter : ∀ used node, decodeMaybeTreeNode (encoded.drop (start + 1)) = .ok (used, node) →
          (finish header node).Defined := fun used node hUsed => (hFinished _ hUsed).1
      refine ⟨fun n' hNode' => ?_, hAfter⟩
      obtain rfl := Option.some.inj (Except.ok.inj (hNode.symm.trans hNode'))
      refine ⟨hIn, hDefined, fun used node hUsed => ?_⟩
      obtain ⟨value, hValue⟩ := (hAfter used node hUsed).returns (hFinish _ _)
      rw [hUsed] at hEnds
      simp only [Outcome.ok_bind, hValue] at hEnds
      have hSum := hEnds _ _ rfl
      omega
    · rintro ⟨hAnnounces, hAfter⟩
      obtain ⟨hIn, hDefined, hEnds⟩ := hAnnounces n hNode
      refine ⟨hIn, ⟨hDefined, fun decoded hUsed => ⟨hAfter _ _ hUsed, fun _ _ => trivial⟩⟩,
        fun used value hUsed => ?_⟩
      obtain ⟨⟨usedNode, node⟩, hOne, hUsed⟩ := Outcome.bind_eq_ok.mp hUsed
      obtain ⟨found, -, hUsed⟩ := Outcome.bind_eq_ok.mp hUsed
      obtain ⟨rfl, -⟩ := Prod.mk.inj (Except.ok.inj hUsed)
      rw [← hEnds usedNode node hOne, Nat.add_assoc]

end Header

section Each

variable {α β : Type} {encoded : List SharedSpan} {start : ℕ}

/-- The condition on each element that is reached: `can_decode` walks to it and no element
before it is refused. -/
def EachAgrees (agrees : ℕ → Prop) (canDecode : ℕ → List SharedSpan → Outcome (Option ℕ))
    (decode : List SharedSpan → Outcome (ℕ × α)) (encoded : List SharedSpan) : ℕ → ℕ → Prop
  | 0, _ => True
  | count + 1, offset => agrees offset ∧
      (¬Outcome.Throws (decode (encoded.drop offset)) → ∀ next, canDecode offset encoded = .ok (some next) →
        EachAgrees agrees canDecode decode encoded count next)

theorem canDecodeEach_le {canDecode : ℕ → List SharedSpan → Outcome (Option ℕ)}
    (hFits : ∀ offset n, canDecode offset encoded = .ok (some n) → n ≤ encoded.length)
    {count offset n : ℕ} (hOffset : offset ≤ encoded.length)
    (h : canDecodeEach canDecode encoded count offset = .ok (some n)) : n ≤ encoded.length := by
  induction count generalizing offset with
  | zero =>
    obtain rfl := Option.some.inj (Except.ok.inj h)
    exact hOffset
  | succ count ih =>
    obtain ⟨next?, hNext, hRest⟩ := Outcome.bind_eq_ok.mp h
    cases next? with
    | none => cases hRest
    | some next => exact ih (hFits offset next hNext) hRest

/-- Elements that each end where they are announced to do so one after another. -/
theorem decodeEach_ends {agrees : ℕ → Prop} {canDecode : ℕ → List SharedSpan → Outcome (Option ℕ)}
    {decode : List SharedSpan → Outcome (ℕ × α)}
    (hAgrees : ∀ offset, agrees offset → Announces canDecode decode offset encoded)
    {count offset n : ℕ} (hOffset : start + offset ≤ encoded.length)
    (hEach : EachAgrees agrees canDecode decode encoded count (start + offset))
    (hCan : canDecodeEach canDecode encoded count (start + offset) = .ok (some n)) :
    (decodeEach decode (encoded.drop start) count offset).Defined ∧
      ∀ stop l, decodeEach decode (encoded.drop start) count offset = .ok (stop, l) →
        start + stop = n := by
  induction count generalizing offset with
  | zero =>
    obtain rfl := Option.some.inj (Except.ok.inj hCan)
    refine ⟨Outcome.defined_ok _, fun stop l hStop => ?_⟩
    obtain ⟨rfl, -⟩ := Prod.mk.inj (Except.ok.inj hStop)
    rfl
  | succ count ih =>
    obtain ⟨hHere, hRest⟩ := hEach
    obtain ⟨next?, hNext, hCan⟩ := Outcome.bind_eq_ok.mp hCan
    cases next? with
    | none => cases hCan
    | some next =>
      obtain ⟨hNextFits, hDefined, hEnds⟩ := hAgrees _ hHere next hNext
      have hBegin : ¬(encoded.drop start).length < offset := by
        rw [List.length_drop]
        omega
      have hDrop : (encoded.drop start).drop offset = encoded.drop (start + offset) := List.drop_drop
      rw [decodeEach, if_neg hBegin, hDrop]
      cases hDecode : decode (encoded.drop (start + offset)) with
      | error fault =>
        rw [hDecode] at hDefined
        refine ⟨Outcome.defined_bind_iff.mpr ⟨hDefined, fun _ hOk => ?_⟩, fun _ _ hOk => ?_⟩ <;> cases hOk
      | ok first =>
        obtain ⟨used, a⟩ := first
        obtain rfl := hEnds used a hDecode
        have hReturns : ¬(decode (encoded.drop (start + offset))).Throws := by
          rw [hDecode]
          exact Outcome.not_throws_ok _
        rw [Nat.add_assoc] at hNextFits hCan hNext
        obtain ⟨hMore, hMoreEnds⟩ := ih hNextFits (hRest hReturns _ hNext) hCan
        rw [Outcome.ok_bind, Outcome.defined_bind_iff]
        refine ⟨⟨hMore, fun _ _ => Outcome.defined_ok _⟩, fun stop l hStop => ?_⟩
        obtain ⟨⟨last, more⟩, hLast, hPair⟩ := Outcome.bind_eq_ok.mp hStop
        obtain ⟨rfl, -⟩ := Prod.mk.inj (Except.ok.inj hPair)
        exact hMoreEnds _ _ hLast

/-- The check that a nested decoder consumed a chunk does not change where it ends. -/
theorem Announces.consuming {what : Str} {canDecode : ℕ → List SharedSpan → Outcome (Option ℕ)}
    {decode : List SharedSpan → Outcome (ℕ × α)} (h : Announces canDecode decode start encoded) :
    Announces canDecode (consuming what decode) start encoded := by
  intro n hCan
  obtain ⟨hFits, hDefined, hEnds⟩ := h n hCan
  refine ⟨hFits, Outcome.defined_bind_iff.mpr ⟨hDefined, fun decoded _ => ?_⟩,
    fun used a hUsed => hEnds used a (of_consuming hUsed)⟩
  split_ifs <;> exact fun _ => nofun

theorem canDecodeLabel_some {count : ℕ} (h : canDecodeLabel start encoded = .ok (some count)) :
    count = start + 1 ∧ start < encoded.length ∧
      canDecodeLabel 0 (encoded.drop start) = .ok (some 1) := by
  have hHead : (encoded.drop start)[0]? = encoded[start]? := by
    rw [List.getElem?_drop, Nat.add_zero]
  rw [canDecodeLabel] at h ⊢
  rw [hHead]
  cases hChunk : encoded[start]? with
  | none =>
    rw [hChunk] at h
    cases h
  | some chunk =>
    have hStart : start < encoded.length := (List.getElem?_eq_some_iff.mp hChunk).1
    rw [hChunk] at h
    dsimp only at h ⊢
    cases hWire : chunk.getWireSize with
    | error fault =>
      rw [hWire] at h
      cases h
    | ok size =>
      rw [hWire] at h
      simp only [Outcome.ok_bind] at h ⊢
      split_ifs at h ⊢ with hShort
      · cases h
      cases hSignal : chunk.getPayloadSignal with
      | error fault =>
        rw [hSignal] at h
        cases h
      | ok header =>
        rw [hSignal] at h
        simp only [Outcome.ok_bind, Outcome.pure_eq_ok] at h ⊢
        split_ifs at h ⊢ with hData
        · cases h
        · exact ⟨(Option.some.inj (Except.ok.inj h)).symm, hStart, rfl⟩

/-- The label at `start` can be read as a count exactly as the encoding's own decoder does. -/
theorem canDecodeCount_some {what : Str} (what' : Str) {size : Option ℕ}
    (h : canDecodeCount what start encoded = .ok (some size)) :
    start < encoded.length ∧ (∃ chunk, encoded[start]? = some chunk ∧ vectorSize chunk.bytes = .ok size) ∧
      decodeCount what' (encoded.drop start) = .ok (1, size) := by
  rw [canDecodeCount] at h
  split_ifs at h with hShort
  · cases h
  obtain ⟨count?, hLabel, h⟩ := Outcome.bind_eq_ok.mp h
  cases count? with
  | none => cases h
  | some count =>
    obtain ⟨rfl, hStart, hFromStart⟩ := canDecodeLabel_some hLabel
    obtain ⟨chunk, hChunk⟩ : ∃ chunk, encoded[start]? = some chunk :=
      ⟨_, List.getElem?_eq_getElem hStart⟩
    have hDrop : encoded.drop start = chunk :: encoded.drop (start + 1) := by
      rw [List.drop_eq_getElem_cons hStart, (List.getElem?_eq_some_iff.mp hChunk).2]
    have hNext : ¬(start + 1 - start ≠ 1) := by omega
    simp only [if_neg hNext, hDrop, List.take_succ_cons, decodeLabel, Outcome.ok_bind] at h
    obtain ⟨found, hSize, h⟩ := Outcome.bind_eq_ok.mp h
    obtain rfl := Option.some.inj (Except.ok.inj h)
    refine ⟨hStart, ⟨chunk, hChunk, hSize⟩, ?_⟩
    rw [decodeCount, hFromStart, hDrop]
    simp only [Outcome.ok_bind, decodeLabel, hSize]
    rfl

/-- The condition on the elements behind a count, and on one more with `extra` 1. -/
def VectorAgrees (agrees : ℕ → Prop) (canDecode : ℕ → List SharedSpan → Outcome (Option ℕ))
    (decode : List SharedSpan → Outcome (ℕ × α)) (extra : ℕ) (encoded : List SharedSpan)
    (start : ℕ) : Prop :=
  ∀ chunk size, encoded[start]? = some chunk → vectorSize chunk.bytes = .ok (some size) →
    EachAgrees agrees canDecode decode encoded (size + extra) (start + 1)

/-- A vector ends where it is announced to, if its elements do. -/
theorem announces_vector {agrees : ℕ → Prop} {canDecode canDecodeAll : ℕ → List SharedSpan → Outcome (Option ℕ)}
    {decode : List SharedSpan → Outcome (ℕ × α)} {decodeAll : List SharedSpan → Outcome (ℕ × List α)}
    {what what' : Str}
    (hCanAll : canDecodeAll start encoded = do
      match ← canDecodeCount what start encoded with
      | none => return none
      | some size => canDecodeEach canDecode encoded (← writtenValue size) (start + 1))
    (hDecodeAll : decodeAll (encoded.drop start) = do
      let (used, size) ← decodeCount what' (encoded.drop start)
      decodeEach decode (encoded.drop start) (← writtenValue size) used)
    (hFits : ∀ offset n, canDecode offset encoded = .ok (some n) → n ≤ encoded.length)
    (hAgrees : ∀ offset, agrees offset → Announces canDecode decode offset encoded)
    (h : VectorAgrees agrees canDecode decode 0 encoded start) :
    Announces canDecodeAll decodeAll start encoded := by
  intro n hCan
  rw [hCanAll] at hCan
  obtain ⟨size?, hCount, hCan⟩ := Outcome.bind_eq_ok.mp hCan
  cases size? with
  | none => cases hCan
  | some size =>
    obtain ⟨written, hWritten, hEach⟩ := Outcome.bind_eq_ok.mp hCan
    obtain ⟨hStart, ⟨chunk, hChunk, hVector⟩, hDecodeCount⟩ := canDecodeCount_some _ hCount
    obtain rfl : size = some written := by
      cases size with
      | none => cases hWritten
      | some size => exact congrArg some (Except.ok.inj hWritten)
    rw [hDecodeAll, hDecodeCount]
    exact ⟨canDecodeEach_le hFits hStart hEach,
      decodeEach_ends hAgrees hStart (h chunk written hChunk hVector) hEach⟩

end Each

section Decoders

variable {encoded : List SharedSpan} {start n : ℕ} (hSize : encoded.length < 2 ^ 64)

theorem canDecodeMaybeTreeNode_le (hSize : encoded.length < 2 ^ 64)
    (h : canDecodeMaybeTreeNode start encoded = .ok (some n)) : n ≤ encoded.length := by
  obtain ⟨_, _, _, -, -, -, -, hFits⟩ := canDecodeMaybeTreeNode_some hSize h
  exact hFits

theorem canDecodeNewNodeVersion_some (h : canDecodeNewNodeVersion start encoded = .ok (some n)) :
    canDecodeMaybeTreeNode (start + 1) encoded = .ok (some n) := by
  rw [canDecodeNewNodeVersion] at h
  split at h
  · cases h
  · split_ifs at h
    · cases h
    obtain ⟨count?, hLabel, h⟩ := Outcome.bind_eq_ok.mp h
    cases count? with
    | none => cases h
    | some count =>
      obtain rfl := (canDecodeLabel_some hLabel).1
      exact h

theorem canDecodeSequentialNotification_some
    (h : canDecodeSequentialNotification start encoded = .ok (some n)) :
    ∃ count, canDecodeLongString start encoded = .ok (some count) ∧
      canDecodeMaybeTreeNode count encoded = .ok (some n) := by
  rw [canDecodeSequentialNotification] at h
  split at h
  · cases h
  · split_ifs at h
    · cases h
    obtain ⟨count?, hLong, h⟩ := Outcome.bind_eq_ok.mp h
    cases count? with
    | none => cases h
    | some count =>
      dsimp only at h
      split_ifs at h
      · cases h
      · exact ⟨count, hLong, h⟩

theorem canDecodeSubTransaction_some (h : canDecodeSubTransaction start encoded = .ok (some n)) :
    ∃ size current, canDecodeCount (str "Chunk count for vector length is not 1") start encoded =
        .ok (some (some size)) ∧ canDecodeNewNodeVersion (start + 1) encoded = .ok (some current) ∧
      canDecodeEach canDecodeNewNodeVersion encoded size current = .ok (some n) := by
  obtain ⟨size?, hCount, h⟩ := Outcome.bind_eq_ok.mp h
  cases size? with
  | none => cases h
  | some size =>
    obtain ⟨current?, hParent, h⟩ := Outcome.bind_eq_ok.mp h
    cases current? with
    | none => cases h
    | some current =>
      obtain ⟨written, hWritten, hEach⟩ := Outcome.bind_eq_ok.mp h
      cases size with
      | none => cases hWritten
      | some size =>
        obtain rfl := Except.ok.inj hWritten
        exact ⟨size, current, hCount, hParent, hEach⟩

include hSize

/-- The condition for a new version of a node. -/
abbrev NewNodeVersionAgrees (encoded : List SharedSpan) (start : ℕ) : Prop :=
  HeaderAgrees (str "Cannot decode NewNodeVersion") readPriorVersion newNodeVersion encoded start

/-- The condition for a notification. -/
abbrev SequentialNotificationAgrees (encoded : List SharedSpan) (start : ℕ) : Prop :=
  HeaderAgrees (str "Cannot decode SequentialNotification") (unsigned 10 64) sequentialNotification
    encoded start

theorem announces_newNodeVersion_iff :
    Announces canDecodeNewNodeVersion decodeNewNodeVersion start encoded ↔
      ((∃ n, canDecodeNewNodeVersion start encoded = .ok (some n)) →
        NewNodeVersionAgrees encoded start) := by
  have hDecode : decodeNewNodeVersion = _ := funext decodeNewNodeVersion_eq
  rw [hDecode]
  exact announces_afterHeader_iff hSize (fun _ _ => nofun)
    (fun n hCan => canDecodeMaybeTreeNode_le hSize (canDecodeNewNodeVersion_some hCan))
    (fun n _ hCan _ => canDecodeNewNodeVersion_some hCan)

theorem announces_sequentialNotification_iff :
    Announces canDecodeSequentialNotification decodeSequentialNotification start encoded ↔
      ((∃ n, canDecodeSequentialNotification start encoded = .ok (some n)) →
        SequentialNotificationAgrees encoded start) := by
  have hDecode : decodeSequentialNotification = _ := funext decodeSequentialNotification_eq
  rw [hDecode]
  refine announces_afterHeader_iff hSize ?_ (fun n hCan => ?_) (fun n header hCan hHeader => ?_)
  · rintro ⟨number, label⟩ node ⟨fault, hFault, hOther⟩
    cases number with
    | some number => cases hFault
    | none => exact hOther .indeterminate (Except.error.inj hFault).symm
  · obtain ⟨count, -, hNode⟩ := canDecodeSequentialNotification_some hCan
    exact canDecodeMaybeTreeNode_le hSize hNode
  · obtain ⟨count, hLong, hNode⟩ := canDecodeSequentialNotification_some hCan
    obtain ⟨hStart, -, hFromStart⟩ := canDecodeLongString_some hLong
    have hOne := canDecodeLongString_of_readHeader hHeader hFromStart
    obtain rfl : count = start + 1 := by omega
    exact hNode

/-- The condition for a sub-transaction: the parent and its descendants are one vector. -/
def SubTransactionAgrees (encoded : List SharedSpan) (start : ℕ) : Prop :=
  VectorAgrees (NewNodeVersionAgrees encoded)
    canDecodeNewNodeVersion (consuming (str "Cannot decode NewNodeVersion") decodeNewNodeVersion) 1
    encoded start

theorem canDecodeSubTransaction_le (h : canDecodeSubTransaction start encoded = .ok (some n)) :
    n ≤ encoded.length := by
  obtain ⟨size, current, -, hParent, hEach⟩ := canDecodeSubTransaction_some h
  have hFits : ∀ offset n, canDecodeNewNodeVersion offset encoded = .ok (some n) → n ≤ encoded.length :=
    fun _ _ hCan => canDecodeMaybeTreeNode_le hSize (canDecodeNewNodeVersion_some hCan)
  exact canDecodeEach_le hFits (hFits _ _ hParent) hEach

theorem announces_subTransaction (h : SubTransactionAgrees encoded start) :
    Announces canDecodeSubTransaction decodeSubTransaction start encoded := by
  intro n hCan
  refine ⟨canDecodeSubTransaction_le hSize hCan, ?_⟩
  obtain ⟨size, current, hCount, hParent, hEach⟩ := canDecodeSubTransaction_some hCan
  obtain ⟨hStart, ⟨chunk, hChunk, hVector⟩, hDecodeCount⟩ := canDecodeCount_some _ hCount
  obtain ⟨hHere, hRest⟩ := h chunk size hChunk hVector
  have hNewNode : ∀ offset, NewNodeVersionAgrees encoded offset →
      Announces canDecodeNewNodeVersion
        (consuming (str "Cannot decode NewNodeVersion") decodeNewNodeVersion) offset encoded :=
    fun _ hAgrees => ((announces_newNodeVersion_iff hSize).mpr fun _ => hAgrees).consuming
  obtain ⟨hFits, hDefined, hEnds⟩ := hNewNode _ hHere current hParent
  have hDrop : (encoded.drop start).drop 1 = encoded.drop (start + 1) := List.drop_drop
  rw [decodeSubTransaction, hDecodeCount]
  simp only [Outcome.ok_bind, hDrop]
  cases hFirst : consuming (str "Cannot decode NewNodeVersion") decodeNewNodeVersion
      (encoded.drop (start + 1)) with
  | error fault =>
    rw [hFirst] at hDefined
    exact ⟨Outcome.defined_bind_iff.mpr ⟨hDefined, nofun⟩, nofun⟩
  | ok first =>
    obtain ⟨used, parent⟩ := first
    obtain rfl := hEnds used parent hFirst
    have hReturns : ¬(consuming (str "Cannot decode NewNodeVersion") decodeNewNodeVersion
        (encoded.drop (start + 1))).Throws := by
      rw [hFirst]
      exact Outcome.not_throws_ok _
    have hOffset : start + 1 + used = start + (used + 1) := by omega
    have hAgain := hRest hReturns _ hParent
    rw [hOffset] at hFits hEach hAgain
    obtain ⟨hMore, hMoreEnds⟩ := decodeEach_ends hNewNode hFits hAgain hEach
    simp only [writtenValue, Outcome.ok_bind]
    refine ⟨Outcome.defined_bind_iff.mpr ⟨hMore, fun _ _ => Outcome.defined_ok _⟩,
      fun stop sub hStop => ?_⟩
    obtain ⟨⟨last, descendants⟩, hLast, hPair⟩ := Outcome.bind_eq_ok.mp hStop
    obtain ⟨rfl, -⟩ := Prod.mk.inj (Except.ok.inj hPair)
    exact hMoreEnds _ _ hLast

theorem announces_decodeTreeNode (h : CountsMatch encoded start) :
    Announces canDecodeMaybeTreeNode decodeTreeNode start encoded := by
  have hNode : Announces canDecodeMaybeTreeNode
      (consuming (str "Cannot decode TreeNode") decodeMaybeTreeNode) start encoded :=
    ((announces_maybeTreeNode_iff hSize).mpr fun _ => h).consuming
  intro n hCan
  obtain ⟨hFits, hDefined, hEnds⟩ := hNode n hCan
  refine ⟨hFits, Outcome.defined_bind_iff.mpr ⟨hDefined, ?_⟩, fun used node hUsed => ?_⟩
  · rintro ⟨used, node⟩ -
    cases node <;> exact fun _ => nofun
  · obtain ⟨⟨taken, node?⟩, hNode, hLast⟩ := Outcome.bind_eq_ok.mp hUsed
    cases node? with
    | none => cases hLast
    | some found =>
      obtain ⟨rfl, -⟩ := Prod.mk.inj (Except.ok.inj hLast)
      exact hEnds _ _ hNode

theorem announces_transaction
    (h : VectorAgrees (SubTransactionAgrees encoded) canDecodeSubTransaction
      (consuming (str "Cannot decode SubTransaction") decodeSubTransaction) 0 encoded start) :
    Announces canDecodeTransaction decodeTransaction start encoded :=
  announces_vector rfl rfl (fun _ _ => canDecodeSubTransaction_le hSize)
    (fun _ hAgrees => (announces_subTransaction hSize hAgrees).consuming) h

theorem announces_vectorTreeNode
    (h : VectorAgrees (CountsMatch encoded) canDecodeMaybeTreeNode decodeTreeNode 0 encoded start) :
    Announces canDecodeVectorTreeNode decodeVectorTreeNode start encoded :=
  announces_vector rfl rfl (fun _ _ => canDecodeMaybeTreeNode_le hSize)
    (fun _ => announces_decodeTreeNode hSize) h

theorem announces_vectorSequentialNotification
    (h : VectorAgrees (SequentialNotificationAgrees encoded)
      canDecodeSequentialNotification decodeSequentialNotification 0 encoded start) :
    Announces canDecodeVectorSequentialNotification decodeVectorSequentialNotification start encoded := by
  intro n hCan
  rw [canDecodeVectorSequentialNotification] at hCan
  split_ifs at hCan with hShort
  · cases hCan
  obtain ⟨count?, hLabel, hCan⟩ := Outcome.bind_eq_ok.mp hCan
  cases count? with
  | none => cases hCan
  | some count =>
    obtain ⟨rfl, hStart, -⟩ := canDecodeLabel_some hLabel
    have hDrop : encoded.drop start = encoded[start] :: encoded.drop (start + 1) :=
      List.drop_eq_getElem_cons hStart
    dsimp only at hCan
    rw [Nat.add_sub_cancel, hDrop, decodeLabel] at hCan
    simp only [Outcome.ok_bind] at hCan
    obtain ⟨size, hVector, hCan⟩ := Outcome.bind_eq_ok.mp hCan
    obtain ⟨written, hWritten, hEach⟩ := Outcome.bind_eq_ok.mp hCan
    cases size with
    | none => cases hWritten
    | some size =>
      obtain rfl := Except.ok.inj hWritten
      rw [Nat.add_comm 1] at hEach
      have hFits : ∀ offset n, canDecodeSequentialNotification offset encoded = .ok (some n) →
          n ≤ encoded.length := by
        intro offset n hOne
        obtain ⟨count, -, hNode⟩ := canDecodeSequentialNotification_some hOne
        exact canDecodeMaybeTreeNode_le hSize hNode
      have hDecode : decodeVectorSequentialNotification (encoded.drop start) =
          decodeEach decodeSequentialNotification (encoded.drop start) size 1 := by
        rw [decodeVectorSequentialNotification, hDrop, decodeLabel]
        simp only [Outcome.ok_bind, hVector, writtenValue]
      rw [hDecode]
      exact ⟨canDecodeEach_le hFits hStart hEach,
        decodeEach_ends (fun _ hOne => (announces_sequentialNotification_iff hSize).mpr fun _ => hOne) hStart
          (h _ _ (List.getElem?_eq_getElem hStart) hVector) hEach⟩

end Decoders

section Payloads

variable {encoded : List SharedSpan}

theorem announces_label (start : ℕ) (encoded : List SharedSpan) :
    Announces canDecodeLabel decodeLabel start encoded := by
  intro n hCan
  obtain ⟨rfl, hStart, -⟩ := canDecodeLabel_some hCan
  rw [List.drop_eq_getElem_cons hStart]
  refine ⟨hStart, Outcome.defined_ok _, fun used text hUsed => ?_⟩
  obtain ⟨rfl, -⟩ := Prod.mk.inj (Except.ok.inj hUsed)
  rfl

theorem announces_longString (start : ℕ) (encoded : List SharedSpan) :
    Announces canDecodeLongString decodeLongString start encoded := by
  intro n hCan
  obtain ⟨hStart, hFits, hFromStart⟩ := canDecodeLongString_some hCan
  obtain ⟨text, hText⟩ := decodeLongString_of_canDecode hFromStart
  rw [hText]
  refine ⟨hFits, Outcome.defined_ok _, fun used found hUsed => ?_⟩
  obtain ⟨rfl, -⟩ := Prod.mk.inj (Except.ok.inj hUsed)
  omega

/-- The condition on the contents of the chunks: in every node that is reached, the count at
the end of the last chunk is the count in the text. -/
def Decoder.Agrees (encoded : List SharedSpan) : Decoder → Prop
  | label | longString => True
  | maybeTreeNode => CountsMatch encoded 0
  | sequentialNotification => SequentialNotificationAgrees encoded 0
  | vectorSequentialNotification =>
    VectorAgrees (SequentialNotificationAgrees encoded) canDecodeSequentialNotification
      decodeSequentialNotification 0 encoded 0
  | newNodeVersion => NewNodeVersionAgrees encoded 0
  | subTransaction => SubTransactionAgrees encoded 0
  | transaction =>
    VectorAgrees (SubTransactionAgrees encoded) canDecodeSubTransaction
      (consuming (str "Cannot decode SubTransaction") decodeSubTransaction) 0 encoded 0
  | vectorTreeNode =>
    VectorAgrees (CountsMatch encoded) canDecodeMaybeTreeNode decodeTreeNode 0 encoded 0

/-- Chunks with any contents are decoded to where they are announced to end, if the two
counts of every node match; for the decoders of one node this is the exact condition. -/
theorem Decoder.announces_of_agrees (x : Decoder) (hSize : encoded.length < 2 ^ 64) :
    (((∃ n, x.canDecode 0 encoded = .ok (some n)) → x.Agrees encoded) →
        Announces x.canDecode x.decode 0 encoded) ∧
      (x ∈ [maybeTreeNode, sequentialNotification, newNodeVersion] →
        Announces x.canDecode x.decode 0 encoded →
          (∃ n, x.canDecode 0 encoded = .ok (some n)) → x.Agrees encoded) := by
  constructor
  · intro h n hCan
    have hAgrees := h ⟨n, hCan⟩
    cases x with
    | label => exact announces_label 0 encoded n hCan
    | longString => exact announces_longString 0 encoded n hCan
    | maybeTreeNode => exact (announces_maybeTreeNode_iff hSize).mpr (fun _ => hAgrees) n hCan
    | sequentialNotification =>
      exact (announces_sequentialNotification_iff hSize).mpr (fun _ => hAgrees) n hCan
    | vectorSequentialNotification =>
      exact announces_vectorSequentialNotification hSize hAgrees n hCan
    | newNodeVersion => exact (announces_newNodeVersion_iff hSize).mpr (fun _ => hAgrees) n hCan
    | subTransaction => exact announces_subTransaction hSize hAgrees n hCan
    | transaction => exact announces_transaction hSize hAgrees n hCan
    | vectorTreeNode => exact announces_vectorTreeNode hSize hAgrees n hCan
  · intro hOne h
    simp only [List.mem_cons, List.not_mem_nil, or_false] at hOne
    rcases hOne with rfl | rfl | rfl
    · exact (announces_maybeTreeNode_iff hSize).mp h
    · exact (announces_sequentialNotification_iff hSize).mp h
    · exact (announces_newNodeVersion_iff hSize).mp h

/-- The text of a node that asks for one chunk, and behind it sixteen more digits. -/
def splicedText : Str :=
  str "Just " ++ plainText (describedNode 0) defaultVersionText ++
    str "\n0000000000000001 0000000000000000"

/-- That text in one chunk. -/
def splicedNode : List SharedSpan :=
  [payloadSpan 1 0x08 (leBytes 8 splicedText.length ++ splicedText)]

/-- The sixteen digits at the end are taken for the count, and no chunk follows. -/
theorem splicedNode_announced :
    canDecodeMaybeTreeNode 0 splicedNode = .ok (some 1) ∧
      ¬Announces Decoder.maybeTreeNode.canDecode Decoder.maybeTreeNode.decode 0 splicedNode := by
  have hCan : canDecodeMaybeTreeNode 0 splicedNode = .ok (some 1) := by decide +kernel
  have hText : decodeLongString splicedNode = .ok (1, splicedText) := by decide +kernel
  have hAsked : textCount splicedText = .ok (some 1) := by decide +kernel
  have hSize : splicedNode.length < 2 ^ 64 := by decide
  refine ⟨hCan, fun h => ?_⟩
  have hMatch := (announces_maybeTreeNode_iff hSize).mp h ⟨1, hCan⟩
  have hCounts := (hMatch 1 _ 0 splicedText (by decide +kernel) rfl (by decide +kernel) hText).2 _ hAsked
  cases hCounts.1

/-- The chunk that says that there is no node. -/
def nothingChunk : SharedSpan := payloadSpan 1 0x08 (leBytes 8 7 ++ str "Nothing")

/-- It announces no other chunk. -/
theorem announces_of_agrees_nothing :
    Announces Decoder.maybeTreeNode.canDecode Decoder.maybeTreeNode.decode 0 [nothingChunk] := by
  refine (Decoder.announces_of_agrees .maybeTreeNode (by decide)).1 fun _ => ?_
  intro count last contents text hLong hLast hAnnounced hText
  have hOne : canDecodeLongString 0 [nothingChunk] = .ok (some 1) := by decide +kernel
  have hNothing : decodeLongString [nothingChunk] = .ok (1, str "Nothing") := by decide +kernel
  obtain rfl := Option.some.inj (Except.ok.inj (hOne.symm.trans hLong))
  obtain ⟨-, rfl⟩ := Prod.mk.inj (Except.ok.inj (hNothing.symm.trans hText))
  obtain rfl := Option.some.inj hLast
  have hZero : announcedCount nothingChunk = .ok (some 0) := by decide +kernel
  obtain rfl := Option.some.inj (Except.ok.inj (hZero.symm.trans hAnnounced))
  rw [textCount, if_pos rfl]
  refine ⟨Outcome.defined_ok _, fun asked hAsked => ?_⟩
  exact ⟨(Except.ok.inj hAsked).symm, by decide⟩

end Payloads

end Wwatp
