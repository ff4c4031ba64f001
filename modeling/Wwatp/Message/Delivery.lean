import Wwatp.Message.Awaited
import Wwatp.Message.Completion

/-! A message that is sent in chunks is complete with its last chunk and not before, and then says what was
encoded. -/
namespace Wwatp

open Cxx Cxx.Reader

/-- A node that the codecs carry: its text reads back, the last chunk of the text holds the whole count of its
property chunks, and this is a `size_t`. -/
structure TreeNode.Sendable (node : TreeNode) : Prop where
  reads : node.TextRoundTrips
  decodable : Decodable (some node)
  count : node.propertyData.chunks.length < 2 ^ 64

section Sendable

variable {requestId : UInt16} {signal : UInt8}

theorem TreeNode.Sendable.roundTrips {node : TreeNode} (h : node.Sendable) :
    (maybeTreeNodeCodec requestId signal).RoundTrips SameMaybeNode (some node) := by
  obtain ⟨text, hText, hRead⟩ := h.reads
  have hFull := maybeTreeNodeText_some hText
  have hDecodable := (h.decodable _ hFull).resolve_left (Option.some_ne_none node)
  exact maybeTreeNodeCodec_roundTrips_of_decodable requestId signal hText hRead hFull h.count hDecodable

theorem roundTrips_of_sendable {mnode : Option TreeNode} (h : ∀ node ∈ mnode.toList, node.Sendable) :
    (maybeTreeNodeCodec requestId signal).RoundTrips SameMaybeNode mnode := by
  cases mnode with
  | none => exact maybeTreeNodeCodec_roundTrips_none requestId signal
  | some node => exact (h node List.mem_cons_self).roundTrips

theorem decodable_of_sendable {mnode : Option TreeNode} (h : ∀ node ∈ mnode.toList, node.Sendable) : Decodable mnode := by
  cases mnode with
  | none => exact fun _ _ => .inl rfl
  | some node => exact (h node List.mem_cons_self).decodable

/-- A value that round-trips is decoded from its own chunks. -/
theorem Codec.RoundTrips.decode_all {α : Type} {codec : Codec α} {same : α → α → Prop} {a : α}
    (h : codec.RoundTrips same a) {chunks : List SharedSpan} (hEncode : codec.encode a = .ok chunks)
    (hSize : chunks.length < 2 ^ 64) : ∃ b, codec.decode chunks = .ok (chunks.length, b) ∧ same b a := by
  obtain ⟨found, hFound, hAll⟩ := h
  obtain rfl := Except.ok.inj (hEncode.symm.trans hFound)
  obtain ⟨-, b, hDecode, hSame⟩ := hAll [] [] (by simpa using hSize)
  refine ⟨b, ?_, hSame⟩
  simpa using hDecode

end Sendable

namespace HelperCall

variable {requestId : UInt16} {signal : UInt8} {call : HelperCall} {chunks : List SharedSpan}

/-- The end of the chunks is found when they are all there, and waited for before. -/
structure Framed (call : HelperCall) (chunks : List SharedSpan) : Prop where
  ends : ∀ front back : List SharedSpan, (front ++ chunks ++ back).length < 2 ^ 64 →
    call.decoder.canDecode front.length (front ++ chunks ++ back) = .ok (some (front.length + chunks.length))
  awaits : ∀ (front : List SharedSpan) (k : ℕ), k < chunks.length → (front ++ chunks).length < 2 ^ 64 →
    call.decoder.canDecode front.length (front ++ chunks.take k) = .ok none

theorem framed_of_codec {α : Type} {codec : Codec α} {same : α → α → Prop} {a : α}
    (hCodec : codec.canDecode = call.decoder.canDecode) (hRound : codec.RoundTrips same a) (hAwaits : codec.Awaits a)
    (hEncode : codec.encode a = .ok chunks) : call.Framed chunks where
  ends := by
    intro front back hSize
    obtain ⟨found, hFound, hAll⟩ := hRound
    obtain rfl := Except.ok.inj (hEncode.symm.trans hFound)
    rw [← hCodec]
    exact (hAll front back hSize).1
  awaits := by
    rw [← hCodec]
    exact hAwaits chunks hEncode

section Changes

variable {sub : SubTransaction} {t : Transaction} {notifications : List SequentialNotification}

theorem roundTrips_changes (hHeaders : ∀ header ∈ (subTransaction sub).headers, header.length ≤ 1186)
    (hNodes : ∀ node ∈ (subTransaction sub).nodes, node.Sendable) :
    ∀ v ∈ sub.changes, (newNodeVersionCodec requestId signal).RoundTrips SameNewNodeVersion v := fun _ hv =>
  newNodeVersion_roundTrips
    (roundTrips_of_sendable fun node hNode => hNodes node (nodes_subset_of_change hv hNode))
    (hHeaders _ (List.mem_map_of_mem hv))

theorem awaits_changes (hHeaders : ∀ header ∈ (subTransaction sub).headers, header.length ≤ 1186)
    (hNodes : ∀ node ∈ (subTransaction sub).nodes, node.Sendable) :
    ∀ v ∈ sub.changes, (newNodeVersionCodec requestId signal).Awaits v := fun _ hv =>
  newNodeVersion_awaits requestId signal
    (decodable_of_sendable fun node hNode => hNodes node (nodes_subset_of_change hv hNode))
    (hHeaders _ (List.mem_map_of_mem hv))

/-- The changes of a transaction that is sent are carried by the codecs. -/
theorem carried_change (hHeaders : ∀ header ∈ (subTransaction sub).headers, header.length ≤ 1186)
    (hNodes : ∀ node ∈ (subTransaction sub).nodes, node.Sendable) {v : NewNodeVersion} (hv : v ∈ sub.changes) :
    Carried requestId signal v.node v.labelRule where
  node := roundTrips_of_sendable fun node hNode => hNodes node (nodes_subset_of_change hv hNode)
  label := by
    have hFits := hHeaders _ (List.mem_map_of_mem hv)
    rw [newNodeVersionText, List.length_append] at hFits
    omega

theorem roundTrips_subTransaction (hHeaders : ∀ header ∈ (subTransaction sub).headers, header.length ≤ 1186)
    (hNodes : ∀ node ∈ (subTransaction sub).nodes, node.Sendable) (hCount : sub.descendants.length < 2 ^ 64) :
    (subTransactionCodec requestId signal).RoundTrips SameSubTransaction sub :=
  (subTransactionCodec_roundTripsWhen requestId signal (fun _ hv => carried_change hHeaders hNodes hv) hCount).sufficient
    fun _ hv => hHeaders _ (List.mem_map_of_mem hv)

theorem roundTrips_transaction (hHeaders : ∀ header ∈ (transaction t).headers, header.length ≤ 1186)
    (hNodes : ∀ node ∈ (transaction t).nodes, node.Sendable) (hCount : (transaction t).Countable) :
    (transactionCodec requestId signal).RoundTrips SameTransaction t := by
  have hPart {sub : SubTransaction} (hSub : sub ∈ t) : ∀ header ∈ (subTransaction sub).headers, header.length ≤ 1186 :=
    fun header hHeader => hHeaders header (headers_subset_of_mem hSub hHeader)
  refine (transactionCodec_roundTripsWhen requestId signal (fun sub hSub v hv => ?_) hCount.2 hCount.1).sufficient
    fun sub hSub v hv => hPart hSub _ (List.mem_map_of_mem hv)
  exact carried_change (hPart hSub) (fun node hNode => hNodes node (nodes_subset_of_mem hSub hNode)) hv

theorem roundTrips_notifications (hHeaders : ∀ header ∈ (vectorSequentialNotification notifications).headers, header.length ≤ 1186)
    (hNodes : ∀ node ∈ (vectorSequentialNotification notifications).nodes, node.Sendable)
    (hCount : notifications.length < 2 ^ 64) : (vectorSequentialNotificationCodec requestId signal).RoundTrips
      (List.Forall₂ SameSequentialNotification) notifications := by
  refine (vectorSequentialNotificationCodec_roundTripsWhen requestId signal (fun n hn => ⟨?_, ?_⟩) hCount).sufficient
    fun n hn => hHeaders _ (List.mem_map_of_mem hn)
  · exact roundTrips_of_sendable fun node hNode => hNodes node (nodes_subset_of_notification hn hNode)
  · have hFits := hHeaders _ (List.mem_map_of_mem hn)
    rw [notificationText, List.length_append] at hFits
    omega

end Changes

/-- The chunks of a helper whose headers are short and whose nodes can be sent. -/
theorem framed (hText : ∀ s, call ≠ .longString s) (hHeaders : ∀ header ∈ call.headers, header.length ≤ 1186)
    (hNodes : ∀ node ∈ call.nodes, node.Sendable) (hEncode : call.encode requestId signal = .ok chunks)
    (hSize : chunks.length < 2 ^ 64) : call.Framed chunks := by
  have hCount := countable_of_encode hEncode hSize
  cases call with
  | label s =>
      rw [HelperCall.encode, encodeLabel] at hEncode
      split_ifs at hEncode with hFits
      obtain rfl := Except.ok.inj hEncode
      constructor
      · intro front back _
        refine canDecodeLabel_payloadSpan requestId signal (Nat.not_lt.mp hFits) ?_
        rw [List.append_assoc, List.getElem?_append_right (Nat.le_refl _), Nat.sub_self]
        rfl
      · intro front k hk _
        rw [Nat.lt_one_iff.mp hk, List.take_zero, List.append_nil]
        exact canDecodeLabel_length front
  | longString s => exact absurd rfl (hText s)
  | maybeTreeNode mnode =>
      exact framed_of_codec (rfl : (maybeTreeNodeCodec requestId signal).canDecode = _) (roundTrips_of_sendable hNodes)
        (maybeTreeNode_awaits requestId signal (decodable_of_sendable hNodes)) hEncode
  | sequentialNotification n =>
      exact framed_of_codec (rfl : (sequentialNotificationCodec requestId signal).canDecode = _)
        (sequentialNotification_roundTrips (roundTrips_of_sendable hNodes) (hHeaders _ List.mem_cons_self))
        (sequentialNotification_awaits requestId signal (decodable_of_sendable hNodes) (hHeaders _ List.mem_cons_self)) hEncode
  | newNodeVersion v =>
      exact framed_of_codec (rfl : (newNodeVersionCodec requestId signal).canDecode = _)
        (newNodeVersion_roundTrips (roundTrips_of_sendable hNodes) (hHeaders _ List.mem_cons_self))
        (newNodeVersion_awaits requestId signal (decodable_of_sendable hNodes) (hHeaders _ List.mem_cons_self)) hEncode
  | subTransaction sub =>
      exact framed_of_codec (rfl : (subTransactionCodec requestId signal).canDecode = _)
        (roundTrips_subTransaction hHeaders hNodes hCount)
        (subTransaction_awaits requestId signal hCount (roundTrips_changes hHeaders hNodes) (awaits_changes hHeaders hNodes))
        hEncode
  | vectorSequentialNotification notifications =>
      have hMember {n : SequentialNotification} (hn : n ∈ notifications) : ∀ node ∈ n.node.toList, node.Sendable :=
        fun node hNode => hNodes node (nodes_subset_of_notification hn hNode)
      exact framed_of_codec (rfl : (vectorSequentialNotificationCodec requestId signal).canDecode = _)
        (roundTrips_notifications hHeaders hNodes hCount)
        (vectorSequentialNotification_awaits requestId signal hCount
          (fun n hn => sequentialNotification_roundTrips (roundTrips_of_sendable (hMember hn))
            (hHeaders _ (List.mem_map_of_mem hn)))
          (fun n hn => sequentialNotification_awaits requestId signal (decodable_of_sendable (hMember hn))
            (hHeaders _ (List.mem_map_of_mem hn)))) hEncode
  | transaction t =>
      have hPart {sub : SubTransaction} (hSub : sub ∈ t) : ∀ header ∈ (subTransaction sub).headers, header.length ≤ 1186 :=
        fun header hHeader => hHeaders header (headers_subset_of_mem hSub hHeader)
      have hMember {sub : SubTransaction} (hSub : sub ∈ t) : ∀ node ∈ (subTransaction sub).nodes, node.Sendable :=
        fun node hNode => hNodes node (nodes_subset_of_mem hSub hNode)
      exact framed_of_codec (rfl : (transactionCodec requestId signal).canDecode = _)
        (roundTrips_transaction hHeaders hNodes hCount)
        (transaction_awaits requestId signal hCount.1
          (fun sub hSub => roundTrips_subTransaction (hPart hSub) (hMember hSub) (hCount.2 sub hSub))
          (fun sub hSub => subTransaction_awaits requestId signal (hCount.2 sub hSub)
            (roundTrips_changes (hPart hSub) (hMember hSub)) (awaits_changes (hPart hSub) (hMember hSub)))) hEncode
  | vectorTreeNode nodes =>
      exact framed_of_codec (rfl : (vectorTreeNodeCodec requestId signal).canDecode = _)
        (vectorTreeNode_roundTrips requestId signal hCount fun node hNode => (hNodes node hNode).roundTrips)
        (vectorTreeNode_awaits requestId signal hCount (fun node hNode => (hNodes node hNode).roundTrips)
          fun node hNode => (hNodes node hNode).decodable) hEncode

end HelperCall

section Words

/-- A word that may be empty is read up to the white space behind it. -/
theorem spacedWord_bind {α : Type} {f : Str → Reader α} {w tail : Str} (hWord : ∀ b ∈ w, isSpace b = false)
    (hTail : BlankFirst tail) :
    (peekIsSpace >>= fun space => if space then pure [] >>= f else word [] >>= f) (.ofStr (w ++ tail)) =
      f w (.ofStr tail) := by
  obtain ⟨c, rest, rfl, hc⟩ := hTail.exists_cons
  cases w with
  | nil =>
      have hPeek : peekIsSpace (.ofStr ([] ++ c :: rest)) = .ok (true, .ofStr (c :: rest)) := by
        rw [peekIsSpace, List.nil_append, Reader.bind_ok (peek_ofStr c rest), ← hc]
        rfl
      rw [Reader.bind_ok hPeek]
      rfl
  | cons b more =>
      have hb := hWord b List.mem_cons_self
      have hPeek : peekIsSpace (.ofStr (b :: more ++ c :: rest)) = .ok (false, .ofStr (b :: more ++ c :: rest)) := by
        rw [peekIsSpace, List.cons_append, Reader.bind_ok (peek_ofStr b _), ← hb]
        rfl
      have hRead : word [] (.ofStr (b :: more ++ c :: rest)) = .ok (b :: more, .ofStr (c :: rest)) :=
        word_ofStr [] (List.forall_mem_nil _) (List.cons_ne_nil b more) hWord hc
      rw [Reader.bind_ok hPeek]
      exact Reader.bind_ok hRead

/-- A text without white space is one word, also when it is empty. -/
theorem word_all {w : Str} (hWord : ∀ b ∈ w, isSpace b = false) : ∃ s, word [] (.ofStr w) = .ok (w, s) := by
  cases w with
  | nil => exact ⟨_, rfl⟩
  | cons b more =>
      have hb := hWord b List.mem_cons_self
      obtain ⟨s, hRead⟩ := word_eq [] ⟨b, List.mem_cons_self, hb⟩
      have hAll : (b :: more).takeWhile (!isSpace ·) = b :: more := by
        rw [List.takeWhile_eq_self_iff]
        exact fun a ha => by rw [hWord a ha]; rfl
      rw [List.dropWhile_cons_of_neg (by simp [hb]), hAll] at hRead
      exact ⟨s, hRead⟩

theorem readBool_boolText (b : Bool) : ∃ s, readBool (.ofStr (boolText b)) = .ok (some b, s) := by
  cases b <;> exact ⟨_, rfl⟩

theorem readFrom_readListener {listenerName labelRule : Str} (childNotify : Bool)
    (hName : ∀ b ∈ listenerName, isSpace b = false) (hLabel : ∀ b ∈ labelRule, isSpace b = false) :
    readFrom readListener (listenerName ++ str " " ++ labelRule ++ str " " ++ boolText childNotify) =
      .ok (listenerName, labelRule, some childNotify) := by
  obtain ⟨s, hBool⟩ := readBool_boolText childNotify
  have hSpace : str " " = [chr ' '] := rfl
  have hText : listenerName ++ str " " ++ labelRule ++ str " " ++ boolText childNotify =
      listenerName ++ chr ' ' :: (labelRule ++ chr ' ' :: boolText childNotify) := by
    simp only [hSpace, List.append_assoc, List.cons_append, List.nil_append]
  have hListener : readListener (.ofStr (listenerName ++ chr ' ' :: (labelRule ++ chr ' ' :: boolText childNotify))) =
      .ok ((listenerName, labelRule, some childNotify), s) := by
    refine (spacedWord_bind hName (by rfl)).trans ?_
    refine (Reader.bind_ok (get_ofStr _ _)).trans ?_
    refine (spacedWord_bind hLabel (by rfl)).trans ?_
    refine (Reader.bind_ok (get_ofStr _ _)).trans ?_
    exact Reader.bind_ok hBool
  rw [readFrom, hText, hListener]
  rfl

theorem readFrom_eq {α : Type} {r : Reader α} {text : Str} {a : α} {s : IStream} (h : r (.ofStr text) = .ok (a, s)) :
    readFrom r text = .ok a := by
  rw [readFrom, h]
  rfl

end Words

namespace MessageCall

section Pushing

variable {requestId : UInt16} {call : MessageCall} {m after : HTTP3TreeMessage} {chunk : SharedSpan}
  {chunks front back : List SharedSpan} {n : ℕ}

theorem getSignalSignal_of_encodedFor {signal : UInt8} (h : EncodedFor requestId signal chunks) (hMem : chunk ∈ chunks) :
    chunk.signalType = 2 ∧ chunk.getSignalSignal = .ok signal ∧ chunk.getRequestId = .ok requestId := by
  obtain ⟨dataLength, data, rfl⟩ := h chunk hMem
  exact ⟨rfl, SharedSpan.getSignalSignal_ofSignal _ _, SharedSpan.getRequestId_ofSignal _ _⟩

/-- A chunk of the message is kept, and the message is complete when `can_decode` finds an end. -/
structure Pushes (call : MessageCall) (m : HTTP3TreeMessage) (chunk : SharedSpan) (found : Option ℕ)
    (after : HTTP3TreeMessage) : Prop where
  chunks : call.chunksIn after = call.chunksIn m ++ [chunk]
  complete : call.isComplete after = (call.isComplete m || found.isSome)

/-- Pushing fails only when `can_decode` does. -/
theorem push_singleton (h : EncodedFor requestId call.signal [chunk]) :
    (∀ found, call.canDecode (call.chunksIn m ++ [chunk]) = .ok found →
      ∃ after, call.push m [chunk] = .ok after ∧ call.Pushes m chunk found after) ∧
    ∀ after, call.push m [chunk] = .ok after →
      ∃ found, call.canDecode (call.chunksIn m ++ [chunk]) = .ok found ∧ call.Pushes m chunk found after := by
  obtain ⟨hType, hSignal, hId⟩ := getSignalSignal_of_encodedFor h List.mem_cons_self
  cases hRequest : call.isRequest with
  | true =>
      simp only [push, canDecode, chunksIn, hRequest, if_true, HTTP3TreeMessage.pushRequestChunks,
        HTTP3TreeMessage.pushRequestChunk, hSignal, Outcome.ok_bind, HTTP3TreeMessage.adoptRequestId, hId]
      split_ifs
      all_goals
        simp only [Outcome.ok_bind, Outcome.pure_eq_ok]
        constructor
        · intro found hFound
          rw [hFound]
          refine ⟨_, rfl, ?_, ?_⟩
          all_goals cases found <;> simp [chunksIn, isComplete, hRequest]
        · intro after hAfter
          obtain ⟨pushed, hPushed, hAfter⟩ := Outcome.bind_eq_ok.mp hAfter
          obtain ⟨found, hFound, hPushed⟩ := Outcome.bind_eq_ok.mp hPushed
          obtain rfl := Except.ok.inj hAfter
          obtain rfl := Except.ok.inj hPushed
          refine ⟨found, hFound, ?_, ?_⟩
          all_goals cases found <;> simp [chunksIn, isComplete, hRequest]
  | false =>
      have hZero : ¬chunk.signalType = 0 := by rw [hType]; decide
      have hOne : ¬chunk.signalType = 1 := by rw [hType]; decide
      simp only [push, canDecode, chunksIn, hRequest, Bool.false_eq_true, if_false, HTTP3TreeMessage.pushResponseChunks,
        HTTP3TreeMessage.pushResponseChunk, hSignal, Outcome.ok_bind, if_neg hZero, if_neg hOne]
      constructor
      · intro found hFound
        rw [hFound]
        refine ⟨_, rfl, ?_, ?_⟩
        all_goals cases found <;> simp [chunksIn, isComplete, hRequest]
      · intro after hAfter
        obtain ⟨pushed, hPushed, hAfter⟩ := Outcome.bind_eq_ok.mp hAfter
        obtain ⟨found, hFound, hPushed⟩ := Outcome.bind_eq_ok.mp hPushed
        obtain rfl := Except.ok.inj hAfter
        obtain rfl := Except.ok.inj hPushed
        refine ⟨found, hFound, ?_, ?_⟩
        all_goals cases found <;> simp [chunksIn, isComplete, hRequest]

theorem push_cons (call : MessageCall) (m : HTTP3TreeMessage) (chunk : SharedSpan) (rest : List SharedSpan) :
    call.push m (chunk :: rest) = call.push m [chunk] >>= fun next => call.push next rest := by
  cases hRequest : call.isRequest with
  | true => simp [push, hRequest, HTTP3TreeMessage.pushRequestChunks]
  | false => simp [push, hRequest, HTTP3TreeMessage.pushResponseChunks]

theorem push_append (call : MessageCall) (m : HTTP3TreeMessage) (front back : List SharedSpan) :
    call.push m (front ++ back) = call.push m front >>= fun next => call.push next back := by
  induction front generalizing m with
  | nil => cases hRequest : call.isRequest <;>
      simp [push, hRequest, HTTP3TreeMessage.pushRequestChunks, HTTP3TreeMessage.pushResponseChunks]
  | cons chunk rest ih =>
      rw [List.cons_append, push_cons, push_cons call m chunk rest, bind_assoc]
      congr 1
      funext next
      exact ih next

/-- As long as no end is found, the chunks are kept and the message stays open. -/
theorem push_open (hEncoded : EncodedFor requestId call.signal front) (hOpen : call.isComplete m = false)
    (hNot : ∀ part, part <+: front → part ≠ [] → ∀ n, call.canDecode (call.chunksIn m ++ part) ≠ .ok (some n))
    (hPush : call.push m front = .ok after) :
    call.chunksIn after = call.chunksIn m ++ front ∧ call.isComplete after = false := by
  induction front generalizing m with
  | nil =>
      have hSame : call.push m [] = .ok m := by
        cases hRequest : call.isRequest <;>
          simp [push, hRequest, HTTP3TreeMessage.pushRequestChunks, HTTP3TreeMessage.pushResponseChunks]
      obtain rfl := Except.ok.inj (hSame.symm.trans hPush)
      exact ⟨(List.append_nil _).symm, hOpen⟩
  | cons chunk rest ih =>
      rw [push_cons] at hPush
      obtain ⟨next, hNext, hRest⟩ := Outcome.bind_eq_ok.mp hPush
      have hChunk : EncodedFor requestId call.signal [chunk] :=
        fun s hs => hEncoded s (List.mem_cons.mpr (.inl (List.mem_singleton.mp hs)))
      obtain ⟨found, hFound, hPushes⟩ := (push_singleton hChunk).2 next hNext
      have hNone : found = none := by
        cases found with
        | none => rfl
        | some n => exact absurd hFound (hNot [chunk] (List.prefix_append [chunk] rest) (List.cons_ne_nil _ _) n)
      have hStill : call.isComplete next = false := by
        rw [hPushes.complete, hOpen, hNone]
        rfl
      have hLater : ∀ part, part <+: rest → part ≠ [] →
          ∀ n, call.canDecode (call.chunksIn next ++ part) ≠ .ok (some n) := by
        intro part hPart hNe n
        rw [hPushes.chunks, List.append_assoc]
        exact hNot (chunk :: part) (List.cons_prefix_cons.mpr ⟨rfl, hPart⟩) (List.cons_ne_nil _ _) n
      have hMore := ih (fun s hs => hEncoded s (List.mem_cons_of_mem _ hs)) hStill hLater hRest
      rw [hPushes.chunks, List.append_assoc] at hMore
      exact hMore

/-- Chunks that `can_decode` only waits behind can all be pushed. -/
theorem push_returns (hEncoded : EncodedFor requestId call.signal front)
    (hAwaits : ∀ part, part <+: front → part ≠ [] → call.canDecode (call.chunksIn m ++ part) = .ok none) :
    ∃ after, call.push m front = .ok after := by
  induction front generalizing m with
  | nil =>
      refine ⟨m, ?_⟩
      cases hRequest : call.isRequest <;>
        simp [push, hRequest, HTTP3TreeMessage.pushRequestChunks, HTTP3TreeMessage.pushResponseChunks]
  | cons chunk rest ih =>
      have hChunk : EncodedFor requestId call.signal [chunk] :=
        fun s hs => hEncoded s (List.mem_cons.mpr (.inl (List.mem_singleton.mp hs)))
      have hHere := hAwaits [chunk] (List.prefix_append [chunk] rest) (List.cons_ne_nil _ _)
      obtain ⟨next, hNext, hPushes⟩ := (push_singleton hChunk).1 none hHere
      have hLater : ∀ part, part <+: rest → part ≠ [] → call.canDecode (call.chunksIn next ++ part) = .ok none := by
        intro part hPart hNe
        rw [hPushes.chunks, List.append_assoc]
        exact hAwaits (chunk :: part) (List.cons_prefix_cons.mpr ⟨rfl, hPart⟩) (List.cons_ne_nil _ _)
      obtain ⟨after, hAfter⟩ := ih (fun s hs => hEncoded s (List.mem_cons_of_mem _ hs)) hLater
      exact ⟨after, by rw [push_cons, hNext, Outcome.ok_bind, hAfter]⟩

end Pushing

/-- The labels and names between spaces have none, every text in front of a node fits into its chunk, and the nodes can
be sent. -/
structure Deliverable (call : MessageCall) : Prop where
  words : ∀ w ∈ call.words, ∀ b ∈ w, isSpace b = false
  headers : ∀ header ∈ call.headers, header.length ≤ 1186
  nodes : ∀ node ∈ call.nodes, node.Sendable

section Arrival

variable {requestId : UInt16} {call : MessageCall} {m after : HTTP3TreeMessage} {chunks front back : List SharedSpan}

theorem framed_of_helper {helper : HelperCall} (hHelper : call.helpers = [helper]) (h : call.Deliverable)
    (hEncode : call.encode requestId = .ok chunks) (hSize : chunks.length < 2 ^ 64) : helper.Framed chunks := by
  have hHeaders : call.headers = helper.headers := by simp [headers, hHelper]
  have hNodes : call.nodes = helper.nodes := by simp [nodes, hHelper]
  have hText : ∀ s, helper ≠ .longString s := by
    rintro s rfl
    cases call <;> simp [helpers] at hHelper
  rw [encode_of_helper hHelper] at hEncode
  exact HelperCall.framed hText (hHeaders ▸ h.headers) (hNodes ▸ h.nodes) hEncode hSize

/-- The chunks of a notification: the one of its label, and those of its node. -/
theorem encode_notifyListeners {labelRule : Str} {node : Option TreeNode}
    (h : (notifyListenersRequest labelRule node).encode requestId = .ok chunks) :
    ∃ nodeChunks, chunks = payloadSpan requestId 0x1D labelRule :: nodeChunks ∧ labelRule.length ≤ maxPayload ∧
      encodeMaybeTreeNode requestId 0x1D node = .ok nodeChunks := by
  simp only [encode, helpers, encodeEach, Outcome.bind_eq_ok, Outcome.pure_eq_ok, Except.ok.injEq] at h
  obtain ⟨label, hLabel, more, ⟨nodeChunks, hNode, _, rfl, rfl⟩, rfl⟩ := h
  rw [HelperCall.encode, encodeLabel] at hLabel
  split_ifs at hLabel with hFits
  obtain rfl := Except.ok.inj hLabel
  exact ⟨nodeChunks, by rw [List.append_nil]; rfl, Nat.not_lt.mp hFits, hNode⟩

theorem canDecode_nil (call : MessageCall) : call.canDecode [] = .ok none := by
  rcases helpers_cases call with ⟨helper, hHelper⟩ | ⟨labelRule, node, rfl⟩
  · rw [canDecode_of_helper hHelper]
    cases helper <;> rfl
  · rfl

/-- `can_decode` finds the end of a message when its chunks are all there, and waits for them before. -/
theorem canDecode_framed (h : call.Deliverable) (hEncode : call.encode requestId = .ok chunks)
    (hSize : chunks.length < 2 ^ 64) : call.canDecode chunks = .ok (some chunks.length) ∧
      ∀ k, k < chunks.length → call.canDecode (chunks.take k) = .ok none := by
  rcases helpers_cases call with ⟨helper, hHelper⟩ | ⟨labelRule, node, rfl⟩
  · have hFramed := framed_of_helper hHelper h hEncode hSize
    have hEnds := hFramed.ends [] [] (by simpa using hSize)
    simp only [canDecode_of_helper hHelper]
    refine ⟨by simpa using hEnds, fun k hk => ?_⟩
    have hAwaits := hFramed.awaits [] k hk (by simpa using hSize)
    simpa using hAwaits
  · obtain ⟨nodeChunks, rfl, hFits, hNode⟩ := encode_notifyListeners hEncode
    have hFramed : (HelperCall.maybeTreeNode node).Framed nodeChunks := by
      have hNode' : HelperCall.encode requestId 0x1D (.maybeTreeNode node) = .ok nodeChunks := hNode
      refine HelperCall.framed (fun _ hNot => by cases hNot) (List.forall_mem_nil _) (fun n hn => h.nodes n ?_) hNode' ?_
      · simpa [nodes, helpers, HelperCall.nodes] using hn
      · simp only [List.length_cons] at hSize
        omega
    have hLabel (rest : List SharedSpan) : canDecodeLabel 0 (payloadSpan requestId 0x1D labelRule :: rest) = .ok (some 1) :=
      canDecodeLabel_payloadSpan requestId 0x1D hFits rfl
    constructor
    · rw [canDecode_notifyListeners, hLabel, Outcome.ok_bind]
      have hEnds := hFramed.ends [payloadSpan requestId 0x1D labelRule] [] (by simpa using hSize)
      rw [List.append_nil, List.length_singleton, Nat.add_comm] at hEnds
      exact hEnds
    · intro k hk
      rw [canDecode_notifyListeners]
      cases k with
      | zero => rfl
      | succ k =>
          rw [List.take_succ_cons, hLabel, Outcome.ok_bind]
          exact hFramed.awaits [payloadSpan requestId 0x1D labelRule] k (by simpa using hk) (by simpa using hSize)

/-- The chunks of a message can be pushed one after another, and the message is complete with the last of them. -/
theorem push_completes (h : call.Deliverable) (hEncode : call.encode requestId = .ok chunks)
    (hSize : chunks.length < 2 ^ 64) (hEmpty : call.chunksIn m = []) (hOpen : call.isComplete m = false) :
    (∀ front back, front ++ back = chunks → back ≠ [] →
      ∃ after, call.push m front = .ok after ∧ call.chunksIn after = front ∧ call.isComplete after = false) ∧
    ∃ after, call.push m chunks = .ok after ∧ call.chunksIn after = chunks ∧ call.isComplete after = true := by
  have hEncoded := call.encode_encodedFor hEncode
  obtain ⟨hAll, hAwaits⟩ := canDecode_framed h hEncode hSize
  have hPart : ∀ front back, front ++ back = chunks → back ≠ [] →
      ∃ after, call.push m front = .ok after ∧ call.chunksIn after = front ∧ call.isComplete after = false := by
    intro front back hSplit hMore
    have hWait : ∀ part, part <+: front → part ≠ [] → call.canDecode (call.chunksIn m ++ part) = .ok none := by
      intro part hPrefix _
      have hLess : part.length < chunks.length := by
        have hLe := hPrefix.length_le
        have hPos := List.length_pos_iff.mpr hMore
        rw [← hSplit, List.length_append]
        omega
      have hTake : part = chunks.take part.length := by
        rw [← hSplit]
        exact List.prefix_iff_eq_take.mp (hPrefix.trans (List.prefix_append front back))
      rw [hEmpty, List.nil_append, hTake]
      exact hAwaits part.length hLess
    have hFront : EncodedFor requestId call.signal front :=
      fun s hs => hEncoded s (hSplit ▸ List.mem_append_left back hs)
    obtain ⟨after, hAfter⟩ := push_returns hFront hWait
    obtain ⟨hChunks, hStill⟩ := push_open hFront hOpen (fun part hPrefix hNe n => by
      rw [hWait part hPrefix hNe]
      simp) hAfter
    rw [hEmpty, List.nil_append] at hChunks
    exact ⟨after, hAfter, hChunks, hStill⟩
  refine ⟨hPart, ?_⟩
  have hNe : chunks ≠ [] := by
    rintro rfl
    rw [canDecode_nil] at hAll
    cases hAll
  obtain ⟨next, hNext, hChunks, hStill⟩ := hPart chunks.dropLast [chunks.getLast hNe]
    (List.dropLast_append_getLast hNe) (List.cons_ne_nil _ _)
  have hLast : EncodedFor requestId call.signal [chunks.getLast hNe] :=
    fun s hs => hEncoded s (List.mem_singleton.mp hs ▸ List.getLast_mem hNe)
  have hFound : call.canDecode (call.chunksIn next ++ [chunks.getLast hNe]) = .ok (some chunks.length) := by
    rw [hChunks, List.dropLast_append_getLast hNe]
    exact hAll
  obtain ⟨after, hAfter, hPushes⟩ := (push_singleton hLast).1 _ hFound
  refine ⟨after, ?_, ?_, ?_⟩
  · rw [← List.dropLast_append_getLast hNe, push_append, hNext, Outcome.ok_bind, hAfter]
  · rw [hPushes.chunks, hChunks, List.dropLast_append_getLast hNe]
  · rw [hPushes.complete, hStill]
    rfl

/-- What the codecs of a call's helpers give back. -/
theorem encode_label {s : Str} (hHelper : call.helpers = [.label s]) (hEncode : call.encode requestId = .ok chunks) :
    decodeLabel chunks = .ok (1, s) := by
  rw [encode_of_helper hHelper, HelperCall.encode, encodeLabel] at hEncode
  split_ifs at hEncode
  obtain rfl := Except.ok.inj hEncode
  rw [decodeLabel, bytes_payloadSpan]

theorem decodeFlag_encode {success : Bool} (hHelper : call.helpers = [.label (boolText success)])
    (hEncode : call.encode requestId = .ok chunks) : HTTP3TreeMessage.decodeFlag chunks = .ok (1, success) := by
  obtain ⟨s, hBool⟩ := readBool_boolText success
  have hFlag : readFrom readBool (boolText success) = .ok (some success) := by
    rw [readFrom, hBool]
    rfl
  simp only [HTTP3TreeMessage.decodeFlag, encode_label hHelper hEncode, Outcome.ok_bind, hFlag]
  rfl

theorem decodeMaybeTreeNode_encode {node : Option TreeNode} (hHelper : call.helpers = [.maybeTreeNode node])
    (h : call.Deliverable) (hEncode : call.encode requestId = .ok chunks) (hSize : chunks.length < 2 ^ 64) :
    ∃ found, decodeMaybeTreeNode chunks = .ok (chunks.length, found) ∧ SameMaybeNode found node := by
  have hNodes : call.nodes = node.toList := by simp [nodes, hHelper, HelperCall.nodes]
  rw [encode_of_helper hHelper] at hEncode
  have hRound : (maybeTreeNodeCodec requestId call.signal).RoundTrips SameMaybeNode node :=
    roundTrips_of_sendable (hNodes ▸ h.nodes)
  exact hRound.decode_all hEncode hSize

theorem decodeVectorTreeNode_encode {nodes : List TreeNode} (hHelper : call.helpers = [.vectorTreeNode nodes])
    (h : call.Deliverable) (hEncode : call.encode requestId = .ok chunks) (hSize : chunks.length < 2 ^ 64) :
    ∃ found, decodeVectorTreeNode chunks = .ok (chunks.length, found) ∧ List.Forall₂ TreeNode.SameNode found nodes := by
  have hNodes : call.nodes = nodes := by simp [MessageCall.nodes, hHelper, HelperCall.nodes]
  rw [encode_of_helper hHelper] at hEncode
  have hCount := HelperCall.countable_of_encode hEncode hSize
  have hRound := vectorTreeNode_roundTrips requestId call.signal hCount fun node hNode =>
    (h.nodes node (hNodes ▸ hNode)).roundTrips
  exact hRound.decode_all hEncode hSize

theorem decodeTransaction_encode {t : Transaction} (hHelper : call.helpers = [.transaction t])
    (h : call.Deliverable) (hEncode : call.encode requestId = .ok chunks) (hSize : chunks.length < 2 ^ 64) :
    ∃ found, decodeTransaction chunks = .ok (chunks.length, found) ∧ SameTransaction found t := by
  have hNodes : call.nodes = (HelperCall.transaction t).nodes := by simp [nodes, hHelper]
  have hHeaders : call.headers = (HelperCall.transaction t).headers := by simp [headers, hHelper]
  rw [encode_of_helper hHelper] at hEncode
  have hCount := HelperCall.countable_of_encode hEncode hSize
  have hRound : (transactionCodec requestId call.signal).RoundTrips SameTransaction t :=
    HelperCall.roundTrips_transaction (hHeaders ▸ h.headers) (hNodes ▸ h.nodes) hCount
  exact hRound.decode_all hEncode hSize

theorem decodeNotifications_encode {notifications : List SequentialNotification}
    (hHelper : call.helpers = [.vectorSequentialNotification notifications])
    (h : call.Deliverable) (hEncode : call.encode requestId = .ok chunks) (hSize : chunks.length < 2 ^ 64) :
    ∃ found, decodeVectorSequentialNotification chunks = .ok (chunks.length, found) ∧
      List.Forall₂ SameSequentialNotification found notifications := by
  have hNodes : call.nodes = (HelperCall.vectorSequentialNotification notifications).nodes := by simp [nodes, hHelper]
  have hHeaders : call.headers = (HelperCall.vectorSequentialNotification notifications).headers := by
    simp [headers, hHelper]
  rw [encode_of_helper hHelper] at hEncode
  have hCount := HelperCall.countable_of_encode hEncode hSize
  have hRound : (vectorSequentialNotificationCodec requestId call.signal).RoundTrips
      (List.Forall₂ SameSequentialNotification) notifications :=
    HelperCall.roundTrips_notifications (hHeaders ▸ h.headers) (hNodes ▸ h.nodes) hCount
  exact hRound.decode_all hEncode hSize

theorem checkRequestComplete_eq (h : m.requestComplete = true) : m.checkRequestComplete = .ok () := by
  rw [HTTP3TreeMessage.checkRequestComplete, if_pos h]

theorem decodeResponse_eq {α : Type} {decode : List SharedSpan → Outcome (ℕ × α)} {n : ℕ} {value : α}
    (h : m.responseComplete = true) (hDecode : decode m.responseChunks = .ok (n, value)) :
    m.decodeResponse decode = .ok (value, { m with processingFinished := true }) := by
  rw [HTTP3TreeMessage.decodeResponse, HTTP3TreeMessage.checkResponseComplete, if_pos h, Outcome.ok_bind, hDecode]
  rfl

theorem decodeLabelRequest_eq {label : Str} (h : m.requestComplete = true)
    (hDecode : decodeLabel m.requestChunks = .ok (1, label)) : m.decodeLabelRequest = .ok label := by
  rw [HTTP3TreeMessage.decodeLabelRequest, checkRequestComplete_eq h, Outcome.ok_bind, hDecode]
  rfl

/-- The decode function for a message gives the arguments of the call back. -/
theorem returns_of_chunks (h : call.Deliverable) (hEncode : call.encode requestId = .ok chunks)
    (hSize : chunks.length < 2 ^ 64) (hChunks : call.chunksIn m = chunks) (hComplete : call.isComplete m = true) :
    call.Returns m := by
  cases call with
  | getNodeRequest labelRule | deleteNodeRequest labelRule | getPageTreeRequest labelRule
  | getQueryNodesRequest labelRule =>
      refine decodeLabelRequest_eq hComplete ?_
      rw [show m.requestChunks = chunks from hChunks]
      exact encode_label rfl hEncode
  | upsertNodeResponse success | deleteNodeResponse success | openTransactionLayerResponse success
  | closeTransactionLayersResponse success | applyTransactionResponse success | registerNodeListenerResponse success
  | deregisterNodeListenerResponse success | notifyListenersResponse success =>
      have hDecode := decodeFlag_encode rfl hEncode
      rw [← show m.responseChunks = chunks from hChunks] at hDecode
      exact ⟨_, decodeResponse_eq hComplete hDecode⟩
  | getNodeResponse node =>
      obtain ⟨found, hDecode, hSame⟩ := decodeMaybeTreeNode_encode rfl h hEncode hSize
      rw [← show m.responseChunks = chunks from hChunks] at hDecode
      exact ⟨found, _, decodeResponse_eq hComplete hDecode, hSame⟩
  | getPageTreeResponse nodes | getQueryNodesResponse nodes | getFullTreeResponse nodes =>
      obtain ⟨found, hDecode, hSame⟩ := decodeVectorTreeNode_encode rfl h hEncode hSize
      rw [← show m.responseChunks = chunks from hChunks] at hDecode
      exact ⟨found, _, decodeResponse_eq hComplete hDecode, hSame⟩
  | upsertNodeRequest nodes =>
      obtain ⟨found, hDecode, hSame⟩ := decodeVectorTreeNode_encode rfl h hEncode hSize
      rw [← show m.requestChunks = chunks from hChunks] at hDecode
      refine ⟨found, ?_, hSame⟩
      rw [HTTP3TreeMessage.decodeUpsertNodeRequest, checkRequestComplete_eq hComplete, Outcome.ok_bind, hDecode]
      rfl
  | openTransactionLayerRequest node =>
      obtain ⟨found, hDecode, hSame⟩ := decodeMaybeTreeNode_encode rfl h hEncode hSize
      rw [← show m.requestChunks = chunks from hChunks] at hDecode
      cases hSame with
      | some hSame =>
          refine ⟨_, ?_, hSame⟩
          rw [HTTP3TreeMessage.decodeOpenTransactionLayerRequest, checkRequestComplete_eq hComplete, Outcome.ok_bind,
            hDecode]
          rfl
  | applyTransactionRequest transaction =>
      obtain ⟨found, hDecode, hSame⟩ := decodeTransaction_encode rfl h hEncode hSize
      rw [← show m.requestChunks = chunks from hChunks] at hDecode
      refine ⟨found, ?_, hSame⟩
      rw [HTTP3TreeMessage.decodeApplyTransactionRequest, checkRequestComplete_eq hComplete, Outcome.ok_bind, hDecode]
      rfl
  | closeTransactionLayersRequest | getFullTreeRequest => trivial
  | registerNodeListenerRequest listenerName labelRule childNotify =>
      have hDecode := encode_label rfl hEncode
      rw [← show m.requestChunks = chunks from hChunks] at hDecode
      have hText := readFrom_readListener childNotify (h.words listenerName (by simp [words]))
        (h.words labelRule (by simp [words]))
      simp only [Returns, HTTP3TreeMessage.decodeRegisterNodeListenerRequest, checkRequestComplete_eq hComplete,
        Outcome.ok_bind, hDecode]
      exact hText
  | deregisterNodeListenerRequest listenerName labelRule =>
      have hDecode := encode_label rfl hEncode
      rw [← show m.requestChunks = chunks from hChunks] at hDecode
      obtain ⟨s, hLast⟩ := word_all (h.words labelRule (by simp [words]))
      have hName : ∀ b ∈ listenerName, isSpace b = false := h.words listenerName (by simp [words])
      simp only [Returns, HTTP3TreeMessage.decodeDeregisterNodeListenerRequest, checkRequestComplete_eq hComplete,
        Outcome.ok_bind, hDecode]
      have hText : listenerName ++ str " " ++ labelRule = listenerName ++ chr ' ' :: labelRule := by
        rw [List.append_assoc]
        rfl
      rw [hText]
      refine readFrom_eq (a := (listenerName, labelRule)) (s := s) ?_
      refine (spacedWord_bind hName (by rfl)).trans ?_
      refine (Reader.bind_ok (get_ofStr _ _)).trans ?_
      exact Reader.bind_ok hLast
  | notifyListenersRequest labelRule node =>
      obtain ⟨nodeChunks, rfl, -, hNode⟩ := encode_notifyListeners hEncode
      have hRound : (maybeTreeNodeCodec requestId 0x1D).RoundTrips SameMaybeNode node := by
        refine roundTrips_of_sendable fun n hn => h.nodes n ?_
        simpa [nodes, helpers, HelperCall.nodes] using hn
      have hRest : nodeChunks.length < 2 ^ 64 := by
        rw [List.length_cons] at hSize
        omega
      obtain ⟨found, hDecode, hSame⟩ := hRound.decode_all hNode hRest
      obtain ⟨s, hLast⟩ := word_all (h.words labelRule (by simp [words]))
      refine ⟨found, ?_, hSame⟩
      have hConsumed : consuming (str "Cannot decode TreeNode") decodeMaybeTreeNode nodeChunks =
          .ok (nodeChunks.length, found) := consuming_ok hDecode (encodeMaybeTreeNode_ne_nil requestId 0x1D hNode)
      simp only [HTTP3TreeMessage.decodeNotifyListenersRequest, checkRequestComplete_eq hComplete, Outcome.ok_bind,
        show m.requestChunks = _ from hChunks, decodeLabel, bytes_payloadSpan, readFrom_eq hLast, List.drop_succ_cons,
        List.drop_zero, hConsumed]
      rfl
  | processNotificationRequest => exact checkRequestComplete_eq hComplete
  | processNotificationResponse =>
      refine ⟨{ m with processingFinished := true }, ?_⟩
      have hDone : m.responseComplete = true := hComplete
      rw [HTTP3TreeMessage.decodeProcessNotificationResponse, HTTP3TreeMessage.checkResponseComplete, if_pos hDone]
      rfl
  | getJournalRequest lastNotification =>
      have hNotification : encodeSequentialNotification requestId 0x21 ⟨lastNotification.number, [], none⟩ = .ok chunks := by
        rw [← hEncode, encode_of_helper rfl]
        rfl
      have hRound : (sequentialNotificationCodec requestId 0x21).RoundTrips SameSequentialNotification
          ⟨lastNotification.number, [], none⟩ :=
        sequentialNotification_roundTrips (maybeTreeNodeCodec_roundTrips_none requestId 0x21)
          (h.headers _ (by simp [headers, helpers, HelperCall.headers]))
      obtain ⟨found, hDecode, hSame⟩ := hRound.decode_all hNotification hSize
      have hConsumed : consuming (str "Cannot decode SequentialNotification") decodeSequentialNotification chunks =
          .ok (chunks.length, found) := consuming_ok hDecode (HelperCall.encodeSequentialNotification_ne_nil hNotification)
      have hFound : found = ⟨lastNotification.number, [], none⟩ := by
        obtain ⟨number, labelRule, node⟩ := found
        obtain ⟨rfl, rfl, hNode⟩ := hSame
        cases hNode
        rfl
      simp only [Returns, HTTP3TreeMessage.decodeGetJournalRequest, checkRequestComplete_eq hComplete, Outcome.ok_bind,
        show m.requestChunks = chunks from hChunks, hConsumed, hFound]
      rfl
  | getJournalResponse notifications =>
      obtain ⟨found, hDecode, hSame⟩ := decodeNotifications_encode rfl h hEncode hSize
      rw [← show m.responseChunks = chunks from hChunks] at hDecode
      exact ⟨found, _, decodeResponse_eq hComplete hDecode, hSame⟩

/-- A message that is pushed chunk by chunk stays open until its last chunk, is complete then, and says what was
encoded. -/
theorem delivered (h : call.Deliverable) (hEncode : call.encode requestId = .ok chunks) (hSize : chunks.length < 2 ^ 64)
    (hEmpty : call.chunksIn m = []) (hOpen : call.isComplete m = false) :
    (∀ front back, front ++ back = chunks → back ≠ [] →
      ∃ after, call.push m front = .ok after ∧ call.isComplete after = false) ∧
    ∃ after, call.push m chunks = .ok after ∧ call.isComplete after = true ∧ call.Returns after := by
  obtain ⟨hPart, after, hPush, hChunks, hComplete⟩ := push_completes h hEncode hSize hEmpty hOpen
  refine ⟨fun front back hSplit hMore => ?_, after, hPush, hComplete, ?_⟩
  · obtain ⟨open_, hOpens, -, hStill⟩ := hPart front back hSplit hMore
    exact ⟨open_, hOpens, hStill⟩
  · exact returns_of_chunks h hEncode hSize hChunks hComplete

end Arrival

section Described

theorem sendable_described : (describedNode 0).Sendable where
  reads := (describedNode_plain (by decide)).textRoundTrips
  decodable := by
    have hLength : (describedText 0).length = 351 := by decide +kernel
    intro text hText
    obtain rfl := Except.ok.inj ((maybeTreeNodeText_described (by decide)).symm.trans hText)
    exact .inr (by rw [TextDecodable, hLength]; decide)
  count := by decide

/-- A notification of a node that has no description. -/
theorem deliverable_described : (notifyListenersRequest (str "A") (some (describedNode 0))).Deliverable where
  words := by decide +kernel
  headers := by simp [headers, helpers, HelperCall.headers]
  nodes := by simpa [nodes, helpers, HelperCall.nodes] using sendable_described

/-- The chunk with the text of the node. -/
def describedChunk : SharedSpan :=
  payloadSpan 1 0x1D (leBytes 8 (describedText 0).length ++ describedText 0)

theorem encode_described : (notifyListenersRequest (str "A") (some (describedNode 0))).encode 1 =
    .ok [payloadSpan 1 0x1D (str "A"), describedChunk] := by
  have hText : maybeTreeNodeText (some (describedNode 0)) = .ok (describedText 0) :=
    maybeTreeNodeText_described (by decide)
  have hShort : (describedText 0).length ≤ 1186 := by decide +kernel
  have hNode : encodeMaybeTreeNode 1 0x1D (some (describedNode 0)) = .ok [describedChunk] := by
    rw [encodeMaybeTreeNode, hText, Outcome.ok_bind, encodeLongString_header 1 0x1D hShort]
    rfl
  have hLabel : HelperCall.encode 1 0x1D (.label (str "A")) = .ok [payloadSpan 1 0x1D (str "A")] := rfl
  simp only [encode, helpers, encodeEach, signal, HelperCall.encode, hNode, Outcome.ok_bind]
  rw [HelperCall.encode] at hLabel
  rw [hLabel]
  rfl

theorem delivered_described : ∃ after,
    (notifyListenersRequest (str "A") (some (describedNode 0))).push {}
      [payloadSpan 1 0x1D (str "A"), describedChunk] = .ok after ∧
    (notifyListenersRequest (str "A") (some (describedNode 0))).isComplete after = true ∧
    (notifyListenersRequest (str "A") (some (describedNode 0))).Returns after :=
  (delivered deliverable_described encode_described (by decide) rfl rfl).2

end Described

end MessageCall
end Wwatp
