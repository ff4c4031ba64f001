import Wwatp.Message.Ends

/-! What `can_decode` says of an encoding as long as chunks of it are missing: that it has no end yet. -/
namespace Wwatp

open Cxx Cxx.Reader

namespace Codec

variable {α : Type} {codec : Codec α} {same : α → α → Prop}

/-- While chunks of the encoding are missing at the end of what has arrived, `can_decode` waits for them. -/
def Awaits (codec : Codec α) (a : α) : Prop :=
  ∀ chunks, codec.encode a = .ok chunks → ∀ (front : List SharedSpan) (k : ℕ), k < chunks.length →
    (front ++ chunks).length < 2 ^ 64 → codec.canDecode front.length (front ++ chunks.take k) = .ok none

/-- Elements one after another are waited for, each when those before it are complete. -/
theorem each_awaits {l : List α} (hRound : ∀ a ∈ l, codec.RoundTrips same a) (h : ∀ a ∈ l, codec.Awaits a)
    {chunks : List SharedSpan} (hEncode : encodeEach codec.encode l = .ok chunks) {front : List SharedSpan} {k : ℕ}
    (hk : k < chunks.length) (hSize : (front ++ chunks).length < 2 ^ 64) :
    canDecodeEach codec.canDecode (front ++ chunks.take k) l.length front.length = .ok none := by
  induction l generalizing front chunks k with
  | nil =>
      obtain rfl := Except.ok.inj hEncode
      exact absurd hk (Nat.not_lt_zero k)
  | cons a l ih =>
      simp only [encodeEach, Outcome.bind_eq_ok, Outcome.pure_eq_ok, Except.ok.injEq] at hEncode
      obtain ⟨first, hFirst, rest, hRest, rfl⟩ := hEncode
      rw [List.length_append] at hk
      simp only [List.length_append] at hSize
      rw [List.length_cons, canDecodeEach]
      by_cases hHere : k < first.length
      · rw [List.take_append_of_le_length (Nat.le_of_lt hHere),
          h a List.mem_cons_self first hFirst front k hHere (by rw [List.length_append]; omega)]
        rfl
      · -- the first element is there, the others are waited for behind it
        have hTake : (first ++ rest).take k = first ++ rest.take (k - first.length) := by
          rw [List.take_append, List.take_of_length_le (Nat.not_lt.mp hHere)]
        obtain ⟨found, hFound, hAll⟩ := hRound a List.mem_cons_self
        obtain rfl := Except.ok.inj (hFirst.symm.trans hFound)
        have hLess := List.length_take_le (k - first.length) rest
        have hEnd := (hAll front (rest.take (k - first.length)) (by
          simp only [List.length_append, List.length_take]
          omega)).1
        rw [hTake, ← List.append_assoc, hEnd, Outcome.ok_bind, ← List.length_append]
        exact ih (fun b hb => hRound b (List.mem_cons_of_mem a hb)) (fun b hb => h b (List.mem_cons_of_mem a hb)) hRest
          (by omega) (by simp only [List.length_append]; omega)

/-- A value that is sent as one chunk and then its parts. -/
theorem framed_awaits {β : Type} (codec : Codec α) {whole : Codec β} {parts : List α} {x : β} (first : SharedSpan)
    (hEncode : whole.encode x = do return first :: (← encodeEach codec.encode parts))
    (hNone : ∀ encoded : List SharedSpan, whole.canDecode encoded.length encoded = .ok none)
    (hCan : ∀ start encoded, encoded[start]? = some first →
      whole.canDecode start encoded = canDecodeEach codec.canDecode encoded parts.length (start + 1))
    (hRound : ∀ a ∈ parts, codec.RoundTrips same a) (hEach : ∀ a ∈ parts, codec.Awaits a) : whole.Awaits x := by
  intro chunks hChunks front k hk hSize
  rw [hEncode, Outcome.bind_eq_ok] at hChunks
  obtain ⟨rest, hRest, hChunks⟩ := hChunks
  obtain rfl := Except.ok.inj hChunks
  cases k with
  | zero =>
      rw [List.take_zero, List.append_nil]
      exact hNone front
  | succ k =>
      have hSplit : front ++ (first :: rest).take (k + 1) = front ++ [first] ++ rest.take k := by
        rw [List.take_succ_cons, List.append_assoc]
        rfl
      have hFirst : (front ++ [first] ++ rest.take k)[front.length]? = some first := by
        rw [List.append_assoc, List.getElem?_append_right (Nat.le_refl _), Nat.sub_self]
        rfl
      have hBefore : (front ++ [first]).length = front.length + 1 := List.length_append
      rw [hSplit, hCan _ _ hFirst, ← hBefore]
      rw [List.length_cons] at hk
      exact each_awaits hRound hEach hRest (by omega) (by
        simp only [List.length_append, List.length_cons, List.length_nil] at hSize ⊢
        omega)

end Codec

section

variable (requestId : UInt16) (signal : UInt8)

theorem getElem?_length (front : List SharedSpan) : front[front.length]? = none :=
  List.getElem?_eq_none (Nat.le_refl _)

theorem canDecodeMaybeTreeNode_length (front : List SharedSpan) : canDecodeMaybeTreeNode front.length front = .ok none := by
  rw [canDecodeMaybeTreeNode, getElem?_length]

/-- While chunks of its text are missing, a node is waited for. -/
theorem canDecodeMaybeTreeNode_take {s : Str} (hLength : s.length < 2 ^ 31 + 1186) (front : List SharedSpan) {k : ℕ}
    (h : k < (encodeLongString requestId signal s).length) :
    canDecodeMaybeTreeNode front.length (front ++ (encodeLongString requestId signal s).take k) = .ok none := by
  cases k with
  | zero =>
      rw [List.take_zero, List.append_nil]
      exact canDecodeMaybeTreeNode_length front
  | succ k =>
      have hWait := canDecodeLongString_take requestId signal hLength front h
      have hFirst : (front ++ (encodeLongString requestId signal s).take (k + 1))[front.length]? =
          some (payloadSpan requestId signal (leBytes 8 s.length ++ s.take (maxPayload - 8))) := by
        rw [encodeLongString, List.take_succ_cons, List.getElem?_append_right (Nat.le_refl _), Nat.sub_self]
        rfl
      have hSize : ¬(payloadSpan requestId signal (leBytes 8 s.length ++ s.take (maxPayload - 8))).size < 6 := by
        rw [size_payloadSpan, List.length_append, leBytes_length]
        omega
      simp only [canDecodeMaybeTreeNode, hFirst, if_neg hSize, hWait, Outcome.ok_bind, Outcome.pure_eq_ok]

/-- A node is waited for until its last property chunk has arrived. -/
theorem maybeTreeNode_awaits {mnode : Option TreeNode} (h : Decodable mnode) :
    (maybeTreeNodeCodec requestId signal).Awaits mnode := by
  intro chunks hEncode front k hk hSize
  obtain ⟨full, hFull, hChunks⟩ := Outcome.bind_eq_ok.mp hEncode
  obtain rfl := Except.ok.inj hChunks
  change canDecodeMaybeTreeNode _ _ = _
  have hLength : full.length < 2 ^ 31 + 1186 := by
    rcases h full hFull with rfl | hText
    · obtain rfl := Except.ok.inj hFull
      decide +kernel
    · exact hText.1
  by_cases hText : k < (encodeLongString requestId signal full).length
  · rw [List.take_append_of_le_length (Nat.le_of_lt hText)]
    exact canDecodeMaybeTreeNode_take requestId signal hLength front hText
  · -- the text is complete, but not all of the property data are there
    rw [List.length_append] at hk
    cases mnode with
    | none => exact absurd hk (by simp only [propertyChunks, List.length_nil]; omega)
    | some node =>
        obtain ⟨text, hText', hBody⟩ := Outcome.bind_eq_ok.mp hFull
        obtain rfl := Except.ok.inj hBody
        have hProperties : (propertyChunks requestId signal (some node)).length = node.propertyData.chunks.length :=
          SharedSpan.length_flattenWithSignal _ _
        have hLast := ((h _ hFull).resolve_left (Option.some_ne_none node)).2
        simp only [List.length_append] at hSize
        rw [List.take_append, List.take_of_length_le (Nat.not_lt.mp hText), ← List.append_assoc]
        refine canDecodeMaybeTreeNode_encode_of_missing requestId signal (by omega) hLength hLast ?_ ?_
        · rw [List.length_take]
          omega
        · simp only [List.length_append]
          omega

/-- A header of one chunk and the first chunks of a node behind it. -/
theorem take_header {text : Str} (hFits : text.length ≤ 1186) (nodeChunks : List SharedSpan) (k : ℕ) :
    (encodeLongString requestId signal text ++ nodeChunks).take (k + 1) =
      encodeLongString requestId signal text ++ nodeChunks.take k := by
  rw [encodeLongString_header requestId signal hFits]
  rfl

/-- The node behind a header is waited for where it starts. -/
theorem headerNode_awaits {mnode : Option TreeNode} (hNode : (maybeTreeNodeCodec requestId signal).Awaits mnode)
    {text : Str} (hFits : text.length ≤ 1186) {nodeChunks : List SharedSpan}
    (hEncode : encodeMaybeTreeNode requestId signal mnode = .ok nodeChunks) {front : List SharedSpan} {k : ℕ}
    (hk : k + 1 < (encodeLongString requestId signal text ++ nodeChunks).length)
    (hSize : (front ++ (encodeLongString requestId signal text ++ nodeChunks)).length < 2 ^ 64) :
    canDecodeMaybeTreeNode (front.length + 1) (front ++ encodeLongString requestId signal text ++ nodeChunks.take k) =
      .ok none := by
  have hBefore : (front ++ encodeLongString requestId signal text).length = front.length + 1 := by
    rw [encodeLongString_header requestId signal hFits, List.length_append, List.length_singleton]
  simp only [List.length_append] at hk hSize hBefore
  rw [← hBefore, ← List.length_append]
  exact hNode nodeChunks hEncode _ k (by omega) (by simp only [List.length_append]; omega)

theorem newNodeVersion_awaits {v : NewNodeVersion} (hNode : Decodable v.node) (hFits : (newNodeVersionText v).length ≤ 1186) :
    (newNodeVersionCodec requestId signal).Awaits v := by
  intro chunks hEncode front k hk hSize
  obtain ⟨nodeChunks, hEncodeNode, hChunks⟩ := Outcome.bind_eq_ok.mp hEncode
  obtain rfl := Except.ok.inj hChunks
  change canDecodeNewNodeVersion _ _ = _
  cases k with
  | zero => rw [List.take_zero, List.append_nil, canDecodeNewNodeVersion, getElem?_length]
  | succ k =>
      have hWait := headerNode_awaits requestId signal (maybeTreeNode_awaits requestId signal hNode) hFits hEncodeNode hk hSize
      have hPayload : (leBytes 8 (newNodeVersionText v).length ++ newNodeVersionText v).length ≤ maxPayload := by
        rw [List.length_append, leBytes_length, maxPayload]
        omega
      have hFirst : (front ++ encodeLongString requestId signal (newNodeVersionText v) ++ nodeChunks.take k)[front.length]? =
          some (payloadSpan requestId signal (leBytes 8 (newNodeVersionText v).length ++ newNodeVersionText v)) := by
        rw [encodeLongString_header requestId signal hFits, List.append_assoc,
          List.getElem?_append_right (Nat.le_refl _), Nat.sub_self]
        rfl
      have hSix : ¬(payloadSpan requestId signal
          (leBytes 8 (newNodeVersionText v).length ++ newNodeVersionText v)).size < 6 := by
        rw [size_payloadSpan, List.length_append, leBytes_length]
        omega
      rw [take_header requestId signal hFits, ← List.append_assoc]
      simp only [canDecodeNewNodeVersion, hFirst, if_neg hSix, canDecodeLabel_payloadSpan requestId signal hPayload hFirst,
        Outcome.ok_bind, hWait]

theorem sequentialNotification_awaits {n : SequentialNotification} (hNode : Decodable n.node)
    (hFits : (notificationText n).length ≤ 1186) : (sequentialNotificationCodec requestId signal).Awaits n := by
  intro chunks hEncode front k hk hSize
  obtain ⟨nodeChunks, hEncodeNode, hChunks⟩ := Outcome.bind_eq_ok.mp hEncode
  obtain rfl := Except.ok.inj hChunks
  change canDecodeSequentialNotification _ _ = _
  cases k with
  | zero => rw [List.take_zero, List.append_nil, canDecodeSequentialNotification, getElem?_length]
  | succ k =>
      have hWait := headerNode_awaits requestId signal (maybeTreeNode_awaits requestId signal hNode) hFits hEncodeNode hk hSize
      have hFirst : (front ++ encodeLongString requestId signal (notificationText n) ++ nodeChunks.take k)[front.length]? =
          some (payloadSpan requestId signal (leBytes 8 (notificationText n).length ++ notificationText n)) := by
        rw [encodeLongString_header requestId signal hFits, List.append_assoc,
          List.getElem?_append_right (Nat.le_refl _), Nat.sub_self]
        rfl
      have hSix : ¬(payloadSpan requestId signal (leBytes 8 (notificationText n).length ++ notificationText n)).size < 6 := by
        rw [size_payloadSpan, List.length_append, leBytes_length]
        omega
      have hHeader := canDecodeLongString_header requestId signal hFits front (nodeChunks.take k)
      rw [take_header requestId signal hFits, ← List.append_assoc]
      simp only [canDecodeSequentialNotification, hFirst, if_neg hSix, hHeader, Outcome.ok_bind, hWait, Outcome.pure_eq_ok,
        ite_self]

/-- An end of a vector is not looked for before its count is there. -/
theorem canDecodeCount_length (what : Str) (front : List SharedSpan) : canDecodeCount what front.length front = .ok none := by
  rw [canDecodeCount, if_pos (Nat.le_refl _)]

theorem canDecodeLabel_length (front : List SharedSpan) : canDecodeLabel front.length front = .ok none := by
  rw [canDecodeLabel, getElem?_length]

section Changes

variable {requestId signal}

/-- A change with a short header and a node that is read back round-trips. -/
theorem newNodeVersion_roundTrips {v : NewNodeVersion}
    (hNode : (maybeTreeNodeCodec requestId signal).RoundTrips SameMaybeNode v.node)
    (hFits : (newNodeVersionText v).length ≤ 1186) :
    (newNodeVersionCodec requestId signal).RoundTrips SameNewNodeVersion v := by
  have hLabel : v.labelRule.length ≤ (newNodeVersionText v).length := by
    rw [newNodeVersionText, List.length_append]
    exact Nat.le_add_left _ _
  exact (newNodeVersionCodec_roundTripsWhen requestId signal hNode (by omega)).sufficient hFits

theorem sequentialNotification_roundTrips {n : SequentialNotification}
    (hNode : (maybeTreeNodeCodec requestId signal).RoundTrips SameMaybeNode n.node)
    (hFits : (notificationText n).length ≤ 1186) :
    (sequentialNotificationCodec requestId signal).RoundTrips SameSequentialNotification n := by
  have hLabel : n.labelRule.length ≤ (notificationText n).length := by
    rw [notificationText, List.length_append]
    exact Nat.le_add_left _ _
  exact (sequentialNotificationCodec_roundTripsWhen requestId signal hNode (by omega)).sufficient hFits

end Changes

section Vectors

variable {sub : SubTransaction} {transaction : Transaction} {notifications : List SequentialNotification}
  {nodes : List TreeNode}

theorem subTransaction_awaits (hCount : sub.descendants.length < 2 ^ 64)
    (hRound : ∀ v ∈ sub.changes, (newNodeVersionCodec requestId signal).RoundTrips SameNewNodeVersion v)
    (hChanges : ∀ v ∈ sub.changes, (newNodeVersionCodec requestId signal).Awaits v) :
    (subTransactionCodec requestId signal).Awaits sub :=
  Codec.framed_awaits (newNodeVersionCodec requestId signal) _ (encodeSubTransaction_eq requestId signal hCount)
    (fun encoded => by
      change canDecodeSubTransaction _ _ = _
      rw [canDecodeSubTransaction, canDecodeCount_length]
      rfl)
    (fun _ _ hChunk => canDecodeSubTransaction_eq requestId signal hCount hChunk) hRound hChanges

theorem transaction_awaits (hCount : transaction.length < 2 ^ 64)
    (hRound : ∀ sub ∈ transaction, (subTransactionCodec requestId signal).RoundTrips SameSubTransaction sub)
    (hSubs : ∀ sub ∈ transaction, (subTransactionCodec requestId signal).Awaits sub) :
    (transactionCodec requestId signal).Awaits transaction :=
  Codec.framed_awaits (subTransactionCodec requestId signal) _ (encodeTransaction_eq requestId signal hCount)
    (fun encoded => by
      change canDecodeTransaction _ _ = _
      rw [canDecodeTransaction, canDecodeCount_length]
      rfl)
    (fun _ _ hChunk => canDecodeTransaction_eq requestId signal hCount hChunk) hRound hSubs

theorem vectorSequentialNotification_awaits (hCount : notifications.length < 2 ^ 64)
    (hRound : ∀ n ∈ notifications, (sequentialNotificationCodec requestId signal).RoundTrips SameSequentialNotification n)
    (hNotifications : ∀ n ∈ notifications, (sequentialNotificationCodec requestId signal).Awaits n) :
    (vectorSequentialNotificationCodec requestId signal).Awaits notifications :=
  Codec.framed_awaits (sequentialNotificationCodec requestId signal) _
    (encodeVectorSequentialNotification_eq requestId signal hCount)
    (fun encoded => by
      change canDecodeVectorSequentialNotification _ _ = _
      rw [canDecodeVectorSequentialNotification, if_pos (Nat.le_refl _)])
    (fun _ _ hChunk => canDecodeVectorSequentialNotification_eq requestId signal hCount hChunk) hRound hNotifications

theorem vectorTreeNode_awaits (hCount : nodes.length < 2 ^ 64)
    (hRound : ∀ node ∈ nodes, (maybeTreeNodeCodec requestId signal).RoundTrips SameMaybeNode (some node))
    (hNodes : ∀ node ∈ nodes, Decodable (some node)) : (vectorTreeNodeCodec requestId signal).Awaits nodes :=
  Codec.framed_awaits (treeNodeCodec requestId signal) _ (encodeVectorTreeNode_eq requestId signal hCount)
    (fun encoded => by
      change canDecodeVectorTreeNode _ _ = _
      rw [canDecodeVectorTreeNode, canDecodeCount_length]
      rfl)
    (fun _ _ hChunk => canDecodeVectorTreeNode_eq requestId signal hCount hChunk)
    (fun node hNode => treeNode_roundTrips requestId signal (hRound node hNode))
    (fun node hNode => maybeTreeNode_awaits requestId signal (hNodes node hNode))

end Vectors

end
end Wwatp
