import Wwatp.Message.Locality
import Wwatp.Message.TransactionCodec

/-! Where `can_decode` finds the end of an encoding, also of one that is not decoded to the same
value again. -/
namespace Wwatp

open Cxx

namespace Codec

variable {α : Type} {codec : Codec α} {condition : α → Prop}

end Codec

/-- No node, or one whose last chunk of text holds the whole count of its property chunks. -/
def Decodable (mnode : Option TreeNode) : Prop :=
  ∀ text, maybeTreeNodeText mnode = .ok text → mnode = none ∨ TextDecodable text

section

variable (requestId : UInt16) (signal : UInt8)

/-- A node of a vector. -/
def treeNodeCodec : Codec TreeNode where
  encode node := encodeMaybeTreeNode requestId signal (some node)
  decode := decodeTreeNode
  canDecode := canDecodeMaybeTreeNode

def vectorTreeNodeCodec : Codec (List TreeNode) where
  encode := encodeVectorTreeNode requestId signal
  decode := decodeVectorTreeNode
  canDecode := canDecodeVectorTreeNode

section Nodes

variable {nodes : List TreeNode} (hCount : nodes.length < 2 ^ 64)

include hCount

theorem encodeVectorTreeNode_eq : encodeVectorTreeNode requestId signal nodes = do
    return payloadSpan requestId signal (toDecimal nodes.length) ::
      (← encodeEach (treeNodeCodec requestId signal).encode nodes) := by
  simp only [encodeVectorTreeNode, encodeLabel_count requestId signal hCount, Outcome.ok_bind]
  rfl

theorem canDecodeVectorTreeNode_eq {start : ℕ} {encoded : List SharedSpan}
    (hChunk : encoded[start]? = some (payloadSpan requestId signal (toDecimal nodes.length))) :
    canDecodeVectorTreeNode start encoded =
      canDecodeEach canDecodeMaybeTreeNode encoded nodes.length (start + 1) := by
  rw [canDecodeVectorTreeNode, canDecodeCount_count requestId signal hCount _ hChunk]
  rfl

omit hCount in
theorem treeNode_roundTrips {node : TreeNode}
    (h : (maybeTreeNodeCodec requestId signal).RoundTrips SameMaybeNode (some node)) :
    (treeNodeCodec requestId signal).RoundTrips TreeNode.SameNode node := by
  obtain ⟨chunks, hEncode, hAll⟩ := h
  refine ⟨chunks, hEncode, fun front back hSize => ?_⟩
  obtain ⟨hCan, b, hDecode, hSame⟩ := hAll front back hSize
  have hTaken : consuming (str "Cannot decode TreeNode") decodeMaybeTreeNode
      ((front ++ chunks ++ back).drop front.length) = .ok (chunks.length, b) :=
    consuming_ok hDecode (encodeMaybeTreeNode_ne_nil requestId signal hEncode)
  cases hSame with
  | some hSame =>
      refine ⟨hCan, _, ?_, hSame⟩
      change decodeTreeNode _ = _
      rw [decodeTreeNode, hTaken]
      rfl

theorem vectorTreeNode_roundTrips
    (hNodes : ∀ node ∈ nodes, (maybeTreeNodeCodec requestId signal).RoundTrips SameMaybeNode (some node)) :
    (vectorTreeNodeCodec requestId signal).RoundTrips (List.Forall₂ TreeNode.SameNode) nodes := by
  have hEach : ∀ node ∈ nodes, (treeNodeCodec requestId signal).RoundTripsWhen TreeNode.SameNode True node :=
    fun node hNode => ⟨fun _ => treeNode_roundTrips requestId signal (hNodes node hNode), fun _ _ _ _ _ _ _ _ => trivial⟩
  have hDecode (rest : List SharedSpan) (stop : ℕ) (b : List TreeNode) :
      decodeVectorTreeNode (payloadSpan requestId signal (toDecimal nodes.length) :: rest) = .ok (stop, b) ↔
        decodeEach decodeTreeNode (payloadSpan requestId signal (toDecimal nodes.length) :: rest) nodes.length 1 =
          .ok (stop, b) := by
    rw [decodeVectorTreeNode, decodeCount_count requestId signal hCount]
    rfl
  have hWhen : (vectorTreeNodeCodec requestId signal).RoundTripsWhen (List.Forall₂ TreeNode.SameNode)
      (∀ node ∈ nodes, True) nodes :=
    Codec.framed_roundTripsWhen (treeNodeCodec requestId signal) id _ (encodeVectorTreeNode_eq requestId signal hCount)
      hDecode (fun l _ => ⟨l, rfl⟩) (fun _ _ hChunk => canDecodeVectorTreeNode_eq requestId signal hCount hChunk) hEach
  exact hWhen.sufficient fun _ _ => trivial

end Nodes

end
end Wwatp
