import Wwatp.Mediator.EqualTrees
import Wwatp.Tree.SpanIterator

/-! `TreeNode::operator==` with its two iterators, which go over the property data of both nodes in step. -/
namespace Wwatp

open Cxx

/-- The loop of `operator==` over the bytes of two spans. Bytes stand at every address. -/
def equalContents (s t : SharedSpan) : ℕ → SpanPosition → SpanPosition → Outcome Bool
  | 0, _, _ => .ok true
  | left + 1, thisIt, otherIt => do
    let this ← s.dereference (fun _ => 0) .byte thisIt
    let other ← t.dereference (fun _ => 0) .byte otherIt
    if this ≠ other then return false
    else do
      let thisNext ← s.increment .byte thisIt
      let otherNext ← t.increment .byte otherIt
      equalContents s t left thisNext otherNext

/-- `operator==` -/
def TreeNode.operatorEq (node other : TreeNode) : Outcome Bool := do
  let propertiesEqual := node.labelRule = other.labelRule && node.description = other.description &&
    node.propertyInfos = other.propertyInfos && node.version = other.version && node.childNames = other.childNames &&
    node.queryHowTo.getD [] = other.queryHowTo.getD [] && node.qaSequence = other.qaSequence
  let contentsEqual ←
    if node.propertyData.size = other.propertyData.size then
      equalContents node.propertyData other.propertyData node.propertyData.size node.propertyData.beginPosition
        other.propertyData.beginPosition
    else .ok false
  return propertiesEqual && contentsEqual

section Contents

variable {s t : SharedSpan} {n left : ℕ}

/-- A byte is read and passed wherever the chunks are cut. -/
theorem SharedSpan.dereference_byte (h : n < s.size) :
    ∃ x, s.bytes.drop n = x :: s.bytes.drop (n + 1) ∧
      s.dereference (fun _ => 0) .byte (locate 0 s.chunks n) = .ok [x] ∧
      s.increment .byte (locate 0 s.chunks n) = .ok (locate 0 s.chunks (n + 1)) := by
  have hLength : n < s.bytes.length := by rwa [← s.size_eq_bytes_length]
  have hDrop := List.drop_eq_getElem_cons hLength
  refine ⟨_, hDrop, ?_, increment_locate .byte h⟩
  obtain ⟨front, c, back, o, hChunks, ho, rfl⟩ := exists_chunk h
  rw [dereference_locate (fun _ => 0) .byte hChunks ho, hDrop]
  rfl

/-- In step, the iterators compare what is left of the bytes. -/
theorem equalContents_locate (hSizes : s.size = t.size) (hLeft : n + left = s.size) :
    equalContents s t left (SharedSpan.locate 0 s.chunks n) (SharedSpan.locate 0 t.chunks n) =
      .ok (decide (s.bytes.drop n = t.bytes.drop n)) := by
  induction left generalizing n with
  | zero =>
      have hThis : s.bytes.length ≤ n := by rw [← s.size_eq_bytes_length, ← hLeft, Nat.add_zero]
      have hOther : t.bytes.length ≤ n := by rw [← t.size_eq_bytes_length, ← hSizes, ← hLeft, Nat.add_zero]
      rw [equalContents, List.drop_of_length_le hThis, List.drop_of_length_le hOther, decide_eq_true rfl]
  | succ left ih =>
      obtain ⟨x, hThis, hReadThis, hNextThis⟩ := SharedSpan.dereference_byte (s := s) (n := n) (by omega)
      obtain ⟨y, hOther, hReadOther, hNextOther⟩ := SharedSpan.dereference_byte (s := t) (n := n) (by omega)
      rw [equalContents, hReadThis, hReadOther, Outcome.ok_bind, Outcome.ok_bind, hThis, hOther]
      by_cases hSame : x = y
      · rw [if_neg (by simp [hSame]), hNextThis, hNextOther, Outcome.ok_bind, Outcome.ok_bind, ih (by omega), hSame]
        simp
      · rw [if_pos (by simp [hSame])]
        simp [hSame]

end Contents

namespace TreeNode

/-- The iterators never fail, and the chunks make no difference. -/
theorem operatorEq_eq (node other : TreeNode) : node.operatorEq other = .ok (node.equals other) := by
  rw [operatorEq, equals, Bool.and_assoc]
  by_cases hSizes : node.propertyData.size = other.propertyData.size
  · rw [if_pos hSizes, SharedSpan.beginPosition_eq, SharedSpan.beginPosition_eq,
      equalContents_locate hSizes (Nat.zero_add _), List.drop_zero, List.drop_zero]
    simp
  · have hBytes : node.propertyData.bytes ≠ other.propertyData.bytes := by
      intro hSame
      rw [SharedSpan.size_eq_bytes_length, SharedSpan.size_eq_bytes_length, hSame] at hSizes
      exact hSizes rfl
    rw [if_neg hSizes]
    simp [hBytes]

/-- The constructor and the setters keep nothing in place of an empty text. -/
structure Normalized (node : TreeNode) : Prop where
  queryHowTo : node.queryHowTo ≠ some []
  qaSequence : node.qaSequence ≠ some []

/-- Then nothing and the empty text are the same in both. -/
theorem qaSequence_eq_iff {node other : TreeNode} (hNode : node.Normalized) (hOther : other.Normalized) :
    node.qaSequence = other.qaSequence ↔ node.qaSequence.getD [] = other.qaSequence.getD [] := by
  have h := hNode.qaSequence
  have h' := hOther.qaSequence
  cases hThis : node.qaSequence <;> cases hThat : other.qaSequence <;> simp_all [eq_comm]

/-- Two nodes are equal exactly when their fields are and the bytes of their property data, however those are cut
into chunks, and so equality is an equivalence. -/
theorem operatorEq_iff :
    (∀ node other : TreeNode, ∃ equal, node.operatorEq other = .ok equal ∧
      (equal = true ↔ node.labelRule = other.labelRule ∧ node.description = other.description ∧
        node.propertyInfos = other.propertyInfos ∧ node.version = other.version ∧ node.childNames = other.childNames ∧
        node.queryHowTo.getD [] = other.queryHowTo.getD [] ∧ node.qaSequence = other.qaSequence ∧
        node.propertyData.bytes = other.propertyData.bytes) ∧
      (node.Normalized → other.Normalized →
        (node.qaSequence = other.qaSequence ↔ node.qaSequence.getD [] = other.qaSequence.getD []))) ∧
    Equivalence fun node other : TreeNode => node.operatorEq other = .ok true := by
  constructor
  · intro node other
    refine ⟨node.equals other, operatorEq_eq node other, ?_, qaSequence_eq_iff⟩
    simp only [equals, Bool.and_eq_true, decide_eq_true_eq, and_assoc]
  · have hCompared : (fun node other : TreeNode => node.operatorEq other = .ok true) =
        fun node other => node.compared = other.compared := by
      funext node other
      rw [operatorEq_eq, Except.ok.injEq, equals_iff]
    rw [hCompared]
    exact ⟨fun _ => rfl, Eq.symm, Eq.trans⟩

/-- Two bytes in one chunk, and the same in two with an empty one between them. -/
theorem operatorEq_iff_cut :
    ({ propertyData := .ofSignal .noChunk [1, 2] } : TreeNode).operatorEq
      { propertyData := .concat [.ofSignal .noChunk [1], .ofSignal .noChunk [], .ofSignal .noChunk [2]] } = .ok true := by
  obtain ⟨equal, hEqual, hIff, -⟩ := operatorEq_iff.1 { propertyData := .ofSignal .noChunk [1, 2] }
    { propertyData := .concat [.ofSignal .noChunk [1], .ofSignal .noChunk [], .ofSignal .noChunk [2]] }
  rw [hEqual, hIff.mpr ⟨rfl, rfl, rfl, rfl, rfl, rfl, rfl, by decide⟩]

end TreeNode

end Wwatp
