import Wwatp.Tree.PropertyInsertion
import Wwatp.Tree.Restriction

/-! Where a property is inserted, for any way in which the property data are cut into chunks. -/
namespace Wwatp

open Cxx

namespace SharedSpan

end SharedSpan

/-- A property in the property data: its information and its bytes. -/
abbrev LaidProperty := PropertyInfo × List UInt8

/-- The bytes of a value of the type: of its width, or behind their number in eight bytes. -/
def Encodes (type : Str) (bytes : List UInt8) : Prop :=
  match fixedSize type with
  | some width => bytes.length = width
  | none => ∃ data : List UInt8, data.length < 2 ^ 63 ∧ bytes = leBytes 8 data.length ++ data

/-- The properties stand one behind the other in the property data, in whatever chunks. -/
structure TreeNode.Consistent (n : TreeNode) (properties : List LaidProperty) : Prop where
  infos : n.propertyInfos = properties.map Prod.fst
  bytes : n.propertyData.bytes = properties.flatMap Prod.snd
  encodes : ∀ p ∈ properties, Encodes p.1.1 p.2
  names : (n.propertyInfos.map Prod.snd).Nodup

section Walk

variable {properties rest : List LaidProperty} {p : LaidProperty} {s : SharedSpan} {chunks : List Chunk} {offset position : ℕ}

theorem Encodes.pos {type : Str} {bytes : List UInt8} (h : Encodes type bytes) : 0 < bytes.length := by
  rw [Encodes] at h
  cases hType : fixedSize type with
  | none =>
      rw [hType] at h
      obtain ⟨data, -, rfl⟩ := h
      simp
  | some width =>
      rw [hType] at h
      dsimp only at h
      rw [fixedSize] at hType
      split_ifs at hType <;> cases hType <;> omega

end Walk

namespace PropertyInsertion

def index : PropertyInsertion → ℕ
  | property index _ _ => index
  | string index _ _ _ _ => index
  | span index _ _ _ _ => index

/-- The properties with the new one where it should be. -/
def expected (properties : List LaidProperty) (insertion : PropertyInsertion) : List LaidProperty :=
  properties.take (min insertion.index properties.length) ++
    (insertion.inserted.info, insertion.inserted.bytes) :: properties.drop (min insertion.index properties.length)

section Position

variable {infos : List PropertyInfo} {insertion : PropertyInsertion}

end Position

section Insertion

variable {n : TreeNode} {properties : List LaidProperty} {insertion : PropertyInsertion}

/-- A node with a number. -/
def numbered : TreeNode where
  propertyInfos := [(str "uint64", str "a")]
  propertyData := .ofSignal (.payload ⟨0, 0x00, 8⟩) (leBytes 8 1)

end Insertion

end PropertyInsertion

end Wwatp
