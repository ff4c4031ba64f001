import Wwatp.Tree.Properties

/-! Nodes whose properties are inserted one by one. -/
namespace Wwatp

open Cxx

/-- A call that inserts a property; a string or span is no longer than fits in memory. -/
inductive PropertyInsertion
  | property (index : ℕ) (name : Str) (value : FixedValue)
  | string (index : ℕ) (name type value : Str) (hFits : value.length < 2 ^ 63)
  | span (index : ℕ) (name type : Str) (data : SharedSpan) (hFits : data.size < 2 ^ 63)

namespace PropertyInsertion

def perform (n : TreeNode) : PropertyInsertion → Outcome TreeNode
  | property index name value => n.insertProperty index name value
  | string index name type value _ => n.insertPropertyString index name type value
  | span index name type data _ => n.insertPropertySpan index name type data

/-- A node without properties after some calls that return. -/
def build (insertions : List PropertyInsertion) : Outcome TreeNode :=
  insertions.foldlM (fun n insertion => insertion.perform n) {}

/-- What a call inserts. -/
def inserted : PropertyInsertion → Property
  | property _ name value => ⟨(value.typename, name), .fixed value⟩
  | string _ name type value hFits =>
      ⟨(type, name), .span (.ofSignal (.payload ⟨4, 0x00, .ofNat value.length⟩) value)
        (by rwa [SharedSpan.size_eq_bytes_length, SharedSpan.bytes_ofSignal])⟩
  | span _ name type data hFits => ⟨(type, name), .span data hFits⟩

/-- The information of the property that a call inserts in front of. -/
def next (infos : List PropertyInfo) : PropertyInsertion → PropertyInfo
  | property index _ _ => infos.getD (min index (infos.length - 1)) ([], [])
  | string index _ _ _ _ => if index < infos.length then infos.getD index ([], []) else ([], [])
  | span index _ _ _ _ => if index < infos.length then infos.getD index ([], []) else ([], [])

theorem perform_eq (n : TreeNode) (insertion : PropertyInsertion) :
    insertion.perform n = n.insertBefore (insertion.next n.propertyInfos) insertion.inserted.info insertion.inserted.spans := by
  cases insertion <;> rfl

def place (properties : List Property) (insertion : PropertyInsertion) : List Property :=
  placeBefore properties (insertion.next (properties.map Property.info)) insertion.inserted

/-- The properties that some calls insert, in their order. -/
def placed (insertions : List PropertyInsertion) : List Property := insertions.foldl place []

theorem mem_placeBefore {properties : List Property} {next : PropertyInfo} {p q : Property} :
    q ∈ placeBefore properties next p ↔ q ∈ properties ∨ q = p := by
  have hSplit : q ∈ properties ↔ q ∈ properties.take ((properties.map Property.info).findIdx (· = next)) ∨
      q ∈ properties.drop ((properties.map Property.info).findIdx (· = next)) := by
    rw [← List.mem_append, List.take_append_drop]
  rw [hSplit, placeBefore, List.mem_append, List.mem_cons]
  tauto

theorem nodup_placeBefore {properties : List Property} {next : PropertyInfo} {p : Property}
    (hNames : (properties.map fun q => q.info.2).Nodup) (hNew : ∀ q ∈ properties, q.info.2 ≠ p.info.2) :
    ((placeBefore properties next p).map fun q => q.info.2).Nodup := by
  have hPerm : (placeBefore properties next p).Perm (p :: properties) := by
    rw [placeBefore]
    refine List.perm_middle.trans ?_
    rw [List.take_append_drop]
  rw [(hPerm.map _).nodup_iff, List.map_cons, List.nodup_cons]
  refine ⟨fun hMem => ?_, hNames⟩
  obtain ⟨q, hq, hName⟩ := List.mem_map.mp hMem
  exact hNew q hq hName

/-- What is known of a node that has been built so far. -/
structure Built (n : TreeNode) (properties : List Property) : Prop where
  infos : n.propertyInfos = properties.map Property.info
  names : (properties.map fun q => q.info.2).Nodup
  holds : (∀ q ∈ properties, q.WellTyped) → n.Holds properties

theorem Built.perform {n m : TreeNode} {properties : List Property} {insertion : PropertyInsertion}
    (hBuilt : Built n properties) (h : insertion.perform n = .ok m) : Built m (place properties insertion) := by
  rw [perform_eq, hBuilt.infos] at h
  obtain ⟨hInfos, hNew⟩ := TreeNode.insertBefore_infos h hBuilt.infos
  refine ⟨hInfos, nodup_placeBefore hBuilt.names hNew, fun hTyped => ?_⟩
  have hEarlier : ∀ q ∈ properties, q.WellTyped := fun q hq => hTyped q (mem_placeBefore.mpr (.inl hq))
  exact TreeNode.insertBefore_holds h (hBuilt.holds hEarlier) hEarlier

theorem Built.foldlM {start n : TreeNode} {properties : List Property} {insertions : List PropertyInsertion}
    (hStart : Built start properties)
    (h : insertions.foldlM (fun n insertion => insertion.perform n) start = .ok n) :
    Built n (insertions.foldl place properties) := by
  induction insertions generalizing start properties with
  | nil =>
      obtain rfl := Except.ok.inj h
      exact hStart
  | cons insertion insertions ih =>
      rw [List.foldlM_cons] at h
      obtain ⟨next, hNext, hRest⟩ := Outcome.bind_eq_ok.mp h
      exact ih (hStart.perform hNext) hRest

theorem built_of_build {n : TreeNode} {insertions : List PropertyInsertion} (h : build insertions = .ok n) :
    Built n (placed insertions) :=
  Built.foldlM ⟨rfl, List.nodup_nil, fun _ => ⟨rfl, rfl⟩⟩ h

/-- Every call has left its property, and there are no others. -/
theorem mem_placed {insertions : List PropertyInsertion} {p : Property} :
    p ∈ placed insertions ↔ ∃ insertion ∈ insertions, insertion.inserted = p := by
  have hFold (properties : List Property) :
      p ∈ insertions.foldl place properties ↔ p ∈ properties ∨ ∃ insertion ∈ insertions, insertion.inserted = p := by
    induction insertions generalizing properties with
    | nil => simp
    | cons insertion insertions ih =>
        rw [List.foldl_cons, ih, place, mem_placeBefore, or_assoc, List.exists_mem_cons_iff, eq_comm (a := p)]
  rw [placed, hFold]
  simp

end PropertyInsertion
end Wwatp
