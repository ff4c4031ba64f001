import Wwatp.Tree.SharedChunks

/-! The seven operations that change the properties of a `TreeNode`, on chunks that are shared. -/
namespace Wwatp

open Cxx

/-- The compiler's name of the type of a value, as `boost::core::demangle` shows it. -/
def FixedValue.demangled : FixedValue → Str
  | int64 _ => str "long"
  | uint64 _ => str "unsigned long"
  | double _ => str "double"
  | float _ => str "float"
  | bool _ => str "bool"

/-- The fields of a `TreeNode` that the operations read and write. -/
structure PropertyStore where
  propertyInfos : List PropertyInfo
  propertyData : HeldSpan
  deriving DecidableEq

namespace PropertyStore

/-- The node, without how it shares its chunks. -/
def node (s : PropertyStore) : TreeNode :=
  { propertyInfos := s.propertyInfos, propertyData := s.propertyData.span }

/-- The loop of all operations, as `TreeNode.walkTo`. -/
def walk (target : PropertyInfo) : List PropertyInfo → HeldSpan → ℕ → ℕ → Outcome (HeldSpan × ℕ × ℕ)
  | [], remaining, curSize, totalSize => .ok (remaining, curSize, totalSize)
  | info :: rest, remaining, _, totalSize => do
    let curSize ← TreeNode.currentSize info.1 remaining.span
    if info = target then return (remaining, curSize, totalSize)
    else if remaining.size < curSize then throw (.undefined .index)
    else walk target rest (remaining.restrict curSize (remaining.size - curSize)) curSize (totalSize + curSize)

/-- The end of the functions that insert a property, as `TreeNode.insertBefore`. -/
def insertBefore (s : PropertyStore) (next info : PropertyInfo) (data : List HeldSpan) : Outcome PropertyStore :=
  if s.propertyInfos.any fun other => other.2 = info.2 then
    throw (.invalidArgument (str "Property already exists: " ++ info.2))
  else do
    let (_, _, totalSize) ← walk next s.propertyInfos s.propertyData 0 0
    let position := s.propertyInfos.findIdx (· = next)
    let prior := s.propertyData.restrict 0 totalSize
    let following := s.propertyData.restrict totalSize (s.propertyData.size - totalSize)
    return {
      propertyData := (HeldSpan.concat (prior :: data ++ [following])).compress
      propertyInfos := s.propertyInfos.take position ++ info :: s.propertyInfos.drop position }

/-- `insertProperty`; `pool` gives the addresses of the chunks that a call allocates. -/
def insertProperty (pool : ℕ → ℕ) (s : PropertyStore) (index : ℕ) (name : Str) (value : FixedValue) : Outcome PropertyStore :=
  let next := s.propertyInfos.getD (min index (s.propertyInfos.length - 1)) ([], [])
  s.insertBefore next (value.typename, name) [.ofSignal pool (.payload ⟨0, 0x00, .ofNat value.bytes.length⟩) value.bytes]

def insertPropertySpan (pool : ℕ → ℕ) (s : PropertyStore) (index : ℕ) (name type : Str) (data : HeldSpan) :
    Outcome PropertyStore :=
  let next := if index < s.propertyInfos.length then s.propertyInfos.getD index ([], []) else ([], [])
  s.insertBefore next (type, name) [.ofSignal pool (.payload ⟨0, 0x00, 8⟩) (leBytes 8 data.size), data]

/-- The span that a string is converted to. -/
def stringSpan (pool : ℕ → ℕ) (value : Str) : HeldSpan := .ofSignal pool (.payload ⟨4, 0x00, .ofNat value.length⟩) value

def insertPropertyString (pool : ℕ → ℕ) (s : PropertyStore) (index : ℕ) (name type value : Str) : Outcome PropertyStore :=
  let dataSpan := stringSpan pool value
  s.insertPropertySpan (fun i => pool (dataSpan.chunks.length + i)) index name type dataSpan

/-- `setPropertyValue`. The value is written over the old one. -/
def setPropertyValue (s : PropertyStore) (name : Str) (value : FixedValue) : Outcome PropertyStore := do
  if (value.typename, name) ∉ s.propertyInfos then
    throw (.invalidArgument (str "Property not found when calling SetPropertyDataAs: " ++ name))
  else do
    let (remaining, _, _) ← walk (value.typename, name) s.propertyInfos s.propertyData 0 0
    let writes ← (remaining.restrict 0 value.bytes.length).copyType value.demangled value.bytes
    return { s with propertyData := s.propertyData.written writes }

/-- `setPropertyValueSpan`. The length is written over the old one, wherever its chunk is shared. -/
def setPropertyValueSpan (s : PropertyStore) (name : Str) (data : HeldSpan) : Outcome PropertyStore :=
  match s.propertyInfos.find? fun info => info.2 = name with
  | none => throw (.invalidArgument (str "Property not found when calling SetPropertyDataAsBytes: " ++ name))
  | some info => do
    let (remaining, curSize, totalSize) ← walk info s.propertyInfos s.propertyData 0 0
    if s.propertyData.size < totalSize + curSize then throw (.undefined .index)
    else do
      let prior := s.propertyData.restrict 0 (totalSize + 8)
      let writes ← (remaining.restrict 0 8).setBegin (str "unsigned long") (leBytes 8 data.size)
      let following := s.propertyData.restrict (totalSize + curSize) (s.propertyData.size - totalSize - curSize)
      let concatted := HeldSpan.concat ([prior, data, following].map (HeldSpan.written writes))
      return { s with propertyData := concatted.compress }

def setPropertyString (pool : ℕ → ℕ) (s : PropertyStore) (name value : Str) : Outcome PropertyStore :=
  s.setPropertyValueSpan name (stringSpan pool value)

def deleteProperty (s : PropertyStore) (name : Str) : Outcome PropertyStore :=
  match s.propertyInfos.find? fun info => info.2 = name with
  | none => .ok s
  | some info => do
    let (_, curSize, totalSize) ← walk info s.propertyInfos s.propertyData 0 0
    if s.propertyData.size < totalSize + curSize then throw (.undefined .index)
    else do
      let prior := s.propertyData.restrict 0 totalSize
      let following := s.propertyData.restrict (totalSize + curSize) (s.propertyData.size - totalSize - curSize)
      return {
        propertyData := (HeldSpan.concat [prior, following]).compress
        propertyInfos := s.propertyInfos.eraseP fun info => info.2 = name }

/-! Without the addresses the operations are those of `TreeNode`. -/

theorem span_walk (target : PropertyInfo) (infos : List PropertyInfo) (remaining : HeldSpan) (curSize totalSize : ℕ) :
    (walk target infos remaining curSize totalSize).map (fun found => (found.1.span, found.2)) =
      TreeNode.walkTo target infos remaining.span curSize totalSize := by
  induction infos generalizing remaining curSize totalSize with
  | nil => rfl
  | cons info rest ih =>
      rw [walk, TreeNode.walkTo, HeldSpan.size_span]
      cases TreeNode.currentSize info.1 remaining.span with
      | error e => rfl
      | ok size =>
          rw [Outcome.ok_bind, Outcome.ok_bind]
          split_ifs
          · rfl
          · rfl
          · rw [ih, HeldSpan.span_restrict]

/-- The sizes that the loop finds. -/
theorem walk_of_walkTo {target : PropertyInfo} {infos : List PropertyInfo} {data : HeldSpan} {remaining : SharedSpan}
    {curSize totalSize : ℕ} (h : TreeNode.walkTo target infos data.span 0 0 = .ok (remaining, curSize, totalSize)) :
    ∃ found : HeldSpan, walk target infos data 0 0 = .ok (found, curSize, totalSize) ∧ found.span = remaining := by
  rw [← span_walk] at h
  cases hWalk : walk target infos data 0 0 with
  | error e =>
      rw [hWalk] at h
      cases h
  | ok found =>
      rw [hWalk] at h
      obtain ⟨rfl, hSizes⟩ := Prod.mk.inj (Except.ok.inj h)
      exact ⟨found.1, by rw [← hSizes], rfl⟩

theorem node_insertBefore (s : PropertyStore) (next info : PropertyInfo) (data : List HeldSpan) :
    (s.insertBefore next info data).map node = s.node.insertBefore next info (data.map HeldSpan.span) := by
  have hWalk := span_walk next s.propertyInfos s.propertyData 0 0
  have hInfos : s.node.propertyInfos = s.propertyInfos := rfl
  have hData : s.node.propertyData = s.propertyData.span := rfl
  rw [insertBefore, TreeNode.insertBefore]
  by_cases hExists : (s.propertyInfos.any fun other => other.2 = info.2) = true
  · rw [if_pos hExists, if_pos (by rwa [hInfos])]
    rfl
  · rw [if_neg hExists, if_neg (by rwa [hInfos]), hInfos, hData, ← hWalk]
    cases walk next s.propertyInfos s.propertyData 0 0 with
    | error e => rfl
    | ok found =>
        simp only [Except.map, Outcome.ok_bind, Outcome.pure_eq_ok, node, HeldSpan.span_compress, HeldSpan.span_concat,
          HeldSpan.span_restrict, HeldSpan.size_span, List.map_append, List.map_cons, List.map_nil]

theorem node_insertProperty (pool : ℕ → ℕ) (s : PropertyStore) (index : ℕ) (name : Str) (value : FixedValue) :
    (s.insertProperty pool index name value).map node = s.node.insertProperty index name value := by
  rw [insertProperty, node_insertBefore, List.map_singleton, HeldSpan.span_ofSignal]
  rfl

theorem node_insertPropertySpan (pool : ℕ → ℕ) (s : PropertyStore) (index : ℕ) (name type : Str) (data : HeldSpan) :
    (s.insertPropertySpan pool index name type data).map node = s.node.insertPropertySpan index name type data.span := by
  rw [insertPropertySpan, node_insertBefore, List.map_cons, List.map_singleton, HeldSpan.span_ofSignal, ← data.size_span]
  rfl

theorem node_insertPropertyString (pool : ℕ → ℕ) (s : PropertyStore) (index : ℕ) (name type value : Str) :
    (s.insertPropertyString pool index name type value).map node = s.node.insertPropertyString index name type value := by
  rw [insertPropertyString, node_insertPropertySpan, stringSpan, HeldSpan.span_ofSignal]
  rfl

end PropertyStore
end Wwatp
