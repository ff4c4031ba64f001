import Wwatp.Cxx.NamedEntries
import Wwatp.JavaScript.PropertyMethods

/-! What the methods of the JavaScript client's `TreeNode` do to a node whose data are those of its properties. -/
namespace Wwatp
namespace JavaScript

open Cxx Method

/-- A property that can be read back: a value of variable size does not have the type of one of fixed size, and four
bytes hold its length. -/
structure StoredProperty extends Property where
  typed : toProperty.WellTyped
  small : (written toProperty).length < 2 ^ 32 + 4

namespace StoredProperty

def bytes (p : StoredProperty) : List UInt8 := written p.toProperty

theorem all_typed (properties : List StoredProperty) : ∀ p ∈ properties.map toProperty, p.WellTyped := by
  intro p hp
  obtain ⟨q, -, rfl⟩ := List.mem_map.mp hp
  exact q.typed

theorem all_small (properties : List StoredProperty) : ∀ p ∈ properties.map toProperty, (written p).length < 2 ^ 32 + 4 := by
  intro p hp
  obtain ⟨q, -, rfl⟩ := List.mem_map.mp hp
  exact q.small

theorem small_fixed (v : FixedValue) : v.bytes.length < 2 ^ 32 + 4 := by
  have hLength := (Property.length_bytes_pos v).2
  omega

theorem small_bytes (info : PropertyInfo) (data : List UInt8) (hFits : data.length < 2 ^ 32) :
    (written (bytesProperty info.2 info.1 data hFits)).length < 2 ^ 32 + 4 := by
  simp only [written, bytesProperty, SharedSpan.bytes_ofSignal, List.length_append, leBytes_length]
  omega

def ofFixed (name : Str) (v : FixedValue) : StoredProperty where
  info := (v.typename, name)
  value := .fixed v
  typed := Property.wellTyped_fixed name v
  small := small_fixed v

def ofBytes (info : PropertyInfo) (hType : fixedSize info.1 = none) (data : List UInt8) (hFits : data.length < 2 ^ 32) :
    StoredProperty where
  toProperty := bytesProperty info.2 info.1 data hFits
  typed := hType
  small := small_bytes info data hFits

@[simp] theorem bytes_ofFixed (name : Str) (v : FixedValue) : (ofFixed name v).bytes = v.bytes := rfl

@[simp] theorem bytes_ofBytes (info : PropertyInfo) (hType : fixedSize info.1 = none) (data : List UInt8)
    (hFits : data.length < 2 ^ 32) : (ofBytes info hType data hFits).bytes = leBytes 4 data.length ++ data := by
  simp only [bytes, ofBytes, written, bytesProperty, SharedSpan.bytes_ofSignal]

@[simp] theorem reading_ofBytes (info : PropertyInfo) (hType : fixedSize info.1 = none) (data : List UInt8)
    (hFits : data.length < 2 ^ 32) : (ofBytes info hType data hFits).value.reading = .bytes data := by
  simp only [ofBytes, bytesProperty, PropertyValue.reading, SharedSpan.bytes_ofSignal]

theorem typed_fixed (p : StoredProperty) {v : FixedValue} (h : p.value.reading = .fixed v) :
    p.info.1 = v.typename ∧ p.bytes = v.bytes := by
  have hTyped := p.typed
  rw [Property.WellTyped] at hTyped
  rw [bytes, written]
  cases hValue : p.value with
  | fixed w =>
      rw [hValue] at hTyped h
      obtain rfl : w = v := PropertyReading.fixed.inj h
      exact ⟨hTyped, rfl⟩
  | span data hFits =>
      rw [hValue] at h
      cases h

theorem typed_bytes (p : StoredProperty) {data : List UInt8} (h : p.value.reading = .bytes data) :
    fixedSize p.info.1 = none ∧ p.bytes = leBytes 4 data.length ++ data := by
  have hTyped := p.typed
  rw [Property.WellTyped] at hTyped
  rw [bytes, written]
  cases hValue : p.value with
  | fixed w =>
      rw [hValue] at h
      cases h
  | span span hFits =>
      rw [hValue] at hTyped h
      obtain rfl : span.bytes = data := PropertyReading.bytes.inj h
      exact ⟨hTyped, rfl⟩

/-- The slot of a value of fixed size. -/
theorem fixed_slotAt (p : StoredProperty) {v : FixedValue} (h : p.value.reading = .fixed v) (typeHint : Str) :
    (∀ offset, ¬(slotAt p.toProperty offset).isVariable) ∧
      ∀ offset, (if (slotAt p.toProperty offset).type = [] then typeHint else (slotAt p.toProperty offset).type) = p.info.1 := by
  obtain ⟨hType, -⟩ := p.typed_fixed h
  constructor
  · intro offset
    rw [slotAt, hType, fixedSize_typename]
    simp
  · intro offset
    apply if_neg
    rw [slotAt, hType]
    intro hEmpty
    have hSize := fixedSize_typename v
    rw [show v.typename = [] from hEmpty, show fixedSize [] = none by decide] at hSize
    cases hSize

theorem bytes_slotAt (p : StoredProperty) {data : List UInt8} (h : p.value.reading = .bytes data) (offset : ℕ) :
    ¬(!(slotAt p.toProperty offset).isVariable) := by
  obtain ⟨hType, -⟩ := p.typed_bytes h
  rw [slotAt, hType]
  simp

theorem type_mem_fixedSizeTypes (p : StoredProperty) {v : FixedValue} (h : p.value.reading = .fixed v) :
    p.info.1 ∈ fixedSizeTypes := by
  rw [(p.typed_fixed h).1]
  exact typename_mem_fixedSizeTypes v

end StoredProperty

/-- The data of a node are those of its properties, one after another. -/
structure Node.Holds (n : Node) (properties : List StoredProperty) : Prop where
  infos : n.propertyInfos = properties.map fun p => p.info
  data : n.propertyData = properties.flatMap StoredProperty.bytes
  names : (properties.map fun p => p.info.2).Nodup

/-- The slots of some properties, and then those of others. -/
theorem slots_append (front back : List Property) (offset : ℕ) :
    slots (front ++ back) offset = slots front offset ++ slots back (offset + (front.flatMap written).length) := by
  induction front generalizing offset with
  | nil => rfl
  | cons p rest ih =>
      rw [List.cons_append, slots, slots, ih, List.flatMap_cons, List.length_append, Nat.add_assoc, List.cons_append]

namespace Node
namespace Holds

section Reading

variable {n : Node} {properties front back : List StoredProperty} {p : StoredProperty} {name : Str}

theorem names_ne (h : n.Holds (front ++ p :: back)) : ∀ q ∈ front ++ back, q.info.2 ≠ p.info.2 := by
  intro q hq hName
  have hNodup := h.names
  rw [List.map_append, List.map_cons, List.nodup_middle, List.nodup_cons] at hNodup
  apply hNodup.1
  rw [← List.map_append, ← hName]
  exact List.mem_map_of_mem hq

/-- The layout of the node. -/
theorem layout (h : n.Holds properties) :
    computeLayout n.propertyData n.propertyInfos 0 = .ok (slots (properties.map StoredProperty.toProperty) 0) := by
  have hSlots := computeLayout_slots (StoredProperty.all_typed properties) (StoredProperty.all_small properties) []
  rw [List.flatMap_map, List.map_map] at hSlots
  rw [h.data, h.infos]
  exact hSlots

theorem names_layout (h : n.Holds properties) :
    ((slots (properties.map StoredProperty.toProperty) 0).map Prod.fst).Nodup := by
  rw [keys_computeLayout h.layout, h.infos, List.map_map]
  exact h.names

/-- The slot of a property. -/
theorem slotOf_middle (h : n.Holds (front ++ p :: back)) :
    slotOf (slots ((front ++ p :: back).map StoredProperty.toProperty) 0) p.info.2 =
      some (slotAt p.toProperty (front.flatMap StoredProperty.bytes).length) := by
  have hMem : (p.info.2, slotAt p.toProperty (front.flatMap StoredProperty.bytes).length) ∈
      slots ((front ++ p :: back).map StoredProperty.toProperty) 0 := by
    rw [List.map_append, List.map_cons, slots_append, slots, List.flatMap_map, Nat.zero_add]
    exact List.mem_append_right _ List.mem_cons_self
  exact slotOf_of_nodup h.names_layout hMem

/-- The bytes of a property. -/
theorem slice_middle (h : n.Holds (front ++ p :: back)) :
    slice n.propertyData (front.flatMap StoredProperty.bytes).length p.bytes.length = p.bytes := by
  rw [h.data, List.flatMap_append, List.flatMap_cons, slice, List.drop_left, List.take_left]

theorem findSlot_middle (h : n.Holds (front ++ p :: back)) :
    findSlot n.propertyInfos n.propertyData p.info.2 =
      .ok (slotAt p.toProperty (front.flatMap StoredProperty.bytes).length) := by
  simp only [findSlot, h.layout, bind, Except.bind, h.slotOf_middle]
  rfl

theorem findSlot_new (h : n.Holds properties) (hNew : ∀ p ∈ properties, p.info.2 ≠ name) :
    findSlot n.propertyInfos n.propertyData name = .error (.error (str "Property not found: " ++ name)) := by
  have hNone : slotOf (slots (properties.map StoredProperty.toProperty) 0) name = none := by
    rw [slotOf, List.filter_eq_nil_iff.mpr]
    · rfl
    · intro entry hEntry hName
      have hKey := List.mem_map_of_mem (f := Prod.fst) hEntry
      rw [keys_computeLayout h.layout, h.infos, List.map_map] at hKey
      obtain ⟨p, hp, hSame⟩ := List.mem_map.mp hKey
      exact hNew p hp (hSame.trans (of_decide_eq_true hName))
  simp only [findSlot, h.layout, bind, Except.bind, hNone]
  rfl

/-- A value of fixed size is read as a value only. -/
theorem read_fixed (h : n.Holds (front ++ p :: back)) {v : FixedValue} (hReading : p.value.reading = .fixed v) :
    getPropertyValue n.propertyInfos n.propertyData p.info.2 = .ok (v.bytes.length, .fixed v, v.bytes) := by
  obtain ⟨hType, hBytes⟩ := p.typed_fixed hReading
  have hSlice := h.slice_middle
  have hSlot := h.findSlot_middle
  generalize (front.flatMap StoredProperty.bytes).length = offset at hSlice hSlot
  rw [hBytes] at hSlice
  have hRead : readFixed v.typename n.propertyData offset = .ok v := by
    rw [readFixed_eq_ok, ← slice, hSlice]
    refine ⟨?_, v.ofBytes_bytes⟩
    have hLength := congrArg List.length hSlice
    rw [slice, List.length_take] at hLength
    omega
  have hAt : slotAt p.toProperty offset = ⟨v.typename, offset, v.bytes.length, false⟩ := by
    rw [slotAt, hType, fixedSize_typename, ← hBytes]
    rfl
  rw [getPropertyValue, hSlot, hAt]
  show (do let value ← readFixed v.typename n.propertyData offset
           return (v.bytes.length, PropertyReading.fixed value, slice n.propertyData offset v.bytes.length)) = _
  rw [hRead, hSlice]
  rfl

/-- Some bytes are read as they are, as a text and with their length. -/
theorem read_bytes (h : n.Holds (front ++ p :: back)) {data : List UInt8} (hReading : p.value.reading = .bytes data) :
    getPropertyValue n.propertyInfos n.propertyData p.info.2 = .ok (4 + data.length, .bytes data, data) ∧
      (∀ utf8Decode, getPropertyString utf8Decode n.propertyInfos n.propertyData p.info.2 =
        .ok (4 + data.length, utf8Decode data)) ∧
      getPropertyValueSpan n.propertyInfos n.propertyData p.info.2 =
        .ok (4 + data.length, leBytes 4 data.length, data) := by
  obtain ⟨hType, hBytes⟩ := p.typed_bytes hReading
  have hSpan : p.bytes.length = 4 + data.length := by rw [hBytes, List.length_append, leBytes_length]
  have hSlice := h.slice_middle
  have hSlot := h.findSlot_middle
  generalize (front.flatMap StoredProperty.bytes).length = offset at hSlice hSlot
  rw [hSpan, hBytes] at hSlice
  have hAt : slotAt p.toProperty offset = ⟨p.info.1, offset, 4 + data.length, true⟩ := by
    rw [slotAt, hType, ← hSpan]
    rfl
  have hHeader : slice n.propertyData offset 4 = leBytes 4 data.length := by
    have hTake := congrArg (List.take 4) hSlice
    rwa [slice, List.take_take, Nat.min_eq_left (by omega), List.take_left' (leBytes_length _ _)] at hTake
  have hData : slice n.propertyData (offset + 4) (4 + data.length - 4) = data := by
    have hDrop := congrArg (List.drop 4) hSlice
    rwa [slice, List.drop_take, List.drop_drop, List.drop_left' (leBytes_length _ _)] at hDrop
  refine ⟨?_, fun utf8Decode => ?_, ?_⟩
  · rw [getPropertyValue, hSlot, hAt]
    show Except.ok (4 + data.length, PropertyReading.bytes (slice n.propertyData (offset + 4) (4 + data.length - 4)),
      slice n.propertyData (offset + 4) (4 + data.length - 4)) = _
    rw [hData]
  · rw [getPropertyString, hSlot, hAt]
    show Except.ok (4 + data.length, utf8Decode (slice n.propertyData (offset + 4) (4 + data.length - 4))) = _
    rw [hData]
  · rw [getPropertyValueSpan, hSlot, hAt]
    show Except.ok (4 + data.length, slice n.propertyData offset 4,
      slice n.propertyData (offset + 4) (4 + data.length - 4)) = _
    rw [hHeader, hData]

end Reading

section Changing

variable {Value Text : Type} {n : Node} {properties front back : List StoredProperty} {p q : StoredProperty} {name : Str}
  {change : Change Value} {host : Host Value Text} {piece : List UInt8}

/-- The bytes of a property that a change does not name are copied. -/
theorem bytes_copied (h : n.Holds properties) (hq : q ∈ properties) (hTarget : change.target ≠ some q.info.2) (index : ℕ) :
    (change.item (slots (properties.map StoredProperty.toProperty) 0) q.info index).bytes host n.propertyData = .ok q.bytes := by
  obtain ⟨front, back, rfl⟩ := List.append_of_mem hq
  have hSlice := h.slice_middle
  rw [change.bytes_item_of_ne hTarget h.slotOf_middle, copySlot_of_length]
  · exact congrArg Except.ok hSlice
  · exact (congrArg List.length hSlice).symm

/-- Some bytes take the place of those of the property that a change names. -/
theorem buildPropertiesWithChange_replaced (h : n.Holds (front ++ p :: back)) (hTarget : change.target = some p.info.2)
    (hPiece : ∀ index, (change.item (slots ((front ++ p :: back).map StoredProperty.toProperty) 0) p.info index).bytes
      host n.propertyData = .ok piece) :
    change.buildPropertiesWithChange host n.propertyInfos n.propertyData =
      .ok (front.flatMap StoredProperty.bytes ++ (piece ++ back.flatMap StoredProperty.bytes)) := by
  obtain ⟨hPlace, hInserted⟩ : change.index = none ∧ change.insertedBytes host = .ok [] := change.inserts_nothing hTarget
  have hOther : ∀ q ∈ front ++ back, ∀ index,
      (change.item (slots ((front ++ p :: back).map StoredProperty.toProperty) 0) q.info index).bytes host n.propertyData =
        .ok q.bytes := by
    intro q hq
    have hMem : q ∈ front ++ p :: back := by
      rw [List.mem_append, List.mem_cons]
      exact (List.mem_append.mp hq).imp_right Or.inr
    apply h.bytes_copied hMem
    rw [hTarget]
    exact fun hName => h.names_ne q hq (Option.some.inj hName).symm
  have hEach (others : List StoredProperty) (hOthers : ∀ q ∈ others, q ∈ front ++ back) :
      List.Forall₂ (fun info piece => ∀ index, (change.item (slots ((front ++ p :: back).map StoredProperty.toProperty) 0)
        info index).bytes host n.propertyData = .ok piece) (others.map fun p => p.info) (others.map StoredProperty.bytes) := by
    rw [List.forall₂_map_left_iff, List.forall₂_map_right_iff, List.forall₂_same]
    exact fun q hq => hOther q (hOthers q hq)
  have hPieces := List.rel_append (hEach front fun q hq => List.mem_append_left _ hq)
    (.cons hPiece (hEach back fun q hq => List.mem_append_right _ hq))
  have hInfos : n.propertyInfos = front.map (fun p => p.info) ++ p.info :: back.map (fun p => p.info) := by
    rw [h.infos, List.map_append, List.map_cons]
  dsimp only at hPieces
  rw [← hInfos] at hPieces
  rw [change.buildPropertiesWithChange_eq h.layout hInserted hPieces (by rw [hPlace]; nofun), hPlace]
  simp [insertAt, List.flatMap_def]

theorem replaced (h : n.Holds (front ++ p :: back)) (hInfo : q.info = p.info) :
    ({ n with propertyData := front.flatMap StoredProperty.bytes ++ (q.bytes ++ back.flatMap StoredProperty.bytes) } :
      Node).Holds (front ++ q :: back) where
  infos := by
    rw [h.infos]
    simp only [List.map_append, List.map_cons, hInfo]
  data := by simp only [List.flatMap_append, List.flatMap_cons]
  names := by
    have hNames := h.names
    simp only [List.map_append, List.map_cons] at hNames ⊢
    rwa [hInfo]

/-- Another value of the type. -/
theorem setPropertyValue (h : n.Holds (front ++ p :: back)) {old v : FixedValue} (hReading : p.value.reading = .fixed old)
    {value : Value} (hValue : host.fixedValue p.info.1 value = .ok v) (typeHint : Str) :
    ∃ m, Node.setPropertyValue host p.info.2 value typeHint n = .ok () m ∧
      m.Holds (front ++ .ofFixed p.info.2 v :: back) := by
  obtain ⟨hVariable, hType⟩ := p.fixed_slotAt hReading typeHint
  have hPiece : ∀ index, ((Change.setFixed p.info.2 p.info.1 value).item
      (slots ((front ++ p :: back).map StoredProperty.toProperty) 0) p.info index).bytes host n.propertyData = .ok v.bytes := by
    intro index
    rw [Change.item, if_pos rfl]
    simp only [Item.bytes, hValue]
    rfl
  have hBuild := h.buildPropertiesWithChange_replaced rfl hPiece
  refine ⟨_, ?_, h.replaced (q := .ofFixed p.info.2 v) (Prod.ext (typename_fixedValue hValue) rfl)⟩
  rw [Node.setPropertyValue, bind_of_ok (x := get) rfl, bind_of_ok (call_ok h.findSlot_middle n),
    bind_of_ok (throwIf_of_not (hVariable _) _ n)]
  rw [hType, bind_of_ok (throwIf_of_not (not_not_intro (p.type_mem_fixedSizeTypes hReading)) _ n),
    bind_of_ok (call_ok hBuild n)]
  rfl

/-- A value that cannot be converted is not written. -/
theorem setPropertyValue_error (h : n.Holds (front ++ p :: back)) {old : FixedValue} (hReading : p.value.reading = .fixed old)
    {value : Value} {e : JsError} (hValue : host.fixedValue p.info.1 value = .error e) (typeHint : Str) :
    ∃ e m, Node.setPropertyValue host p.info.2 value typeHint n = .error e m := by
  obtain ⟨hVariable, hType⟩ := p.fixed_slotAt hReading typeHint
  have hInfo : p.info ∈ n.propertyInfos := by
    rw [h.infos]
    exact List.mem_map_of_mem (by simp)
  rw [Node.setPropertyValue, bind_of_ok (x := get) rfl, bind_of_ok (call_ok h.findSlot_middle n),
    bind_of_ok (throwIf_of_not (hVariable _) _ n)]
  rw [hType, bind_of_ok (throwIf_of_not (not_not_intro (p.type_mem_fixedSizeTypes hReading)) _ n)]
  cases hBuild : (Change.setFixed p.info.2 p.info.1 value).buildPropertiesWithChange host n.propertyInfos n.propertyData with
  | ok parts =>
      obtain ⟨v, hConverted⟩ := Change.fixedValue_of_setFixed hInfo hBuild
      rw [hValue] at hConverted
      cases hConverted
  | error e => exact ⟨e, n, bind_of_error rfl⟩

/-- Some bytes take the place of others. -/
theorem setPropertyValueSpan (h : n.Holds (front ++ p :: back)) {old : List UInt8} (hReading : p.value.reading = .bytes old)
    {data : List UInt8} (hFits : data.length < 2 ^ 32) :
    ∃ m, Node.setPropertyValueSpan host p.info.2 data n = .ok () m ∧
      m.Holds (front ++ .ofBytes p.info (p.typed_bytes hReading).1 data hFits :: back) := by
  have hPiece : ∀ index, ((Change.setVar p.info.2 data).item (slots ((front ++ p :: back).map StoredProperty.toProperty) 0)
      p.info index).bytes host n.propertyData = .ok (leBytes 4 data.length ++ data) := by
    intro index
    rw [Change.item, if_pos rfl]
    rfl
  have hBuild := h.buildPropertiesWithChange_replaced rfl hPiece
  have hHolds := h.replaced (q := .ofBytes p.info (p.typed_bytes hReading).1 data hFits) rfl
  rw [StoredProperty.bytes_ofBytes] at hHolds
  refine ⟨_, ?_, hHolds⟩
  rw [Node.setPropertyValueSpan, bind_of_ok (x := get) rfl, bind_of_ok (call_ok h.findSlot_middle n),
    bind_of_ok (throwIf_of_not (p.bytes_slotAt hReading _) _ n), bind_of_ok (call_ok hBuild n)]
  rfl

/-- Bytes are not written as a value, nor a value as bytes. -/
theorem setPropertyValue_bytes (h : n.Holds (front ++ p :: back)) {old : List UInt8} (hReading : p.value.reading = .bytes old)
    (value : Value) (typeHint : Str) : ∃ e m, Node.setPropertyValue host p.info.2 value typeHint n = .error e m := by
  have hVariable : (slotAt p.toProperty (front.flatMap StoredProperty.bytes).length).isVariable := by
    rw [slotAt, (p.typed_bytes hReading).1]
    rfl
  rw [Node.setPropertyValue, bind_of_ok (x := get) rfl, bind_of_ok (call_ok h.findSlot_middle n),
    bind_of_error (throwIf_of hVariable _ n)]
  exact ⟨_, _, rfl⟩

theorem setPropertyValueSpan_fixed (h : n.Holds (front ++ p :: back)) {old : FixedValue} (hReading : p.value.reading = .fixed old)
    (data : List UInt8) : ∃ e m, Node.setPropertyValueSpan host p.info.2 data n = .error e m := by
  have hFixed : !(slotAt p.toProperty (front.flatMap StoredProperty.bytes).length).isVariable := by
    simpa using (p.fixed_slotAt hReading []).1 (front.flatMap StoredProperty.bytes).length
  rw [Node.setPropertyValueSpan, bind_of_ok (x := get) rfl, bind_of_ok (call_ok h.findSlot_middle n),
    bind_of_error (throwIf_of hFixed _ n)]
  exact ⟨_, _, rfl⟩

theorem deleteProperty (h : n.Holds (front ++ p :: back)) :
    ∃ m, Node.deleteProperty host p.info.2 n = .ok () m ∧ m.Holds (front ++ back) := by
  have hPiece : ∀ index, ((Change.delete p.info.2 : Change Value).item
      (slots ((front ++ p :: back).map StoredProperty.toProperty) 0) p.info index).bytes host n.propertyData = .ok [] := by
    intro index
    rw [Change.item, if_pos rfl]
    rfl
  have hBuild := h.buildPropertiesWithChange_replaced rfl hPiece
  have hFound : ¬∀ info ∈ n.propertyInfos, info.2 ≠ p.info.2 := fun hNone =>
    hNone p.info (by rw [h.infos]; exact List.mem_map_of_mem (by simp)) rfl
  refine ⟨⟨n.propertyInfos.filter fun info => info.2 ≠ p.info.2,
    front.flatMap StoredProperty.bytes ++ back.flatMap StoredProperty.bytes⟩, ?_, ?_, ?_, ?_⟩
  · rw [Node.deleteProperty, bind_of_ok (x := get) rfl, bind_of_ok (throwIf_of_not hFound _ n), bind_of_ok (call_ok hBuild n)]
    rfl
  · have hKept : ∀ info ∈ (front ++ back).map (fun q => q.info), decide (info.2 ≠ p.info.2) = true := by
      intro info hInfo
      obtain ⟨q, hq, rfl⟩ := List.mem_map.mp hInfo
      exact decide_eq_true (h.names_ne q hq)
    rw [List.map_append, List.forall_mem_append] at hKept
    show n.propertyInfos.filter _ = _
    rw [h.infos, List.map_append, List.map_cons, List.filter_append, List.filter_cons_of_neg (by simp),
      List.filter_eq_self.mpr hKept.1, List.filter_eq_self.mpr hKept.2, List.map_append]
  · rw [List.flatMap_append]
  · exact h.names.sublist (((List.sublist_cons_self p back).append_left front).map _)

/-- A property whose name is new is inserted. -/
theorem insertBytes (h : n.Holds properties) (q : StoredProperty) (hNew : ∀ p ∈ properties, p.info.2 ≠ q.info.2) (index : ℤ) :
    ∃ m front back, JavaScript.insertBytes n index q.info q.bytes = .ok m ∧ properties = front ++ back ∧
      m.Holds (front ++ q :: back) := by
  set place := clampIndex index n.propertyInfos.length with hPlace
  have hExists : ¬(n.propertyInfos.any fun other => other.2 = q.info.2) := by
    rw [h.infos]
    simpa using hNew
  have hNames : ((properties.map StoredProperty.toProperty).map fun p => p.info.2).Nodup := by
    rw [List.map_map]
    exact h.names
  have hBuild := buildPropertiesWithChange_written (StoredProperty.all_typed properties) (StoredProperty.all_small properties)
    hNames place q.toProperty
  rw [List.map_map, List.flatMap_map, ← map_insertAt, List.flatMap_map] at hBuild
  have hParts : buildPropertiesWithChange n.propertyInfos n.propertyData place q.bytes =
      .ok ((insertAt properties place q).flatMap StoredProperty.bytes) := by
    rw [h.infos, h.data]
    exact hBuild
  refine ⟨⟨insertAt n.propertyInfos place q.info, (insertAt properties place q).flatMap StoredProperty.bytes⟩,
    properties.take place, properties.drop place, ?_, (List.take_append_drop ..).symm, ?_, rfl, ?_⟩
  · rw [JavaScript.insertBytes, if_neg hExists, ← hPlace]
    dsimp only
    rw [hParts]
    rfl
  · show insertAt n.propertyInfos place q.info = (insertAt properties place q).map fun p => p.info
    rw [map_insertAt, h.infos]
  · show ((insertAt properties place q).map fun p => p.info.2).Nodup
    rw [((perm_insertAt ..).map _).nodup_iff, List.map_cons, List.nodup_cons]
    refine ⟨fun hMem => ?_, h.names⟩
    obtain ⟨p, hp, hName⟩ := List.mem_map.mp hMem
    exact hNew p hp hName

end Changing

end Holds
end Node

end JavaScript
end Wwatp
