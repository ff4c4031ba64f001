import Wwatp.JavaScript.Legible

/-! Nodes whose properties are inserted in JavaScript. -/
namespace Wwatp
namespace JavaScript

open Cxx

/-- The properties of the JavaScript client's `TreeNode`. -/
structure Node where
  propertyInfos : List PropertyInfo := []
  propertyData : List UInt8 := []

def clampIndex (index : ℤ) (length : ℕ) : ℕ := if index < 0 then length else min index.toNat length

def insertAt {α : Type} (items : List α) (index : ℕ) (item : α) : List α := items.take index ++ item :: items.drop index

/-- The bytes of a slot that are copied; what the data do not have stays zero. -/
def copySlot (propertyData : List UInt8) (slot : Slot) : List UInt8 :=
  let bytes := slice propertyData slot.offset slot.span
  bytes ++ List.replicate (slot.span - bytes.length) 0

/-- `buildPropertiesWithChange` for an insertion. -/
def buildPropertiesWithChange (infos : List PropertyInfo) (propertyData : List UInt8) (index : ℕ) (value : List UInt8) :
    Result (List UInt8) := do
  let layout ← computeLayout propertyData infos 0
  let items := infos.map fun info => ((slotOf layout info.2).map (copySlot propertyData)).getD []
  return (insertAt items index value).flatten

/-- What the functions that insert a property share: the bytes of the value, with its length, go to
the place of the index. -/
def insertBytes (n : Node) (index : ℤ) (info : PropertyInfo) (value : List UInt8) : Result Node := do
  if n.propertyInfos.any fun other => other.2 = info.2 then throw (.error (str "Property exists: " ++ info.2))
  else
    let safeIndex := clampIndex index n.propertyInfos.length
    let parts ← buildPropertiesWithChange n.propertyInfos n.propertyData safeIndex value
    return ⟨insertAt n.propertyInfos safeIndex info, parts⟩

def insertProperty (n : Node) (index : ℤ) (name : Str) (value : FixedValue) : Result Node :=
  insertBytes n index (value.typename, name) value.bytes

def insertPropertySpan (n : Node) (index : ℤ) (name type : Str) (data : List UInt8) : Result Node :=
  insertBytes n index (type, name) (leBytes 4 data.length ++ data)

def insertPropertyString (n : Node) (index : ℤ) (name type : Str) (value : String) : Result Node :=
  insertPropertySpan n index name type value.toUTF8.data.toList

/-- A call that inserts a property. An array holds fewer than 2³² bytes. -/
inductive Insertion
  | property (index : ℤ) (name : Str) (value : FixedValue)
  | string (index : ℤ) (name type : Str) (value : String) (hFits : value.toUTF8.data.toList.length < 2 ^ 32)
  | span (index : ℤ) (name type : Str) (data : List UInt8) (hFits : data.length < 2 ^ 32)

/-- A property whose value is some bytes. -/
def bytesProperty (name type : Str) (data : List UInt8) (hFits : data.length < 2 ^ 32) : Property :=
  ⟨(type, name), .span (.ofSignal (.payload ⟨0, 0x00, .ofNat data.length⟩) data)
    (by rw [SharedSpan.size_eq_bytes_length, SharedSpan.bytes_ofSignal]; omega)⟩

namespace Insertion

def perform (n : Node) : Insertion → Result Node
  | property index name value => insertProperty n index name value
  | string index name type value _ => insertPropertyString n index name type value
  | span index name type data _ => insertPropertySpan n index name type data

/-- A node without properties after some calls that return. -/
def build (insertions : List Insertion) : Result Node := insertions.foldlM (fun n insertion => insertion.perform n) {}

/-- What a call inserts. -/
def inserted : Insertion → Property
  | property _ name value => ⟨(value.typename, name), .fixed value⟩
  | string _ name type value hFits => bytesProperty name type value.toUTF8.data.toList hFits
  | span _ name type data hFits => bytesProperty name type data hFits

def index : Insertion → ℤ
  | property index _ _ => index
  | string index _ _ _ _ => index
  | span index _ _ _ _ => index

def place (properties : List Property) (insertion : Insertion) : List Property :=
  insertAt properties (clampIndex insertion.index properties.length) insertion.inserted

/-- The properties that some calls insert, in their order. -/
def placed (insertions : List Insertion) : List Property := insertions.foldl place []

end Insertion

/-- The bytes that JavaScript writes for a property. -/
def written (p : Property) : List UInt8 :=
  match p.value with
  | .fixed value => value.bytes
  | .span data _ => leBytes 4 data.bytes.length ++ data.bytes

section Building

variable {properties : List Property} {n m : Node} {insertions : List Insertion} {insertion : Insertion} {p q : Property}

theorem mem_insertAt {α : Type} {items : List α} {index : ℕ} {item other : α} :
    other ∈ insertAt items index item ↔ other ∈ items ∨ other = item := by
  have hSplit : other ∈ items ↔ other ∈ items.take index ∨ other ∈ items.drop index := by
    rw [← List.mem_append, List.take_append_drop]
  rw [hSplit, insertAt, List.mem_append, List.mem_cons]
  tauto

theorem perm_insertAt {α : Type} (items : List α) (index : ℕ) (item : α) : (insertAt items index item).Perm (item :: items) := by
  rw [insertAt]
  refine List.perm_middle.trans ?_
  rw [List.take_append_drop]

theorem map_insertAt {α β : Type} (f : α → β) (items : List α) (index : ℕ) (item : α) :
    (insertAt items index item).map f = insertAt (items.map f) index (f item) := by
  simp [insertAt, List.map_take, List.map_drop]

/-- Every call has left its property, and there are no others. -/
theorem Insertion.mem_placed : p ∈ Insertion.placed insertions ↔ ∃ insertion ∈ insertions, insertion.inserted = p := by
  have hFold (properties : List Property) :
      p ∈ insertions.foldl Insertion.place properties ↔ p ∈ properties ∨ ∃ insertion ∈ insertions, insertion.inserted = p := by
    induction insertions generalizing properties with
    | nil => simp
    | cons insertion insertions ih =>
        rw [List.foldl_cons, ih, Insertion.place, mem_insertAt, or_assoc, List.exists_mem_cons_iff, eq_comm (a := p)]
  rw [Insertion.placed, hFold]
  simp

/-- The slot of a property that stands from an offset on. -/
def slotAt (p : Property) (offset : ℕ) : Slot := ⟨p.info.1, offset, (written p).length, (fixedSize p.info.1).isNone⟩

/-- The slots of properties that stand one after another from an offset on. -/
def slots : List Property → ℕ → List (Str × Slot)
  | [], _ => []
  | p :: rest, offset => (p.info.2, slotAt p offset) :: slots rest (offset + (written p).length)

/-- The layout of properties that stand in the data. -/
theorem computeLayout_slots (hTyped : ∀ p ∈ properties, p.WellTyped)
    (hSmall : ∀ p ∈ properties, (written p).length < 2 ^ 32 + 4) (front : List UInt8) :
    computeLayout (front ++ properties.flatMap written) (properties.map Property.info) front.length =
      .ok (slots properties front.length) := by
  induction properties generalizing front with
  | nil => rfl
  | cons p rest ih =>
      obtain ⟨hp, hRest⟩ := List.forall_mem_cons.mp hTyped
      obtain ⟨hLength, hSmall⟩ := List.forall_mem_cons.mp hSmall
      have hLayout := ih hRest hSmall (front ++ written p)
      rw [List.append_assoc, List.length_append, ← List.flatMap_cons] at hLayout
      rw [Property.WellTyped] at hp
      rw [List.map_cons, computeLayout, sizeofType_eq, slots, slotAt]
      cases hValue : p.value with
      | fixed value =>
          rw [hValue] at hp
          dsimp only at hp
          have hWritten : written p = value.bytes := by rw [written, hValue]
          rw [hWritten] at hLayout
          rw [hWritten, hp, fixedSize_typename]
          dsimp only
          rw [hLayout]
          rfl
      | span data hFits =>
          rw [hValue] at hp
          dsimp only at hp
          have hWritten : written p = leBytes 4 data.bytes.length ++ data.bytes := by rw [written, hValue]
          have hSpan : (written p).length = 4 + data.bytes.length := by rw [hWritten, List.length_append, leBytes_length]
          rw [hSpan] at hLength hLayout
          have hTotal : (front ++ (p :: rest).flatMap written).length =
              front.length + (4 + data.bytes.length) + (rest.flatMap written).length := by
            rw [List.flatMap_cons, hWritten]
            simp only [List.length_append, leBytes_length]
            omega
          have hHeader : leValue (slice (front ++ (p :: rest).flatMap written) front.length 4) = data.bytes.length := by
            rw [slice, List.drop_left, List.flatMap_cons, hWritten, List.append_assoc, List.take_left' (leBytes_length _ _),
              leValue_leBytes (by omega)]
          rw [hp, hSpan]
          dsimp only
          rw [if_neg (by omega), hHeader, if_neg (by omega), hLayout]
          rfl

/-- Every slot has the bytes of its property. -/
theorem forall₂_slots (properties : List Property) (front : List UInt8) :
    List.Forall₂ (fun p entry => entry.1 = p.info.2 ∧ entry.2.span = (written p).length ∧
      slice (front ++ properties.flatMap written) entry.2.offset entry.2.span = written p) properties
      (slots properties front.length) := by
  induction properties generalizing front with
  | nil => exact .nil
  | cons p rest ih =>
      have hRest := ih (front ++ written p)
      rw [List.append_assoc, List.length_append, ← List.flatMap_cons] at hRest
      refine .cons ⟨rfl, rfl, ?_⟩ hRest
      rw [slotAt, slice, List.drop_left, List.flatMap_cons, List.take_left]

/-- Of a slot that is in the data its bytes are copied. -/
theorem copySlot_of_length {data : List UInt8} {slot : Slot} (h : slot.span = (slice data slot.offset slot.span).length) :
    copySlot data slot = slice data slot.offset slot.span := by
  rw [copySlot, ← h, Nat.sub_self, List.replicate_zero, List.append_nil]

theorem computeLayout_written (hTyped : ∀ p ∈ properties, p.WellTyped)
    (hSmall : ∀ p ∈ properties, (written p).length < 2 ^ 32 + 4) (front : List UInt8) :
    ∃ entries, computeLayout (front ++ properties.flatMap written) (properties.map Property.info) front.length = .ok entries ∧
      List.Forall₂ (fun p entry => entry.1 = p.info.2 ∧
        copySlot (front ++ properties.flatMap written) entry.2 = written p) properties entries := by
  refine ⟨_, computeLayout_slots hTyped hSmall front, (forall₂_slots properties front).imp ?_⟩
  rintro p entry ⟨hName, hSpan, hSlice⟩
  refine ⟨hName, ?_⟩
  rw [copySlot_of_length (by rw [hSlice, hSpan]), hSlice]

/-- The data with another property. -/
theorem buildPropertiesWithChange_written (hTyped : ∀ p ∈ properties, p.WellTyped)
    (hSmall : ∀ p ∈ properties, (written p).length < 2 ^ 32 + 4) (hNames : (properties.map fun p => p.info.2).Nodup)
    (index : ℕ) (p : Property) :
    buildPropertiesWithChange (properties.map Property.info) (properties.flatMap written) index (written p) =
      .ok ((insertAt properties index p).flatMap written) := by
  obtain ⟨entries, hLayout, hEntries⟩ := computeLayout_written hTyped hSmall []
  rw [List.nil_append, List.length_nil] at hLayout
  have hKeys := keys_computeLayout hLayout
  rw [List.map_map] at hKeys
  have hNodup : (entries.map Prod.fst).Nodup := by
    rw [hKeys]
    exact hNames
  have hItems : (properties.map Property.info).map
      (fun info => ((slotOf entries info.2).map (copySlot (properties.flatMap written))).getD []) = properties.map written := by
    rw [List.map_map]
    apply List.map_congr_left
    intro q hq
    obtain ⟨i, rfl⟩ := List.get_of_mem hq
    obtain ⟨hLength, hEach⟩ := List.forall₂_iff_get.mp hEntries
    obtain ⟨hName, hCopy⟩ := hEach i i.2 (hLength ▸ i.2)
    have hSlot := slotOf_of_nodup hNodup (List.get_mem entries ⟨i, hLength ▸ i.2⟩)
    rw [hName] at hSlot
    rw [Function.comp_apply, hSlot, Option.map_some, Option.getD_some]
    exact hCopy
  rw [buildPropertiesWithChange, hLayout]
  show Except.ok _ = _
  rw [hItems, ← map_insertAt, List.flatMap_def]

/-- What is known of a node that has been built so far. -/
structure Built (n : Node) (properties : List Property) : Prop where
  infos : n.propertyInfos = properties.map Property.info
  names : (properties.map fun p => p.info.2).Nodup
  data : (∀ p ∈ properties, p.WellTyped) → n.propertyData = properties.flatMap written

theorem Insertion.perform_eq (n : Node) (insertion : Insertion) :
    insertion.perform n = insertBytes n insertion.index insertion.inserted.info (written insertion.inserted) := by
  cases insertion <;> simp only [perform, insertProperty, insertPropertyString, insertPropertySpan, index, inserted, written,
    bytesProperty, SharedSpan.bytes_ofSignal]

theorem Insertion.length_written (insertion : Insertion) : (written insertion.inserted).length < 2 ^ 32 + 4 := by
  cases insertion with
  | property index name value =>
      have hLength := (Property.length_bytes_pos value).2
      simp only [inserted, written]
      omega
  | string index name type value hFits =>
      simp only [inserted, written, bytesProperty, SharedSpan.bytes_ofSignal, List.length_append, leBytes_length]
      omega
  | span index name type data hFits =>
      simp only [inserted, written, bytesProperty, SharedSpan.bytes_ofSignal, List.length_append, leBytes_length]
      omega

theorem Built.perform (hBuilt : Built n properties) (hSmall : ∀ p ∈ properties, (written p).length < 2 ^ 32 + 4)
    (h : insertion.perform n = .ok m) : Built m (insertion.place properties) := by
  rw [Insertion.perform_eq, insertBytes] at h
  split_ifs at h with hExists
  obtain ⟨parts, hParts, h⟩ := bind_eq_ok.mp h
  obtain rfl := Except.ok.inj h
  rw [hBuilt.infos, List.length_map] at hParts
  refine ⟨?_, ?_, fun hTyped => ?_⟩
  · rw [Insertion.place, map_insertAt, hBuilt.infos, List.length_map]
  · rw [Insertion.place, ((perm_insertAt ..).map _).nodup_iff, List.map_cons, List.nodup_cons]
    refine ⟨fun hMem => hExists ?_, hBuilt.names⟩
    obtain ⟨q, hq, hName⟩ := List.mem_map.mp hMem
    rw [hBuilt.infos]
    exact List.any_eq_true.mpr ⟨q.info, List.mem_map_of_mem hq, decide_eq_true hName⟩
  · have hEarlier : ∀ q ∈ properties, q.WellTyped := fun q hq => hTyped q (mem_insertAt.mpr (.inl hq))
    rw [hBuilt.data hEarlier, buildPropertiesWithChange_written hEarlier hSmall hBuilt.names] at hParts
    exact (Except.ok.inj hParts).symm

theorem Built.foldlM {start : Node} (hStart : Built start properties)
    (hSmall : ∀ p ∈ properties, (written p).length < 2 ^ 32 + 4)
    (h : insertions.foldlM (fun n insertion => insertion.perform n) start = .ok n) :
    Built n (insertions.foldl Insertion.place properties) := by
  induction insertions generalizing start properties with
  | nil =>
      obtain rfl := Except.ok.inj h
      exact hStart
  | cons insertion insertions ih =>
      rw [List.foldlM_cons] at h
      obtain ⟨next, hNext, hRest⟩ := bind_eq_ok.mp h
      refine ih (hStart.perform hSmall hNext) (fun p hp => ?_) hRest
      rcases mem_insertAt.mp hp with hOld | rfl
      · exact hSmall p hOld
      · exact insertion.length_written

theorem built_of_build (h : Insertion.build insertions = .ok n) : Built n (Insertion.placed insertions) :=
  Built.foldlM ⟨rfl, List.nodup_nil, fun _ => rfl⟩ nofun h

end Building

end JavaScript
end Wwatp
