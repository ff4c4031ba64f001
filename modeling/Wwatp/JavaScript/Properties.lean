import Wwatp.Tree.PropertyInsertion

/-! The properties of the JavaScript client's `TreeNode`, which writes the length of a value of
variable size in four bytes. -/
namespace Wwatp
namespace JavaScript

open Cxx

/-- What a call can throw. -/
inductive JsError
  | error (message : Str)
  | rangeError
  deriving DecidableEq

abbrev Result := Except JsError

/-- `sizeofType`; `none` for a type of variable size. -/
def sizeofType (type : Str) : Option ℕ :=
  if type = str "int64" ∨ type = str "uint64" ∨ type = str "double" then some 8
  else if type = str "float" then some 4
  else if type = str "bool" then some 1
  else none

theorem sizeofType_eq (type : Str) : sizeofType type = fixedSize type := rfl

/-- An entry of the map that `computeLayout` makes. -/
structure Slot where
  type : Str
  offset : ℕ
  span : ℕ
  isVariable : Bool

/-- `bytes.slice(start, start + length)`. -/
def slice (bytes : List UInt8) (start length : ℕ) : List UInt8 := (bytes.drop start).take length

/-- The loop of `computeLayout`, from an offset on: the entries in the order in which they are set. -/
def computeLayout (propertyData : List UInt8) : List PropertyInfo → ℕ → Result (List (Str × Slot))
  | [], _ => .ok []
  | (type, name) :: rest, offset =>
    match sizeofType type with
    | some size => do
      let more ← computeLayout propertyData rest (offset + size)
      return (name, ⟨type, offset, size, false⟩) :: more
    | none =>
      if propertyData.length < offset + 4 then throw (.error (str "Property data truncated"))
      else
        let span := 4 + leValue (slice propertyData offset 4)
        if propertyData.length < offset + span then throw (.error (str "Property data truncated"))
        else do
          let more ← computeLayout propertyData rest (offset + span)
          return (name, ⟨type, offset, span, true⟩) :: more

/-- `map.get(name)`: the entry that was set last. -/
def slotOf (layout : List (Str × Slot)) (name : Str) : Option Slot :=
  (layout.filter fun entry => entry.1 = name).getLast?.map Prod.snd

/-- `readFixed`; a `DataView` refuses to read past its end. -/
def readFixed (type : Str) (propertyData : List UInt8) (offset : ℕ) : Result FixedValue :=
  match sizeofType type with
  | none => throw (.error (str "Unsupported fixed type: " ++ type))
  | some size =>
    if propertyData.length < offset + size then throw .rangeError
    else match FixedValue.ofBytes type (slice propertyData offset size) with
      | none => throw (.error (str "Unsupported fixed type: " ++ type))
      | some value => .ok value

/-- `layoutOffsets` and the look-up that starts the accessors. -/
def findSlot (infos : List PropertyInfo) (propertyData : List UInt8) (name : Str) : Result Slot := do
  match slotOf (← computeLayout propertyData infos 0) name with
  | none => throw (.error (str "Property not found: " ++ name))
  | some slot => return slot

def getPropertyValue (infos : List PropertyInfo) (propertyData : List UInt8) (name : Str) :
    Result (ℕ × PropertyReading × List UInt8) := do
  let slot ← findSlot infos propertyData name
  if slot.isVariable then
    let data := slice propertyData (slot.offset + 4) (slot.span - 4)
    return (slot.span, .bytes data, data)
  else do
    let value ← readFixed slot.type propertyData slot.offset
    return (slot.span, .fixed value, slice propertyData slot.offset slot.span)

/-- `getPropertyString`, whatever the decoder makes of the bytes. -/
def getPropertyString (utf8Decode : List UInt8 → String) (infos : List PropertyInfo) (propertyData : List UInt8)
    (name : Str) : Result (ℕ × String) := do
  let slot ← findSlot infos propertyData name
  if slot.isVariable then return (slot.span, utf8Decode (slice propertyData (slot.offset + 4) (slot.span - 4)))
  else throw (.error (str "Property is fixed-size; expected variable-size string"))

section Reading

/-! What is read from the slots of a layout. -/

variable {propertyData : List UInt8} {properties : List Property} {p : Property}

/-- The value in a slot. -/
def readSlot (propertyData : List UInt8) (slot : Slot) : Result PropertyReading :=
  if slot.isVariable then .ok (.bytes (slice propertyData (slot.offset + 4) (slot.span - 4)))
  else do return .fixed (← readFixed slot.type propertyData slot.offset)

theorem bind_eq_ok {α β : Type} {x : Result α} {f : α → Result β} {b : β} :
    (x >>= f) = .ok b ↔ ∃ a, x = .ok a ∧ f a = .ok b := by
  cases x <;> simp [bind, Except.bind]

theorem getPropertyValue_eq {infos : List PropertyInfo} {name : Str} {reading : PropertyReading} :
    (∃ span raw, getPropertyValue infos propertyData name = .ok (span, reading, raw)) ↔
      ∃ slot, findSlot infos propertyData name = .ok slot ∧ readSlot propertyData slot = .ok reading := by
  constructor
  · rintro ⟨span, raw, h⟩
    obtain ⟨slot, hSlot, h⟩ := bind_eq_ok.mp h
    refine ⟨slot, hSlot, ?_⟩
    rw [readSlot]
    split_ifs at h ⊢ with hVariable
    · exact congrArg (fun r => Except.ok r.2.1) (Except.ok.inj h)
    · obtain ⟨value, hValue, h⟩ := bind_eq_ok.mp h
      rw [hValue]
      exact congrArg (fun r => Except.ok r.2.1) (Except.ok.inj h)
  · rintro ⟨slot, hSlot, h⟩
    rw [getPropertyValue, hSlot]
    rw [readSlot] at h
    by_cases hVariable : slot.isVariable
    · rw [if_pos hVariable] at h
      obtain rfl := Except.ok.inj h
      exact ⟨slot.span, _, if_pos hVariable⟩
    · rw [if_neg hVariable] at h
      obtain ⟨value, hValue, h⟩ := bind_eq_ok.mp h
      obtain rfl := Except.ok.inj h
      refine ⟨slot.span, slice propertyData slot.offset slot.span, (if_neg hVariable).trans ?_⟩
      rw [hValue]
      rfl

/-- The properties stand one after another in the data, as this client reads them. -/
def Agrees : List Property → List UInt8 → Prop
  | [], _ => True
  | p :: rest, data =>
    match p.value with
    | .fixed value => value.bytes.length ≤ data.length ∧
        FixedValue.ofBytes value.typename (data.take value.bytes.length) = some value ∧
        Agrees rest (data.drop value.bytes.length)
    | .span span _ => 4 ≤ data.length ∧ leValue (data.take 4) = span.bytes.length ∧
        (data.drop 4).take span.bytes.length = span.bytes ∧ Agrees rest (data.drop (4 + span.bytes.length))

/-- An entry of the layout is for a property, and its slot holds the property's value. -/
def EntryOf (propertyData : List UInt8) (p : Property) (entry : Str × Slot) : Prop :=
  entry.1 = p.info.2 ∧ readSlot propertyData entry.2 = .ok p.value.reading

theorem readFixed_eq_ok {value : FixedValue} {offset : ℕ} :
    readFixed value.typename propertyData offset = .ok value ↔
      value.bytes.length ≤ (propertyData.drop offset).length ∧
        FixedValue.ofBytes value.typename ((propertyData.drop offset).take value.bytes.length) = some value := by
  have hPos := (Property.length_bytes_pos value).1
  rw [readFixed, sizeofType_eq, fixedSize_typename, List.length_drop]
  dsimp only
  split_ifs with hShort
  · refine ⟨nofun, fun h => absurd h.1 (by omega)⟩
  · rw [slice]
    refine ⟨fun h => ⟨by omega, ?_⟩, fun h => by rw [h.2]⟩
    split at h
    · cases h
    · next found hFound =>
        rw [hFound, Except.ok.inj h]

/-- The layout has the entries of the properties exactly when the data agree. -/
theorem computeLayout_iff (hTyped : ∀ p ∈ properties, p.WellTyped) (offset : ℕ) :
    (∃ entries, computeLayout propertyData (properties.map Property.info) offset = .ok entries ∧
        List.Forall₂ (EntryOf propertyData) properties entries) ↔ Agrees properties (propertyData.drop offset) := by
  induction properties generalizing offset with
  | nil => exact ⟨fun _ => trivial, fun _ => ⟨[], rfl, .nil⟩⟩
  | cons p rest ih =>
      obtain ⟨hp, hRest⟩ := List.forall_mem_cons.mp hTyped
      rw [Property.WellTyped] at hp
      rw [List.map_cons, Agrees]
      cases hValue : p.value with
      | fixed value =>
          rw [hValue] at hp
          dsimp only at hp ⊢
          rw [List.drop_drop, ← ih hRest (offset + value.bytes.length), ← and_assoc, ← readFixed_eq_ok]
          have hEntry : EntryOf propertyData p (p.info.2, ⟨p.info.1, offset, value.bytes.length, false⟩) ↔
              readFixed value.typename propertyData offset = .ok value := by
            rw [EntryOf, readSlot, hValue, hp]
            simp only [true_and, Bool.false_eq_true, if_false, PropertyValue.reading]
            cases readFixed value.typename propertyData offset <;> simp [bind, Except.bind, pure, Except.pure]
          have hLayout : computeLayout propertyData (p.info :: rest.map Property.info) offset =
              (do let more ← computeLayout propertyData (rest.map Property.info) (offset + value.bytes.length)
                  return (p.info.2, ⟨p.info.1, offset, value.bytes.length, false⟩) :: more) := by
            rw [computeLayout, sizeofType_eq, hp, fixedSize_typename]
          rw [hLayout]
          constructor
          · rintro ⟨entries, h, hEntries⟩
            obtain ⟨more, hMore, h⟩ := bind_eq_ok.mp h
            obtain rfl := Except.ok.inj h
            obtain ⟨hFirst, hOthers⟩ := List.forall₂_cons.mp hEntries
            exact ⟨hEntry.mp hFirst, more, hMore, hOthers⟩
          · rintro ⟨hRead, more, hMore, hOthers⟩
            exact ⟨_, by rw [hMore]; rfl, List.forall₂_cons.mpr ⟨hEntry.mpr hRead, hOthers⟩⟩
      | span span hFits =>
          rw [hValue] at hp
          dsimp only at hp ⊢
          simp only [List.length_drop, List.drop_drop]
          set length := leValue (slice propertyData offset 4) with hLength
          have hEntry : EntryOf propertyData p (p.info.2, ⟨p.info.1, offset, 4 + length, true⟩) ↔
              slice propertyData (offset + 4) length = span.bytes := by
            rw [EntryOf, readSlot, hValue, if_pos rfl, Nat.add_sub_cancel_left]
            simp [PropertyValue.reading]
          have hLayout (h : offset + (4 + length) ≤ propertyData.length) :
              computeLayout propertyData (p.info :: rest.map Property.info) offset =
                (do let more ← computeLayout propertyData (rest.map Property.info) (offset + (4 + length))
                    return (p.info.2, ⟨p.info.1, offset, 4 + length, true⟩) :: more) := by
            rw [computeLayout, sizeofType_eq, hp]
            dsimp only
            rw [if_neg (by omega), if_neg (by omega)]
          constructor
          · rintro ⟨entries, h, hEntries⟩
            have hLong : offset + (4 + length) ≤ propertyData.length := by
              rw [computeLayout, sizeofType_eq, hp] at h
              dsimp only at h
              split_ifs at h with hShort hTruncated
              omega
            rw [hLayout hLong] at h
            obtain ⟨more, hMore, h⟩ := bind_eq_ok.mp h
            obtain rfl := Except.ok.inj h
            obtain ⟨hFirst, hOthers⟩ := List.forall₂_cons.mp hEntries
            have hData := hEntry.mp hFirst
            have hSame : length = span.bytes.length := by
              rw [← hData, slice, List.length_take, List.length_drop]
              omega
            refine ⟨by omega, hSame, by rw [← hSame]; exact hData, (ih hRest _).mp ⟨more, ?_, hOthers⟩⟩
            rwa [← hSame]
          · rintro ⟨hEnough, hSame, hData, hAgrees⟩
            have hSame : length = span.bytes.length := hSame
            have hLong : span.bytes.length ≤ propertyData.length - (offset + 4) := by
              rw [← List.length_drop, ← hData]
              simp
            obtain ⟨more, hMore, hOthers⟩ := (ih hRest _).mpr hAgrees
            rw [← hSame] at hMore hData
            exact ⟨_, by rw [hLayout (by omega), hMore]; rfl, List.forall₂_cons.mpr ⟨hEntry.mpr hData, hOthers⟩⟩

/-- The entry of a name that no other entry has. -/
theorem slotOf_of_nodup {layout : List (Str × Slot)} (hNames : (layout.map Prod.fst).Nodup) {entry : Str × Slot}
    (h : entry ∈ layout) : slotOf layout entry.1 = some entry.2 := by
  have hOnly : layout.filter (fun other => other.1 = entry.1) = [entry] := by
    induction layout with
    | nil => cases h
    | cons first rest ih =>
        obtain ⟨hFirst, hRest⟩ := List.nodup_cons.mp hNames
        rcases List.mem_cons.mp h with rfl | hLater
        · have hNone : rest.filter (fun other => other.1 = entry.1) = [] :=
            List.filter_eq_nil_iff.mpr fun other hOther hName =>
              hFirst (List.mem_map.mpr ⟨other, hOther, of_decide_eq_true hName⟩)
          rw [List.filter_cons_of_pos (by simp), hNone]
        · have hNe : first.1 ≠ entry.1 := fun hName => hFirst (List.mem_map.mpr ⟨entry, hLater, hName.symm⟩)
          rw [List.filter_cons_of_neg (by simpa using hNe), ih hRest hLater]
  rw [slotOf, hOnly]
  rfl

theorem keys_computeLayout {infos : List PropertyInfo} {offset : ℕ} {entries : List (Str × Slot)}
    (h : computeLayout propertyData infos offset = .ok entries) : entries.map Prod.fst = infos.map Prod.snd := by
  induction infos generalizing offset entries with
  | nil =>
      obtain rfl := Except.ok.inj h
      rfl
  | cons info rest ih =>
      have hCons {entry : Str × Slot} {next : ℕ} (hName : entry.1 = info.2)
          (h : (do let more ← computeLayout propertyData rest next
                   return entry :: more) = Except.ok entries) : entries.map Prod.fst = (info :: rest).map Prod.snd := by
        obtain ⟨more, hMore, h⟩ := bind_eq_ok.mp h
        obtain rfl := Except.ok.inj h
        rw [List.map_cons, List.map_cons, ih hMore, hName]
      rw [computeLayout] at h
      split at h
      · exact hCons rfl h
      · dsimp only at h
        split_ifs at h
        exact hCons rfl h

/-- The client reads every property exactly when the data agree. -/
theorem getPropertyValue_iff (hTyped : ∀ p ∈ properties, p.WellTyped)
    (hNames : (properties.map fun p => p.info.2).Nodup) :
    (∀ p ∈ properties, ∃ span raw,
        getPropertyValue (properties.map Property.info) propertyData p.info.2 = .ok (span, p.value.reading, raw)) ↔
      Agrees properties propertyData := by
  have hFind {entries : List (Str × Slot)} (hLayout : computeLayout propertyData (properties.map Property.info) 0 = .ok entries)
      {entry : Str × Slot} (hEntry : entry ∈ entries) :
      findSlot (properties.map Property.info) propertyData entry.1 = .ok entry.2 := by
    have hKeys := keys_computeLayout hLayout
    rw [List.map_map] at hKeys
    rw [findSlot, hLayout]
    show (match slotOf entries entry.1 with
      | none => _
      | some slot => _) = _
    rw [slotOf_of_nodup (by rw [hKeys]; exact hNames) hEntry]
    rfl
  simp only [getPropertyValue_eq]
  rw [← List.drop_zero (l := propertyData), ← computeLayout_iff hTyped 0, List.drop_zero]
  constructor
  · intro hRead
    cases properties with
    | nil => exact ⟨[], rfl, .nil⟩
    | cons first rest =>
        obtain ⟨slot, hSlot, -⟩ := hRead first List.mem_cons_self
        obtain ⟨entries, hLayout, -⟩ := bind_eq_ok.mp hSlot
        have hKeys := keys_computeLayout hLayout
        have hLength : (first :: rest).length = entries.length := by
          have hLengths := congrArg List.length hKeys
          simp only [List.length_map] at hLengths
          exact hLengths.symm
        refine ⟨entries, hLayout, List.forall₂_iff_get.mpr ⟨hLength, fun i hi hi' => ?_⟩⟩
        have hName : (entries.get ⟨i, hi'⟩).1 = ((first :: rest).get ⟨i, hi⟩).info.2 := by
          have hAt := congrArg (fun l => l[i]?) hKeys
          simp only [List.getElem?_map, List.getElem?_eq_getElem hi', List.getElem?_eq_getElem hi, Option.map_some] at hAt
          exact Option.some.inj hAt
        obtain ⟨slot, hSlot, hValue⟩ := hRead _ (List.get_mem (first :: rest) ⟨i, hi⟩)
        rw [← hName, hFind hLayout (List.get_mem _ _)] at hSlot
        obtain rfl := Except.ok.inj hSlot
        exact ⟨hName, hValue⟩
  · rintro ⟨entries, hLayout, hEntries⟩ p hp
    obtain ⟨i, rfl⟩ := List.get_of_mem hp
    obtain ⟨hLength, hEach⟩ := List.forall₂_iff_get.mp hEntries
    obtain ⟨hName, hValue⟩ := hEach i i.2 (hLength ▸ i.2)
    refine ⟨_, ?_, hValue⟩
    have hFound := hFind hLayout (List.get_mem entries ⟨i, hLength ▸ i.2⟩)
    rwa [hName] at hFound

end Reading

end JavaScript
end Wwatp
