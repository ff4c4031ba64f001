import Wwatp.Cxx.Filling
import Wwatp.JavaScript.BuiltNodes

/-! `buildPropertiesWithChange`: one pass over the properties finds the length of the new data, another one fills
them. -/
namespace Wwatp
namespace JavaScript

open Cxx

/-- How JavaScript converts its values and its texts; a conversion can throw. -/
structure Host (Value Text : Type) where
  typeOf : Value → Str
  toBigInt : Value → Result ℤ
  /-- The bits of `Number(value)`. -/
  toNumber : Value → Result UInt64
  toFloat : UInt64 → UInt32
  truthy : Value → Bool
  utf8Encode : Text → Result (List UInt8)

variable {Value Text : Type}

def fixedSizeTypes : List Str := [str "int64", str "uint64", str "double", str "float", str "bool"]

theorem mem_fixedSizeTypes_iff (type : Str) : type ∈ fixedSizeTypes ↔ sizeofType type ≠ none := by
  rw [fixedSizeTypes, sizeofType]
  generalize str "int64" = int64, str "uint64" = uint64, str "double" = double, str "float" = float, str "bool" = bool
  split_ifs with hWord hHalf hByte <;> simp [*]
  tauto

theorem typename_mem_fixedSizeTypes (v : FixedValue) : v.typename ∈ fixedSizeTypes := by
  rw [mem_fixedSizeTypes_iff, sizeofType_eq, fixedSize_typename]
  nofun

/-- The value that `writeFixed` writes. -/
def Host.fixedValue (host : Host Value Text) (type : Str) (value : Value) : Result FixedValue :=
  if type = str "int64" then do return .int64 (Int64.ofInt (← host.toBigInt value))
  else if type = str "uint64" then do return .uint64 (UInt64.ofInt (← host.toBigInt value))
  else if type = str "double" then do return .double (← host.toNumber value)
  else if type = str "float" then do return .float (host.toFloat (← host.toNumber value))
  else if type = str "bool" then return .bool (host.truthy value)
  else throw (.error (str "Unsupported fixed type: " ++ type))

def Host.writeFixed (host : Host Value Text) (type : Str) (value : Value) (out : Filling UInt8) : Result (Filling UInt8) := do
  let written ← host.fixedValue type value
  let out ← out.set .rangeError written.bytes
  return out.advance written.bytes.length

/-- The length of a value of variable size and the value; the length is taken modulo 2³². -/
def writeVariable (data : List UInt8) (out : Filling UInt8) : Result (Filling UInt8) := do
  let out ← out.set .rangeError (leBytes 4 data.length)
  let out := out.advance 4
  let out ← out.set .rangeError data
  return out.advance data.length

inductive Change (Value : Type)
  | setFixed (name type : Str) (value : Value)
  | setVar (name : Str) (data : List UInt8)
  | delete (name : Str)
  | insertFixed (index : ℕ) (name type : Str) (value : Value)
  | insertVar (index : ℕ) (name type : Str) (data : List UInt8)

/-- What the second pass does with a property; values are those of the change. -/
inductive Mode (Value : Type)
  | copy
  | writeFixed (value : Value)
  | writeVar (data : List UInt8)
  | skip

structure Item (Value : Type) where
  index : ℕ
  type : Str
  mode : Mode Value
  span : ℕ
  slot : Option Slot

namespace Change

/-- What the first pass makes of a property. -/
def item (change : Change Value) (layout : List (Str × Slot)) (info : PropertyInfo) (index : ℕ) : Item Value :=
  let slot := slotOf layout info.2
  let copied : Item Value := ⟨index, info.1, .copy, (slot.map Slot.span).getD 0, slot⟩
  match change with
  | setFixed name _ value =>
    if name = info.2 then ⟨index, info.1, .writeFixed value, (sizeofType info.1).getD 0, slot⟩ else copied
  | setVar name data => if name = info.2 then ⟨index, info.1, .writeVar data, 4 + data.length, slot⟩ else copied
  | delete name => if name = info.2 then ⟨index, info.1, .skip, 0, slot⟩ else copied
  | _ => copied

/-- The place of a property that is inserted. -/
def index : Change Value → Option ℕ
  | insertFixed index _ _ _ => some index
  | insertVar index _ _ _ => some index
  | _ => none

def insertedSpan : Change Value → ℕ
  | insertFixed _ _ type _ => (sizeofType type).getD 0
  | insertVar _ _ _ data => 4 + data.length
  | _ => 0

def writeInserted (host : Host Value Text) : Change Value → Filling UInt8 → Result (Filling UInt8)
  | insertFixed _ _ type value => host.writeFixed type value
  | insertVar _ _ _ data => writeVariable data
  | _ => fun out => .ok out

end Change

namespace Item

/-- What the second pass writes for a property. -/
def write (host : Host Value Text) (propertyData : List UInt8) (it : Item Value) (out : Filling UInt8) :
    Result (Filling UInt8) :=
  match it.mode, it.slot with
  | .skip, _ => .ok out
  | .copy, none => throw (.error (str "Cannot read properties of undefined (reading 'offset')"))
  | .copy, some slot => do
    let out ← out.set .rangeError (slice propertyData slot.offset slot.span)
    return out.advance slot.span
  | .writeFixed value, _ => host.writeFixed it.type value out
  | .writeVar data, _ => writeVariable data out

end Item

/-- A property is inserted before the one at its place. -/
def Change.writeBefore (change : Change Value) (host : Host Value Text) (index : ℕ) (out : Filling UInt8) :
    Result (Filling UInt8) :=
  if change.index = some index then change.writeInserted host out else .ok out

/-- A property is inserted after all others. -/
def Change.writeLast (change : Change Value) (host : Host Value Text) (count : ℕ) (out : Filling UInt8) :
    Result (Filling UInt8) :=
  if ∃ index ∈ change.index, count ≤ index then change.writeInserted host out else .ok out

/-- The second pass at a property. -/
def Change.fill (change : Change Value) (host : Host Value Text) (propertyData : List UInt8) (out : Filling UInt8)
    (it : Item Value) : Result (Filling UInt8) := do
  let out ← change.writeBefore host it.index out
  it.write host propertyData out

/-- The data of the properties with a change. -/
def Change.buildPropertiesWithChange (change : Change Value) (host : Host Value Text) (infos : List PropertyInfo) (propertyData : List UInt8) :
    Result (List UInt8) := do
  let layout ← computeLayout propertyData infos 0
  let items := infos.zipIdx.map fun (info, index) => change.item layout info index
  let newLength := (items.map Item.span).sum + change.insertedSpan
  let out ← items.foldlM (change.fill host propertyData) ⟨List.replicate newLength 0, 0⟩
  let out ← change.writeLast host items.length out
  return out.buffer

/-- The bytes that the second pass writes for a property. -/
def Item.bytes (host : Host Value Text) (propertyData : List UInt8) (it : Item Value) : Result (List UInt8) :=
  match it.mode, it.slot with
  | .skip, _ => .ok []
  | .copy, none => throw (.error (str "Cannot read properties of undefined (reading 'offset')"))
  | .copy, some slot => .ok (copySlot propertyData slot)
  | .writeFixed value, _ => do return (← host.fixedValue it.type value).bytes
  | .writeVar data, _ => .ok (leBytes 4 data.length ++ data)

/-- The bytes of a property that is inserted. -/
def Change.insertedBytes (host : Host Value Text) : Change Value → Result (List UInt8)
  | insertFixed _ _ type value => do return (← host.fixedValue type value).bytes
  | insertVar _ _ _ data => .ok (leBytes 4 data.length ++ data)
  | _ => .ok []

/-- The name of the property that a change replaces or deletes. -/
def Change.target : Change Value → Option Str
  | setFixed name _ _ => some name
  | setVar name _ => some name
  | delete name => some name
  | _ => none

section Passes

variable {host : Host Value Text} {change : Change Value} {propertyData inserted piece : List UInt8} {infos : List PropertyInfo}
  {layout : List (Str × Slot)} {pieces : List (List UInt8)}

theorem typename_fixedValue {type : Str} {value : Value} {v : FixedValue} (h : host.fixedValue type value = .ok v) :
    v.typename = type := by
  rw [Host.fixedValue] at h
  split_ifs at h with hInt64 hUint64 hDouble hFloat hBool
  · obtain ⟨n, -, h⟩ := bind_eq_ok.mp h
    rw [← Except.ok.inj h, hInt64, FixedValue.typename]
  · obtain ⟨n, -, h⟩ := bind_eq_ok.mp h
    rw [← Except.ok.inj h, hUint64, FixedValue.typename]
  · obtain ⟨n, -, h⟩ := bind_eq_ok.mp h
    rw [← Except.ok.inj h, hDouble, FixedValue.typename]
  · obtain ⟨n, -, h⟩ := bind_eq_ok.mp h
    rw [← Except.ok.inj h, hFloat, FixedValue.typename]
  · rw [← Except.ok.inj h, hBool, FixedValue.typename]

theorem length_fixedValue {type : Str} {value : Value} {v : FixedValue} (h : host.fixedValue type value = .ok v) :
    v.bytes.length = (sizeofType type).getD 0 := by
  rw [← typename_fixedValue h, sizeofType_eq, fixedSize_typename, Option.getD_some]

theorem fills_writeFixed {type : Str} {value : Value} {v : FixedValue} (h : host.fixedValue type value = .ok v) :
    Fills 0 (host.writeFixed type value) v.bytes := by
  have hWrite : host.writeFixed type value =
      fun out => do let out ← out.set .rangeError v.bytes; return out.advance v.bytes.length := by
    funext out
    rw [Host.writeFixed, h]
    rfl
  rw [hWrite]
  exact fills_set_exactly _ _

theorem fills_writeVariable (data : List UInt8) : Fills 0 (writeVariable data) (leBytes 4 data.length ++ data) := by
  have hLength : Fills (0 : UInt8) (fun out => do let out ← out.set JsError.rangeError (leBytes 4 data.length); return out.advance 4)
      (leBytes 4 data.length) := by
    have h : Fills (0 : UInt8) _ _ := fills_set_exactly JsError.rangeError (leBytes 4 data.length)
    rwa [leBytes_length] at h
  have hBoth := hLength.bind (fills_set_exactly JsError.rangeError data)
  simp only [bind_assoc, pure_bind] at hBoth
  exact hBoth

theorem length_slice_le (bytes : List UInt8) (start length : ℕ) : (slice bytes start length).length ≤ length := by
  rw [slice, List.length_take]
  omega

theorem length_copySlot (data : List UInt8) (slot : Slot) : (copySlot data slot).length = slot.span := by
  have h := length_slice_le data slot.offset slot.span
  simp only [copySlot, List.length_append, List.length_replicate]
  omega

theorem Item.fills_write {it : Item Value} (h : it.bytes host propertyData = .ok piece) :
    Fills 0 (it.write host propertyData) piece := by
  obtain ⟨index, type, mode, span, slot⟩ := it
  cases mode with
  | skip =>
      obtain rfl := Except.ok.inj h
      exact fills_nothing
  | copy =>
      cases slot with
      | none => cases h
      | some slot =>
          obtain rfl := Except.ok.inj h
          have hFills : Fills (0 : UInt8) _ _ := fills_set JsError.rangeError (slice propertyData slot.offset slot.span)
            (slot.span - (slice propertyData slot.offset slot.span).length)
          rwa [Nat.add_sub_cancel' (length_slice_le ..)] at hFills
  | writeFixed value =>
      obtain ⟨v, hValue, h⟩ := bind_eq_ok.mp h
      obtain rfl := Except.ok.inj h
      exact fills_writeFixed hValue
  | writeVar data =>
      obtain rfl := Except.ok.inj h
      exact fills_writeVariable data

theorem Change.fills_writeInserted (h : change.insertedBytes host = .ok piece) : Fills 0 (change.writeInserted host) piece := by
  cases change with
  | insertFixed index name type value =>
      obtain ⟨v, hValue, h⟩ := bind_eq_ok.mp h
      obtain rfl := Except.ok.inj h
      exact fills_writeFixed hValue
  | insertVar index name type data =>
      obtain rfl := Except.ok.inj h
      exact fills_writeVariable data
  | setFixed | setVar | delete =>
      obtain rfl := Except.ok.inj h
      exact fills_nothing

/-- What the second pass writes at a property: perhaps the property that is inserted before it, and its own bytes. -/
theorem Change.fills_fill (hInserted : change.insertedBytes host = .ok inserted) {it : Item Value}
    (h : it.bytes host propertyData = .ok piece) :
    Fills 0 (fun out => change.fill host propertyData out it)
      ((if change.index = some it.index then inserted else []) ++ piece) := by
  have hBefore : Fills 0 (change.writeBefore host it.index) (if change.index = some it.index then inserted else []) := by
    intro front n
    rw [writeBefore]
    split_ifs with hIndex
    · exact change.fills_writeInserted hInserted front n
    · exact fills_nothing front n
  exact hBefore.bind (it.fills_write h)

/-- The first pass knows how many bytes the second one writes. -/
theorem Change.length_item {info : PropertyInfo} {index : ℕ}
    (h : (change.item layout info index).bytes host propertyData = .ok piece) :
    piece.length = (change.item layout info index).span := by
  have hCopied (hCopy : (⟨index, info.1, .copy, ((slotOf layout info.2).map Slot.span).getD 0, slotOf layout info.2⟩ :
      Item Value).bytes host propertyData = .ok piece) : piece.length = ((slotOf layout info.2).map Slot.span).getD 0 := by
    rw [Item.bytes] at hCopy
    cases hSlot : slotOf layout info.2 with
    | none =>
        rw [hSlot] at hCopy
        cases hCopy
    | some slot =>
        rw [hSlot] at hCopy
        obtain rfl := Except.ok.inj hCopy
        rw [length_copySlot, Option.map_some, Option.getD_some]
  cases change with
  | insertFixed | insertVar => exact hCopied h
  | setFixed name type value =>
      rw [item] at h ⊢
      split_ifs at h ⊢ with hName
      · obtain ⟨v, hValue, h⟩ := bind_eq_ok.mp h
        obtain rfl := Except.ok.inj h
        exact length_fixedValue hValue
      · exact hCopied h
  | setVar name data =>
      rw [item] at h ⊢
      split_ifs at h ⊢ with hName
      · obtain rfl := Except.ok.inj h
        rw [List.length_append, leBytes_length]
      · exact hCopied h
  | delete name =>
      rw [item] at h ⊢
      split_ifs at h ⊢ with hName
      · obtain rfl := Except.ok.inj h
        rfl
      · exact hCopied h

theorem Change.length_insertedBytes (h : change.insertedBytes host = .ok piece) : piece.length = change.insertedSpan := by
  cases change with
  | insertFixed index name type value =>
      obtain ⟨v, hValue, h⟩ := bind_eq_ok.mp h
      obtain rfl := Except.ok.inj h
      exact length_fixedValue hValue
  | insertVar index name type data =>
      obtain rfl := Except.ok.inj h
      rw [List.length_append, leBytes_length, insertedSpan]
  | setFixed | setVar | delete =>
      obtain rfl := Except.ok.inj h
      rfl

theorem Change.fills_writeLast (hInserted : change.insertedBytes host = .ok inserted) (count : ℕ) :
    Fills 0 (change.writeLast host count) (if ∃ index ∈ change.index, count ≤ index then inserted else []) := by
  intro front n
  rw [writeLast]
  split_ifs with hLast
  · exact change.fills_writeInserted hInserted front n
  · exact fills_nothing front n

/-- Without a place nothing is inserted. -/
theorem Change.insertedBytes_eq_nil (hInserted : change.insertedBytes host = .ok inserted) (hIndex : change.index = none) :
    inserted = [] := by
  cases change with
  | insertFixed | insertVar => cases hIndex
  | setFixed | setVar | delete => exact (Except.ok.inj hInserted).symm

/-- What is inserted before pieces whose places are all past the index. -/
theorem flatten_before_of_lt {pieces : List (List UInt8)} {index start : ℕ} (h : index < start) :
    ((pieces.zipIdx start).map fun x => (if some index = some x.2 then inserted else []) ++ x.1).flatten = pieces.flatten := by
  induction pieces generalizing start with
  | nil => rfl
  | cons first rest ih =>
      rw [List.zipIdx_cons, List.map_cons, List.flatten_cons, List.flatten_cons, ih (by omega),
        if_neg (by simp only [Option.some.injEq]; omega), List.nil_append]

/-- The pieces with another one before the one at its place, or after all of them. -/
theorem flatten_before {pieces : List (List UInt8)} {index start : ℕ} (hStart : start ≤ index)
    (hIndex : index ≤ start + pieces.length) :
    ((pieces.zipIdx start).map fun x => (if some index = some x.2 then inserted else []) ++ x.1).flatten ++
        (if start + pieces.length ≤ index then inserted else []) =
      (insertAt pieces (index - start) inserted).flatten := by
  induction pieces generalizing start with
  | nil =>
      obtain rfl : index = start := by
        rw [List.length_nil] at hIndex
        omega
      simp [insertAt]
  | cons first rest ih =>
      rw [List.length_cons] at hIndex ⊢
      rw [List.zipIdx_cons, List.map_cons, List.flatten_cons]
      rcases Nat.eq_or_lt_of_le hStart with rfl | hLater
      · rw [flatten_before_of_lt (Nat.lt_succ_self _), if_pos rfl, if_neg (by omega), List.append_nil, Nat.sub_self, insertAt,
          List.take_zero, List.drop_zero, List.nil_append, List.flatten_cons, List.flatten_cons, List.append_assoc]
      · have hRest : _ = (insertAt rest (index - (start + 1)) inserted).flatten := ih hLater (by omega)
        rw [if_neg (by simp only [Option.some.injEq]; omega), List.nil_append, List.append_assoc,
          show start + (rest.length + 1) = start + 1 + rest.length by omega, hRest,
          show index - start = index - (start + 1) + 1 by omega, insertAt, insertAt, List.take_succ_cons, List.drop_succ_cons,
          List.cons_append, List.flatten_cons]

theorem Change.index_item (change : Change Value) (layout : List (Str × Slot)) (info : PropertyInfo) (index : ℕ) :
    (change.item layout info index).index = index := by
  cases change with
  | insertFixed | insertVar => rfl
  | setFixed | setVar | delete =>
      rw [item]
      split_ifs <;> rfl

/-- What the pieces and the property that is inserted make up. -/
theorem Change.flatten_pieces (hInserted : change.insertedBytes host = .ok inserted)
    (hIndex : ∀ index ∈ change.index, index ≤ pieces.length) :
    ((pieces.zipIdx 0).map fun x => (if change.index = some x.2 then inserted else []) ++ x.1).flatten ++
        (if ∃ index ∈ change.index, pieces.length ≤ index then inserted else []) =
      (insertAt pieces (change.index.getD 0) inserted).flatten := by
  cases hPlace : change.index with
  | none =>
      obtain rfl := change.insertedBytes_eq_nil hInserted hPlace
      simp [insertAt]
  | some index =>
      have hBefore : _ = (insertAt pieces (index - 0) inserted).flatten :=
        flatten_before (Nat.zero_le index) (by rw [Nat.zero_add]; exact hIndex index hPlace)
      simpa using hBefore

/-- The bytes that each step of the second pass writes. -/
theorem Change.forall₂_fill (hInserted : change.insertedBytes host = .ok inserted)
    (hPieces : List.Forall₂ (fun info piece => ∀ index, (change.item layout info index).bytes host propertyData = .ok piece)
      infos pieces) (start : ℕ) :
    List.Forall₂ (fun it piece => Fills 0 (fun out => change.fill host propertyData out it) piece)
      ((infos.zipIdx start).map fun x => change.item layout x.1 x.2)
      ((pieces.zipIdx start).map fun x => (if change.index = some x.2 then inserted else []) ++ x.1) := by
  induction hPieces generalizing start with
  | nil => exact .nil
  | cons hPiece _ ih =>
      refine .cons ?_ (ih (start + 1))
      have hFill := change.fills_fill hInserted (hPiece start)
      rwa [index_item] at hFill

theorem Change.map_span (hPieces : List.Forall₂
      (fun info piece => ∀ index, (change.item layout info index).bytes host propertyData = .ok piece) infos pieces)
    (start : ℕ) :
    ((infos.zipIdx start).map fun x => change.item layout x.1 x.2).map Item.span = pieces.map List.length := by
  induction hPieces generalizing start with
  | nil => rfl
  | cons hPiece _ ih =>
      rw [List.zipIdx_cons, List.map_cons, List.map_cons, List.map_cons, ih, change.length_item (hPiece start)]

/-- The data are the bytes of the properties, with those of a property that is inserted at its place. -/
theorem Change.buildPropertiesWithChange_eq (hLayout : computeLayout propertyData infos 0 = .ok layout)
    (hInserted : change.insertedBytes host = .ok inserted)
    (hPieces : List.Forall₂ (fun info piece => ∀ index, (change.item layout info index).bytes host propertyData = .ok piece)
      infos pieces)
    (hIndex : ∀ index ∈ change.index, index ≤ infos.length) :
    change.buildPropertiesWithChange host infos propertyData =
      .ok (insertAt pieces (change.index.getD 0) inserted).flatten := by
  have hCount := hPieces.length_eq
  rw [hCount] at hIndex
  have hWhole := change.flatten_pieces hInserted hIndex
  have hFills := (Fills.foldlM (change.forall₂_fill hInserted hPieces 0)).bind (change.fills_writeLast hInserted pieces.length)
  rw [hWhole] at hFills
  have hLength : (((infos.zipIdx 0).map fun x => change.item layout x.1 x.2).map Item.span).sum + change.insertedSpan =
      (insertAt pieces (change.index.getD 0) inserted).flatten.length := by
    rw [change.map_span hPieces, ← change.length_insertedBytes hInserted, (perm_insertAt ..).flatten.length_eq,
      List.flatten_cons, List.length_append, List.length_flatten, Nat.add_comm]
  have hFilled := hFills.whole
  rw [buildPropertiesWithChange, hLayout]
  show (do let out ← List.foldlM _ _ _; let out ← change.writeLast host _ out; return out.buffer) = _
  rw [hLength, List.length_map, List.length_zipIdx, hCount]
  rw [← bind_assoc, hFilled]
  rfl

/-- A property that a change does not name is copied. -/
theorem Change.bytes_item_of_ne {info : PropertyInfo} {slot : Slot} (hTarget : change.target ≠ some info.2)
    (hSlot : slotOf layout info.2 = some slot) (index : ℕ) :
    (change.item layout info index).bytes host propertyData = .ok (copySlot propertyData slot) := by
  cases change with
  | insertFixed | insertVar =>
      simp only [item, Item.bytes, hSlot]
  | setFixed | setVar | delete =>
      rw [item, if_neg fun hName => hTarget (congrArg some hName)]
      simp only [Item.bytes, hSlot]

/-- A change that names a property inserts none. -/
theorem Change.inserts_nothing {name : Str} (hTarget : change.target = some name) :
    change.index = none ∧ change.insertedBytes host = .ok [] := by
  cases change with
  | insertFixed | insertVar => cases hTarget
  | setFixed | setVar | delete => exact ⟨rfl, rfl⟩

theorem slotOf_isSome {name : Str} (h : name ∈ layout.map Prod.fst) : ∃ slot, slotOf layout name = some slot := by
  obtain ⟨entry, hEntry, hName⟩ := List.mem_map.mp h
  have hMem : entry ∈ layout.filter fun other => other.1 = name := List.mem_filter.mpr ⟨hEntry, by simpa using hName⟩
  rw [slotOf, List.getLast?_eq_getLast_of_ne_nil (List.ne_nil_of_mem hMem)]
  exact ⟨_, rfl⟩

/-- A property that is inserted goes between copies of the others. -/
theorem Change.buildPropertiesWithChange_insertion {index : ℕ} (hPlace : change.index = some index)
    (hIndex : index ≤ infos.length) (hInserted : change.insertedBytes host = .ok inserted) :
    change.buildPropertiesWithChange host infos propertyData =
      JavaScript.buildPropertiesWithChange infos propertyData index inserted := by
  cases hLayout : computeLayout propertyData infos 0 with
  | error e =>
      rw [buildPropertiesWithChange, JavaScript.buildPropertiesWithChange, hLayout]
      rfl
  | ok layout =>
      have hPieces : List.Forall₂ (fun info piece => ∀ index, (change.item layout info index).bytes host propertyData = .ok piece)
          infos (infos.map fun info => ((slotOf layout info.2).map (copySlot propertyData)).getD []) := by
        rw [List.forall₂_map_right_iff, List.forall₂_same]
        intro info hInfo place
        have hName : info.2 ∈ layout.map Prod.fst := by
          rw [keys_computeLayout hLayout]
          exact List.mem_map_of_mem hInfo
        obtain ⟨slot, hSlot⟩ := slotOf_isSome hName
        have hTarget : change.target = none := by
          cases change with
          | insertFixed | insertVar => rfl
          | setFixed | setVar | delete => cases hPlace
        rw [change.bytes_item_of_ne (by simp [hTarget]) hSlot, hSlot, Option.map_some, Option.getD_some]
      rw [change.buildPropertiesWithChange_eq hLayout hInserted hPieces (by rw [hPlace]; rintro _ ⟨⟩; exact hIndex), hPlace,
        JavaScript.buildPropertiesWithChange, hLayout]
      rfl

/-- When the data are returned, every step of the second pass has been made. -/
theorem Change.steps_of_buildPropertiesWithChange {data : List UInt8}
    (h : change.buildPropertiesWithChange host infos propertyData = .ok data) :
    ∃ layout, (∀ x ∈ infos.zipIdx, ∃ before after,
        change.fill host propertyData before (change.item layout x.1 x.2) = .ok after) ∧
      ∃ before after, change.writeLast host infos.length before = .ok after := by
  obtain ⟨layout, -, h⟩ := bind_eq_ok.mp h
  obtain ⟨out, hLoop, h⟩ := bind_eq_ok.mp h
  obtain ⟨whole, hLast, -⟩ := bind_eq_ok.mp h
  rw [List.length_map, List.length_zipIdx] at hLast
  exact ⟨layout, fun x hx => exists_of_foldlM_eq_ok hLoop (List.mem_map_of_mem hx), out, whole, hLast⟩

theorem fixedValue_of_writeFixed {type : Str} {value : Value} {before after : Filling UInt8}
    (h : host.writeFixed type value before = .ok after) : ∃ v, host.fixedValue type value = .ok v := by
  obtain ⟨v, hValue, -⟩ := bind_eq_ok.mp h
  exact ⟨v, hValue⟩

/-- When a property has been inserted, its value has been converted. -/
theorem Change.fixedValue_of_insertFixed {index : ℕ} {name type : Str} {value : Value} {data : List UInt8}
    (hIndex : index ≤ infos.length)
    (h : (insertFixed index name type value).buildPropertiesWithChange host infos propertyData = .ok data) :
    ∃ v, host.fixedValue type value = .ok v := by
  obtain ⟨layout, hEach, before, after, hLast⟩ := steps_of_buildPropertiesWithChange h
  rcases Nat.eq_or_lt_of_le hIndex with hEnd | hInside
  · rw [writeLast, if_pos ⟨index, rfl, hEnd.ge⟩] at hLast
    exact fixedValue_of_writeFixed hLast
  · have hMem : (infos[index], index) ∈ infos.zipIdx := by
      rw [List.mem_zipIdx_iff_getElem?]
      exact List.getElem?_eq_getElem hInside
    obtain ⟨before, after, hFill⟩ := hEach _ hMem
    obtain ⟨next, hBefore, -⟩ := bind_eq_ok.mp hFill
    rw [writeBefore, index_item] at hBefore
    exact fixedValue_of_writeFixed ((if_pos rfl).symm.trans hBefore)

/-- When the value of a property has been replaced, the new one has been converted. -/
theorem Change.fixedValue_of_setFixed {type : Str} {value : Value} {data : List UInt8} {info : PropertyInfo}
    (hInfo : info ∈ infos)
    (h : (setFixed info.2 type value).buildPropertiesWithChange host infos propertyData = .ok data) :
    ∃ v, host.fixedValue info.1 value = .ok v := by
  obtain ⟨layout, hEach, -⟩ := steps_of_buildPropertiesWithChange h
  obtain ⟨index, hIndex⟩ := List.mem_iff_getElem?.mp hInfo
  obtain ⟨before, after, hFill⟩ := hEach (info, index) (List.mem_zipIdx_iff_getElem?.mpr hIndex)
  obtain ⟨next, -, hWrite⟩ := bind_eq_ok.mp hFill
  rw [item, if_pos rfl] at hWrite
  exact fixedValue_of_writeFixed hWrite

end Passes

end JavaScript
end Wwatp
