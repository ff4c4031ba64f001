import Wwatp.JavaScript.StoredProperties

/-! Runs of methods that change the properties of a node of the JavaScript client. They keep a dictionary, as long as
no bytes are inserted under a type of fixed size. -/
namespace Wwatp
namespace JavaScript

open Cxx

/-- A call of a method that changes properties. -/
inductive PropertyCall (Value Text : Type)
  | insertProperty (index : ℤ) (name : Str) (value : Value) (type : Str)
  | insertPropertyString (index : ℤ) (name type : Str) (text : Text)
  | insertPropertySpan (index : ℤ) (name type : Str) (data : List UInt8)
  | setPropertyValue (name : Str) (value : Value) (typeHint : Str)
  | setPropertyString (name : Str) (text : Text)
  | setPropertyValueSpan (name : Str) (data : List UInt8)
  | deleteProperty (name : Str)

/-- What a dictionary holds under each name: a type and a value. -/
abbrev PropertyContents := Str → Option (Str × PropertyReading)

variable {Value Text : Type}

namespace PropertyCall

def name : PropertyCall Value Text → Str
  | insertProperty _ name _ _ => name
  | insertPropertyString _ name _ _ => name
  | insertPropertySpan _ name _ _ => name
  | setPropertyValue name _ _ => name
  | setPropertyString name _ => name
  | setPropertyValueSpan name _ => name
  | deleteProperty name => name

/-- The place that is asked for a new property. -/
def index : PropertyCall Value Text → Option ℤ
  | insertProperty index _ _ _ => some index
  | insertPropertyString index _ _ _ => some index
  | insertPropertySpan index _ _ _ => some index
  | _ => none

/-- The type under which bytes are inserted. -/
def bytesType : PropertyCall Value Text → Option Str
  | insertPropertyString _ _ type _ => some type
  | insertPropertySpan _ _ type _ => some type
  | _ => none

/-- The bytes that are given to the call. -/
def bytes (host : Host Value Text) : PropertyCall Value Text → Option (List UInt8)
  | insertPropertyString _ _ _ text => (host.utf8Encode text).toOption
  | insertPropertySpan _ _ _ data => some data
  | setPropertyString _ text => (host.utf8Encode text).toOption
  | setPropertyValueSpan _ data => some data
  | _ => none

/-- What a call puts under a name that there is not. -/
def new (host : Host Value Text) : PropertyCall Value Text → Option (Str × PropertyReading)
  | insertProperty _ _ value type =>
    (host.typeFor value type >>= fun t => host.fixedValue t value).toOption.map fun v => (v.typename, .fixed v)
  | insertPropertyString _ _ type text => (host.utf8Encode text).toOption.map fun data => (type, .bytes data)
  | insertPropertySpan _ _ type data => some (type, .bytes data)
  | _ => none

/-- What a call writes over a value. A value of fixed size is not written as bytes, nor the other way round. -/
def replacement (host : Host Value Text) (held : Str × PropertyReading) : PropertyCall Value Text → Option PropertyReading
  | setPropertyValue _ value _ =>
    match held.2 with
    | .fixed _ => (host.fixedValue held.1 value).toOption.map .fixed
    | .bytes _ => none
  | setPropertyString _ text =>
    match held.2 with
    | .fixed _ => none
    | .bytes _ => (host.utf8Encode text).toOption.map .bytes
  | setPropertyValueSpan _ data =>
    match held.2 with
    | .fixed _ => none
    | .bytes _ => some (.bytes data)
  | _ => none

/-- What is under the name of a call after it. -/
def writes (host : Host Value Text) (old : Option (Str × PropertyReading)) (call : PropertyCall Value Text) :
    Option (Str × PropertyReading) :=
  match old, call with
  | none, call => call.new host
  | some _, deleteProperty _ => none
  | some held, call => some (held.1, (call.replacement host held).getD held.2)

/-- The dictionary after a call. -/
def after (host : Host Value Text) (contents : PropertyContents) (call : PropertyCall Value Text) : PropertyContents :=
  Function.update contents call.name (call.writes host (contents call.name))

/-- The dictionary after some calls. -/
def contents (host : Host Value Text) (calls : List (PropertyCall Value Text)) : PropertyContents :=
  calls.foldl (after host) fun _ => none

theorem contents_append (host : Host Value Text) (calls : List (PropertyCall Value Text)) (call : PropertyCall Value Text) :
    contents host (calls ++ [call]) = after host (contents host calls) call := by
  rw [contents, List.foldl_append]
  rfl

theorem after_of_eq {host : Host Value Text} {contents : PropertyContents} {call : PropertyCall Value Text}
    {old : Option (Str × PropertyReading)} (h : contents call.name = old) :
    after host contents call = Function.update contents call.name (call.writes host old) := by
  rw [after, h]

/-- A call that does not change what is under its name changes nothing. -/
theorem after_eq_self {host : Host Value Text} {contents : PropertyContents} {call : PropertyCall Value Text}
    {old : Option (Str × PropertyReading)} (h : contents call.name = old) (hWrites : call.writes host old = old) :
    after host contents call = contents := by
  rw [after_of_eq h, hWrites, ← h, Function.update_eq_self]

/-- A text is written as its bytes are. -/
theorem after_setPropertyString {host : Host Value Text} {text : Text} {data : List UInt8} (hText : host.utf8Encode text = .ok data)
    (contents : PropertyContents) (name : Str) :
    after host contents (.setPropertyString name text) = after host contents (.setPropertyValueSpan name data) := by
  rw [after_of_eq rfl, after_of_eq rfl]
  show Function.update contents name (writes host (contents name) _) = Function.update contents name (writes host (contents name) _)
  cases contents name with
  | none => rfl
  | some held =>
      obtain ⟨type, reading⟩ := held
      cases reading <;> simp [writes, replacement, hText, Except.toOption]

theorem after_insertPropertyString {host : Host Value Text} {text : Text} {data : List UInt8}
    (hText : host.utf8Encode text = .ok data) (contents : PropertyContents) (index : ℤ) (name type : Str) :
    after host contents (.insertPropertyString index name type text) = after host contents (.insertPropertySpan index name type data) := by
  rw [after_of_eq rfl, after_of_eq rfl]
  show Function.update contents name (writes host (contents name) _) = Function.update contents name (writes host (contents name) _)
  cases contents name with
  | none => rw [writes, writes, new, new, hText]; rfl
  | some held => rfl

def perform (host : Host Value Text) : PropertyCall Value Text → Method Unit
  | insertProperty index name value type => Node.insertProperty host index name value type
  | insertPropertyString index name type text => Node.insertPropertyString host index name type text
  | insertPropertySpan index name type data => Node.insertPropertySpan host index name type data
  | setPropertyValue name value typeHint => Node.setPropertyValue host name value typeHint
  | setPropertyString name text => Node.setPropertyString host name text
  | setPropertyValueSpan name data => Node.setPropertyValueSpan host name data
  | deleteProperty name => Node.deleteProperty host name

end PropertyCall

namespace Node

/-- The node after a call, whether it returns or throws. -/
def step (host : Host Value Text) (n : Node) (call : PropertyCall Value Text) : Node :=
  match call.perform host n with
  | .ok _ m => m
  | .error _ m => m

/-- Bytes are not inserted as a value of fixed size, and four bytes hold their length. -/
structure Called (host : Host Value Text) (n : Node) (call : PropertyCall Value Text) : Prop where
  untyped : (∀ info ∈ n.propertyInfos, info.2 ≠ call.name) → ∀ type ∈ call.bytesType, type ∉ fixedSizeTypes
  fits : ∀ data ∈ call.bytes host, data.length < 2 ^ 32

/-- A run of calls from a node without properties. -/
inductive Run (host : Host Value Text) (allowed : Node → PropertyCall Value Text → Prop) :
    List (PropertyCall Value Text) → Node → Prop
  | start : Run host allowed [] ⟨[], []⟩
  | call {calls : List (PropertyCall Value Text)} {n : Node} (prior : Run host allowed calls n)
      (call : PropertyCall Value Text) (hAllowed : allowed n call) : Run host allowed (calls ++ [call]) (n.step host call)

/-- What is read under a name. -/
def Reads (n : Node) (name : Str) : Option (Str × PropertyReading) → Prop
  | none => (∀ info ∈ n.propertyInfos, info.2 ≠ name) ∧
      getPropertyValue n.propertyInfos n.propertyData name = .error (.error (str "Property not found: " ++ name))
  | some (type, .fixed v) => (type, name) ∈ n.propertyInfos ∧
      getPropertyValue n.propertyInfos n.propertyData name = .ok (v.bytes.length, .fixed v, v.bytes)
  | some (type, .bytes data) => (type, name) ∈ n.propertyInfos ∧
      getPropertyValue n.propertyInfos n.propertyData name = .ok (4 + data.length, .bytes data, data) ∧
      (∀ utf8Decode, getPropertyString utf8Decode n.propertyInfos n.propertyData name = .ok (4 + data.length, utf8Decode data)) ∧
      getPropertyValueSpan n.propertyInfos n.propertyData name = .ok (4 + data.length, leBytes 4 data.length, data)

/-- The slots of the layout are the data. -/
def Covered (n : Node) : Prop :=
  ∃ layout, computeLayout n.propertyData n.propertyInfos 0 = .ok layout ∧
    (layout.map fun entry => entry.2.span).sum = n.propertyData.length ∧
    (layout.flatMap fun entry => slice n.propertyData entry.2.offset entry.2.span) = n.propertyData

/-- The node is a dictionary. -/
structure Keeps (host : Host Value Text) (allowed : Node → PropertyCall Value Text → Prop)
    (calls : List (PropertyCall Value Text)) (n : Node) : Prop where
  covered : n.Covered
  reads : ∀ name, n.Reads name (PropertyCall.contents host calls name)
  placed : ∀ (call : PropertyCall Value Text) m, call.perform host n = .ok () m → ∀ index ∈ call.index,
    ∃ type reading, call.new host = some (type, reading) ∧ m.propertyInfos = n.propertyInfos.insertIdx
      (if 0 ≤ index then min index.toNat n.propertyInfos.length else n.propertyInfos.length) (type, call.name)
  others : ∀ call, allowed n call → ∀ name ≠ call.name, (n.step host call).Reads name (PropertyCall.contents host calls name)
  unchanged : ∀ (call : PropertyCall Value Text) e m, call.perform host n = .error e m → m = n

/-- The dictionary that some properties make up. -/
def dictionary (properties : List StoredProperty) : PropertyContents :=
  contentsOf (fun p => p.info.2) (fun p => (p.info.1, p.value.reading)) properties

section Calls

variable {host : Host Value Text} {n m : Node} {properties front back : List StoredProperty} {p : StoredProperty}
  {call : PropertyCall Value Text}

theorem dictionary_middle (h : n.Holds (front ++ p :: back)) :
    dictionary (front ++ p :: back) p.info.2 = some (p.info.1, p.value.reading) :=
  contentsOf_middle fun q hq => h.names_ne q (List.mem_append_left _ hq)

theorem dictionary_replaced (h : n.Holds (front ++ p :: back)) {q : StoredProperty} (hName : q.info.2 = p.info.2) :
    dictionary (front ++ q :: back) =
      Function.update (dictionary (front ++ p :: back)) p.info.2 (some (q.info.1, q.value.reading)) :=
  contentsOf_replaced h.names_ne hName

/-- A call returns with the properties of the dictionary after it, or it throws and the dictionary is as before. -/
def Performs (host : Host Value Text) (n : Node) (call : PropertyCall Value Text) (properties : List StoredProperty) : Prop :=
  (∃ m others, call.perform host n = .ok () m ∧ m.Holds others ∧
      dictionary others = PropertyCall.after host (dictionary properties) call) ∨
    (∃ e m, call.perform host n = .error e m) ∧ PropertyCall.after host (dictionary properties) call = dictionary properties

theorem info_mem (h : n.Holds (front ++ p :: back)) : p.info ∈ n.propertyInfos := by
  rw [h.infos]
  exact List.mem_map_of_mem (by simp)

/-- A call that gives a property another value. -/
theorem Holds.performs_replaced (h : n.Holds (front ++ p :: back)) {q : StoredProperty} (hName : p.info.2 = call.name)
    (hPerform : call.perform host n = .ok () m) (hHolds : m.Holds (front ++ q :: back)) (hSame : q.info.2 = p.info.2)
    (hWrites : call.writes host (some (p.info.1, p.value.reading)) = some (q.info.1, q.value.reading)) :
    Performs host n call (front ++ p :: back) := by
  have hFound := dictionary_middle h
  rw [hName] at hFound
  refine Or.inl ⟨m, _, hPerform, hHolds, ?_⟩
  rw [dictionary_replaced h hSame, PropertyCall.after_of_eq hFound, hWrites, hName]

/-- Bytes for a property. -/
theorem Holds.performs_setPropertyValueSpan (h : n.Holds (front ++ p :: back)) {data : List UInt8} (hFits : data.length < 2 ^ 32) :
    Performs host n (.setPropertyValueSpan p.info.2 data) (front ++ p :: back) := by
  have hFound := dictionary_middle h
  cases hReading : p.value.reading with
  | fixed old =>
      refine Or.inr ⟨h.setPropertyValueSpan_fixed hReading data, PropertyCall.after_eq_self hFound ?_⟩
      simp [PropertyCall.writes, PropertyCall.replacement, hReading]
  | bytes old =>
      obtain ⟨m, hSet, hHolds⟩ := h.setPropertyValueSpan hReading hFits
      refine h.performs_replaced rfl hSet hHolds rfl ?_
      rw [hReading, StoredProperty.reading_ofBytes]
      rfl

theorem Holds.performs_setPropertyValue (h : n.Holds (front ++ p :: back)) (value : Value) (typeHint : Str) :
    Performs host n (.setPropertyValue p.info.2 value typeHint) (front ++ p :: back) := by
  have hFound := dictionary_middle h
  cases hReading : p.value.reading with
  | fixed old =>
      cases hValue : host.fixedValue p.info.1 value with
      | ok v =>
          obtain ⟨m, hSet, hHolds⟩ := h.setPropertyValue hReading hValue typeHint
          refine h.performs_replaced rfl hSet hHolds rfl ?_
          show _ = some (v.typename, PropertyReading.fixed v)
          rw [hReading, typename_fixedValue hValue]
          simp [PropertyCall.writes, PropertyCall.replacement, hValue, Except.toOption]
      | error e =>
          refine Or.inr ⟨h.setPropertyValue_error hReading hValue typeHint, PropertyCall.after_eq_self hFound ?_⟩
          simp [PropertyCall.writes, PropertyCall.replacement, hReading, hValue, Except.toOption]
  | bytes old =>
      refine Or.inr ⟨h.setPropertyValue_bytes hReading value typeHint, PropertyCall.after_eq_self hFound ?_⟩
      simp [PropertyCall.writes, PropertyCall.replacement, hReading]

/-- A call for the name of a property that there is. -/
theorem Holds.performs_split (h : n.Holds (front ++ p :: back)) (hFits : ∀ data ∈ call.bytes host, data.length < 2 ^ 32)
    (hName : p.info.2 = call.name) : Performs host n call (front ++ p :: back) := by
  have hFound := dictionary_middle h
  have hExists : ∃ info ∈ n.propertyInfos, info.2 = p.info.2 := ⟨p.info, info_mem h, rfl⟩
  cases call with
  | insertProperty index name value type =>
      obtain rfl : p.info.2 = name := hName
      exact Or.inr ⟨⟨_, _, bind_of_error (throwIfExists_of hExists)⟩, PropertyCall.after_eq_self hFound rfl⟩
  | insertPropertyString index name type text =>
      obtain rfl : p.info.2 = name := hName
      exact Or.inr ⟨⟨_, _, bind_of_error (throwIfExists_of hExists)⟩, PropertyCall.after_eq_self hFound rfl⟩
  | insertPropertySpan index name type data =>
      obtain rfl : p.info.2 = name := hName
      exact Or.inr ⟨⟨_, _, bind_of_error (throwIfExists_of hExists)⟩, PropertyCall.after_eq_self hFound rfl⟩
  | setPropertyValue name value typeHint =>
      obtain rfl : p.info.2 = name := hName
      exact h.performs_setPropertyValue value typeHint
  | setPropertyString name text =>
      obtain rfl : p.info.2 = name := hName
      cases hText : host.utf8Encode text with
      | ok data =>
          have hGiven : data ∈ PropertyCall.bytes host (.setPropertyString p.info.2 text) := by
            rw [PropertyCall.bytes, hText]
            rfl
          have hSpan : Performs host n (.setPropertyValueSpan p.info.2 data) (front ++ p :: back) :=
            h.performs_setPropertyValueSpan (hFits data hGiven)
          have hPerform : PropertyCall.perform host (.setPropertyString p.info.2 text) n =
              PropertyCall.perform host (.setPropertyValueSpan p.info.2 data) n := bind_of_ok (Method.call_ok hText n)
          rw [Performs, hPerform, PropertyCall.after_setPropertyString hText]
          exact hSpan
      | error e =>
          refine Or.inr ⟨⟨_, _, bind_of_error (Method.call_error hText n)⟩, PropertyCall.after_eq_self hFound ?_⟩
          cases p.value.reading <;> simp [PropertyCall.writes, PropertyCall.replacement, hText, Except.toOption]
  | setPropertyValueSpan name data =>
      obtain rfl : p.info.2 = name := hName
      exact h.performs_setPropertyValueSpan (hFits data rfl)
  | deleteProperty name =>
      obtain rfl : p.info.2 = name := hName
      obtain ⟨m, hDelete, hHolds⟩ := h.deleteProperty
      exact Or.inl ⟨m, _, hDelete, hHolds, by rw [PropertyCall.after_of_eq hFound]; exact contentsOf_removed h.names_ne⟩

theorem Holds.infos_ne (h : n.Holds properties) {name : Str} (hNew : ∀ q ∈ properties, q.info.2 ≠ name) :
    ∀ info ∈ n.propertyInfos, info.2 ≠ name := by
  rw [h.infos]
  exact List.forall_mem_map.mpr hNew

/-- A call that inserts a property. -/
theorem Holds.performs_inserted (h : n.Holds properties) (hNew : ∀ q ∈ properties, q.info.2 ≠ call.name) (index : ℤ)
    (hName : p.info.2 = call.name) (hPerform : call.perform host n = Method.settle n (JavaScript.insertBytes n index p.info p.bytes))
    (hCall : call.new host = some (p.info.1, p.value.reading)) : Performs host n call properties := by
  rw [← hName] at hNew
  obtain ⟨m, front, back, hInsert, rfl, hHolds⟩ := h.insertBytes p hNew index
  have hNone : dictionary (front ++ back) call.name = none := by
    rw [← hName]
    exact contentsOf_of_not_mem hNew
  refine Or.inl ⟨m, _, by rw [hPerform, hInsert, Method.settle], hHolds, ?_⟩
  have hWrites : call.writes host none = some (p.info.1, p.value.reading) := hCall
  rw [PropertyCall.after_of_eq hNone, hWrites, ← hName]
  exact contentsOf_added hHolds.names_ne

/-- A call that throws where there is no property of its name. -/
theorem performs_nothing (hNew : ∀ q ∈ properties, q.info.2 ≠ call.name) {e : JsError}
    (hPerform : call.perform host n = .error e m) (hCall : call.new host = none) : Performs host n call properties := by
  have hNone : dictionary properties call.name = none := contentsOf_of_not_mem hNew
  exact Or.inr ⟨⟨e, m, hPerform⟩, PropertyCall.after_eq_self hNone hCall⟩

theorem Holds.performs_insertProperty (h : n.Holds properties) (index : ℤ) {name : Str} (value : Value) (type : Str)
    (hNew : ∀ q ∈ properties, q.info.2 ≠ name) : Performs host n (.insertProperty index name value type) properties := by
  have hNotExists : ¬∃ info ∈ n.propertyInfos, info.2 = name := fun ⟨info, hInfo, hSame⟩ => h.infos_ne hNew info hInfo hSame
  cases hType : host.typeFor value type with
  | error e =>
      have hPerform : Node.insertProperty host index name value type n = .error e n := by
        rw [Node.insertProperty, bind_of_ok (throwIfExists_of_not hNotExists), bind_of_error (Method.call_error hType n)]
      refine performs_nothing hNew hPerform ?_
      rw [PropertyCall.new, hType]
      rfl
  | ok t =>
      have hGiven : PropertyCall.new host (.insertProperty index name value type) =
          (host.fixedValue t value).toOption.map fun v => (v.typename, .fixed v) := by
        rw [PropertyCall.new, hType]
        rfl
      cases hValue : host.fixedValue t value with
      | ok v =>
          rw [hValue] at hGiven
          have hPerform := insertProperty_eq host n index name hType hValue
          exact h.performs_inserted (p := .ofFixed name v) hNew index rfl hPerform hGiven
      | error e =>
          rw [hValue] at hGiven
          have hThrows : ∃ e m, Node.insertProperty host index name value type n = .error e m := by
            rw [Node.insertProperty, bind_of_ok (throwIfExists_of_not hNotExists), bind_of_ok (Method.call_ok hType n)]
            by_cases hFixed : t ∈ fixedSizeTypes
            · rw [bind_of_ok (Method.throwIf_of_not (not_not_intro hFixed) _ n), bind_of_ok (x := get) rfl, insertChange,
                bind_of_ok (x := get) rfl]
              cases hBuild : (Change.insertFixed (clampIndex index n.propertyInfos.length) name t value).buildPropertiesWithChange
                  host n.propertyInfos n.propertyData with
              | ok parts =>
                  obtain ⟨v, hConverted⟩ := Change.fixedValue_of_insertFixed (clampIndex_le ..) hBuild
                  rw [hValue] at hConverted
                  cases hConverted
              | error e => exact ⟨e, n, bind_of_error rfl⟩
            · exact ⟨_, n, bind_of_error (Method.throwIf_of hFixed _ n)⟩
          obtain ⟨e, m, hPerform⟩ := hThrows
          exact performs_nothing hNew hPerform hGiven

theorem Holds.performs_insertPropertySpan (h : n.Holds properties) (index : ℤ) {name type : Str} {data : List UInt8}
    (hType : fixedSize type = none) (hFits : data.length < 2 ^ 32) (hNew : ∀ q ∈ properties, q.info.2 ≠ name) :
    Performs host n (.insertPropertySpan index name type data) properties := by
  have hPerform := insertPropertySpan_eq host n index name type data
  rw [JavaScript.insertPropertySpan, ← StoredProperty.bytes_ofBytes (type, name) hType data hFits] at hPerform
  refine h.performs_inserted (p := .ofBytes (type, name) hType data hFits) hNew index rfl hPerform ?_
  rw [StoredProperty.reading_ofBytes]
  rfl

/-- A call for a name that there is not. -/
theorem Holds.performs_new (h : n.Holds properties) (hCalled : Called host n call)
    (hNew : ∀ q ∈ properties, q.info.2 ≠ call.name) : Performs host n call properties := by
  obtain ⟨hUntyped, hFits⟩ := hCalled
  have hType {type : Str} (hGiven : type ∈ call.bytesType) : fixedSize type = none := by
    have hNot := hUntyped (h.infos_ne hNew) type hGiven
    rwa [mem_fixedSizeTypes_iff, not_not] at hNot
  have hMissing := h.findSlot_new hNew
  cases call with
  | insertProperty index name value type => exact h.performs_insertProperty index value type hNew
  | insertPropertyString index name type text =>
      cases hText : host.utf8Encode text with
      | ok data =>
          have hGiven : data ∈ PropertyCall.bytes host (.insertPropertyString index name type text) := by
            rw [PropertyCall.bytes, hText]
            rfl
          have hSpan : Performs host n (.insertPropertySpan index name type data) properties :=
            h.performs_insertPropertySpan index (hType rfl) (hFits data hGiven) hNew
          have hPerform : PropertyCall.perform host (.insertPropertyString index name type text) n =
              PropertyCall.perform host (.insertPropertySpan index name type data) n :=
            insertPropertyString_eq host n index name type hText
          rw [Performs, hPerform, PropertyCall.after_insertPropertyString hText]
          exact hSpan
      | error e =>
          have hNotExists : ¬∃ info ∈ n.propertyInfos, info.2 = name := fun ⟨info, hInfo, hSame⟩ =>
            h.infos_ne hNew info hInfo hSame
          have hPerform : Node.insertPropertyString host index name type text n = .error e n := by
            rw [Node.insertPropertyString, bind_of_ok (throwIfExists_of_not hNotExists),
              bind_of_error (Method.call_error hText n)]
          refine performs_nothing hNew hPerform ?_
          rw [PropertyCall.new, hText]
          rfl
  | insertPropertySpan index name type data =>
      exact h.performs_insertPropertySpan index (hType rfl) (hFits data rfl) hNew
  | setPropertyValue name value typeHint =>
      have hPerform : Node.setPropertyValue host name value typeHint n = _ :=
        (bind_of_ok (x := get) rfl).trans (bind_of_error (Method.call_error hMissing n))
      exact performs_nothing hNew hPerform rfl
  | setPropertyString name text =>
      cases hText : host.utf8Encode text with
      | ok data =>
          have hPerform : Node.setPropertyString host name text n = _ := (bind_of_ok (Method.call_ok hText n)).trans
            ((bind_of_ok (x := get) rfl).trans (bind_of_error (Method.call_error hMissing n)))
          exact performs_nothing hNew hPerform rfl
      | error e => exact performs_nothing hNew (bind_of_error (Method.call_error hText n)) rfl
  | setPropertyValueSpan name data =>
      have hPerform : Node.setPropertyValueSpan host name data n = _ :=
        (bind_of_ok (x := get) rfl).trans (bind_of_error (Method.call_error hMissing n))
      exact performs_nothing hNew hPerform rfl
  | deleteProperty name =>
      have hPerform : Node.deleteProperty host name n = _ :=
        (bind_of_ok (x := get) rfl).trans (bind_of_error (Method.throwIf_of (h.infos_ne hNew) _ n))
      exact performs_nothing hNew hPerform rfl

theorem Holds.performs (h : n.Holds properties) (hCalled : Called host n call) : Performs host n call properties := by
  rcases split_or_not_mem (fun p => p.info.2) properties call.name with ⟨front, p, back, rfl, hName⟩ | hNew
  · exact h.performs_split hCalled.fits hName
  · exact h.performs_new hCalled hNew

theorem atomic_perform (call : PropertyCall Value Text) : Atomic (call.perform host) := by
  cases call with
  | insertProperty index name value type => exact atomic_insertProperty host index name value type
  | insertPropertyString index name type text => exact atomic_insertPropertyString host index name type text
  | insertPropertySpan index name type data => exact atomic_insertPropertySpan host index name type data
  | setPropertyValue name value typeHint => exact atomic_setPropertyValue host name value typeHint
  | setPropertyString name text => exact atomic_setPropertyString host name text
  | setPropertyValueSpan name data => exact atomic_setPropertyValueSpan host name data
  | deleteProperty name => exact atomic_deleteProperty host name

/-- The dictionary follows the calls. -/
theorem Holds.step (h : n.Holds properties) (hCalled : Called host n call) :
    ∃ others, (n.step host call).Holds others ∧ dictionary others = PropertyCall.after host (dictionary properties) call := by
  rcases h.performs hCalled with ⟨m, others, hPerform, hHolds, hContents⟩ | ⟨⟨e, m, hPerform⟩, hContents⟩
  · rw [Node.step, hPerform]
    exact ⟨others, hHolds, hContents⟩
  · obtain rfl : m = n := atomic_perform call n e m hPerform
    rw [Node.step, hPerform]
    exact ⟨properties, h, hContents.symm⟩

theorem holds_of_run {calls : List (PropertyCall Value Text)} (h : Run host (Called host) calls n) :
    ∃ properties, n.Holds properties ∧ dictionary properties = PropertyCall.contents host calls := by
  induction h with
  | start => exact ⟨[], ⟨rfl, rfl, .nil⟩, rfl⟩
  | call prior call hCalled ih =>
      obtain ⟨properties, hHolds, hContents⟩ := ih
      obtain ⟨others, hNext, hAfter⟩ := hHolds.step hCalled
      exact ⟨others, hNext, by rw [hAfter, hContents, PropertyCall.contents_append]⟩

theorem Holds.covered (h : n.Holds properties) : n.Covered := by
  have hSlots := forall₂_slots (properties.map StoredProperty.toProperty) []
  have hData : [] ++ (properties.map StoredProperty.toProperty).flatMap written = n.propertyData := by
    rw [List.nil_append, List.flatMap_map, h.data]
    rfl
  rw [hData] at hSlots
  refine ⟨_, h.layout, ?_, ?_⟩
  · have hSpans : (properties.map StoredProperty.toProperty).map (fun p => (written p).length) =
        (slots (properties.map StoredProperty.toProperty) 0).map fun entry => entry.2.span := by
      rw [← List.forall₂_eq_eq_eq, List.forall₂_map_left_iff, List.forall₂_map_right_iff]
      exact hSlots.imp fun p entry hEntry => hEntry.2.1.symm
    rw [← hSpans, ← hData, List.nil_append, List.length_flatMap]
  · have hBytes : (properties.map StoredProperty.toProperty).map written =
        (slots (properties.map StoredProperty.toProperty) 0).map fun entry =>
          slice n.propertyData entry.2.offset entry.2.span := by
      rw [← List.forall₂_eq_eq_eq, List.forall₂_map_left_iff, List.forall₂_map_right_iff]
      exact hSlots.imp fun p entry hEntry => hEntry.2.2.symm
    rw [List.flatMap_def, ← hBytes, ← List.flatMap_def, ← hData, List.nil_append]

/-- What the dictionary holds is read. -/
theorem Holds.reads (h : n.Holds properties) (name : Str) : n.Reads name (dictionary properties name) := by
  rcases split_or_not_mem (fun p => p.info.2) properties name with ⟨front, p, back, rfl, rfl⟩ | hNew
  · rw [dictionary_middle h]
    cases hReading : p.value.reading with
    | fixed v => exact ⟨info_mem h, h.read_fixed hReading⟩
    | bytes data => exact ⟨info_mem h, h.read_bytes hReading⟩
  · rw [dictionary, contentsOf_of_not_mem hNew]
    refine ⟨h.infos_ne hNew, ?_⟩
    rw [getPropertyValue, h.findSlot_new hNew]
    rfl

end Calls

section Places

variable {host : Host Value Text} {n m : Node}

theorem insertAt_eq_insertIdx {α : Type} {items : List α} {index : ℕ} (h : index ≤ items.length) (item : α) :
    insertAt items index item = items.insertIdx index item := by
  induction items generalizing index with
  | nil =>
      obtain rfl : index = 0 := Nat.le_zero.mp h
      rfl
  | cons first rest ih =>
      cases index with
      | zero => rfl
      | succ index =>
          rw [List.insertIdx_succ_cons, ← ih (Nat.le_of_succ_le_succ h)]
          rfl

theorem clampIndex_eq (index : ℤ) (count : ℕ) : clampIndex index count = if 0 ≤ index then min index.toNat count else count := by
  rw [clampIndex]
  split_ifs <;> omega

/-- A property that has been inserted is at the place of its index. -/
theorem infos_of_insertChange {change : Change Value} {index : ℤ} {info : PropertyInfo}
    (h : insertChange host change (clampIndex index n.propertyInfos.length) info n = .ok () m) :
    (∃ parts, change.buildPropertiesWithChange host n.propertyInfos n.propertyData = .ok parts) ∧
      m.propertyInfos = n.propertyInfos.insertIdx
        (if 0 ≤ index then min index.toNat n.propertyInfos.length else n.propertyInfos.length) info := by
  obtain ⟨_, hSame, h⟩ := readsOnly_get.of_bind_ok h
  cases hSame
  obtain ⟨parts, hParts, h⟩ := (Method.readsOnly_call _).of_bind_ok h
  cases h
  refine ⟨⟨parts, Method.of_call_ok hParts⟩, ?_⟩
  show insertAt n.propertyInfos _ info = _
  rw [insertAt_eq_insertIdx (clampIndex_le ..), clampIndex_eq]

/-- A new property stands at the place that is asked for it, or at the end. -/
theorem placed_of_perform {call : PropertyCall Value Text} (h : call.perform host n = .ok () m) {index : ℤ}
    (hIndex : index ∈ call.index) :
    ∃ type reading, call.new host = some (type, reading) ∧ m.propertyInfos = n.propertyInfos.insertIdx
      (if 0 ≤ index then min index.toNat n.propertyInfos.length else n.propertyInfos.length) (type, call.name) := by
  cases call with
  | insertProperty place name value type =>
      obtain rfl : place = index := Option.some.inj hIndex
      obtain ⟨-, -, h⟩ := (readsOnly_throwIfExists name).of_bind_ok h
      obtain ⟨t, hType, h⟩ := (Method.readsOnly_call _).of_bind_ok h
      obtain ⟨-, -, h⟩ := (Method.readsOnly_throwIf _ _).of_bind_ok h
      obtain ⟨_, hSame, h⟩ := readsOnly_get.of_bind_ok h
      cases hSame
      obtain ⟨⟨parts, hBuild⟩, hInfos⟩ := infos_of_insertChange h
      obtain ⟨v, hValue⟩ := Change.fixedValue_of_insertFixed (clampIndex_le ..) hBuild
      refine ⟨v.typename, .fixed v, ?_, ?_⟩
      · rw [PropertyCall.new, Method.of_call_ok hType]
        show (host.fixedValue t value).toOption.map _ = _
        rw [hValue]
        rfl
      · rw [hInfos, typename_fixedValue hValue]
        rfl
  | insertPropertyString place name type text =>
      obtain rfl : place = index := Option.some.inj hIndex
      obtain ⟨-, -, h⟩ := (readsOnly_throwIfExists name).of_bind_ok h
      obtain ⟨data, hText, h⟩ := (Method.readsOnly_call _).of_bind_ok h
      obtain ⟨_, hSame, h⟩ := readsOnly_get.of_bind_ok h
      cases hSame
      refine ⟨type, .bytes data, ?_, (infos_of_insertChange h).2⟩
      rw [PropertyCall.new, Method.of_call_ok hText]
      rfl
  | insertPropertySpan place name type data =>
      obtain rfl : place = index := Option.some.inj hIndex
      obtain ⟨-, -, h⟩ := (readsOnly_throwIfExists name).of_bind_ok h
      obtain ⟨_, hSame, h⟩ := readsOnly_get.of_bind_ok h
      cases hSame
      exact ⟨type, .bytes data, rfl, (infos_of_insertChange h).2⟩
  | setPropertyValue | setPropertyString | setPropertyValueSpan | deleteProperty => cases hIndex

end Places

/-- A node is a dictionary, as long as bytes are not inserted under a type of fixed size and four bytes hold their
length. -/
theorem keeps_of_run {host : Host Value Text} {calls : List (PropertyCall Value Text)} {n : Node}
    (h : Run host (Called host) calls n) : Keeps host (Called host) calls n := by
  obtain ⟨properties, hHolds, hContents⟩ := holds_of_run h
  constructor
  · exact hHolds.covered
  · rw [← hContents]
    exact hHolds.reads
  · intro call m hPerform index hIndex
    exact placed_of_perform hPerform hIndex
  · intro call hCalled name hName
    obtain ⟨others, hNext, hAfter⟩ := hHolds.step hCalled
    have hReads := hNext.reads name
    rwa [hAfter, PropertyCall.after, Function.update_of_ne hName, hContents] at hReads
  · intro call e m hThrown
    exact atomic_perform call n e m hThrown

/-- Truth values and texts. -/
def truthValues : Host Bool String where
  typeOf _ := str "boolean"
  toBigInt value := .ok (if value then 1 else 0)
  toNumber value := .ok (if value then 0x3FF0000000000000 else 0)
  toFloat bits := if bits = 0 then 0 else 0x3F800000
  truthy value := value
  utf8Encode text := .ok text.toUTF8.data.toList

/-- A truth value, a text in front of it and another value. -/
theorem keeps_of_run_truthValue : ∃ n, Run truthValues (Called truthValues)
    [.insertProperty 0 (str "a") true [], .insertPropertyString 0 (str "b") (str "text") "xy",
      .setPropertyValue (str "a") false []] n ∧
    Keeps truthValues (Called truthValues) [.insertProperty 0 (str "a") true [],
      .insertPropertyString 0 (str "b") (str "text") "xy", .setPropertyValue (str "a") false []] n := by
  have hValue : Run truthValues (Called truthValues) [.insertProperty 0 (str "a") true []] _ :=
    .call .start _ ⟨by decide, by decide⟩
  have hText : Run truthValues (Called truthValues) _ _ :=
    .call hValue (.insertPropertyString 0 (str "b") (str "text") "xy") ⟨by decide, by decide⟩
  have hSet : Run truthValues (Called truthValues) _ _ :=
    .call hText (.setPropertyValue (str "a") false []) ⟨by decide, by decide⟩
  exact ⟨_, hSet, keeps_of_run hSet⟩

/-- Bytes that are inserted under a type of fixed size are not covered by the layout, and they are not read back. -/
theorem not_keeps_of_run :
    ∃ n, Run truthValues (fun _ _ => True) [.insertPropertyString 0 (str "a") (str "int64") "x"] n ∧ ¬n.Covered ∧
      ¬Keeps truthValues (fun _ _ => True) [.insertPropertyString 0 (str "a") (str "int64") "x"] n := by
  refine ⟨_, .call .start (.insertPropertyString 0 (str "a") (str "int64") "x") trivial, ?_⟩
  have hNode : Node.step truthValues ⟨[], []⟩ (.insertPropertyString 0 (str "a") (str "int64") "x") =
      ⟨[(str "int64", str "a")], leBytes 4 1 ++ [120]⟩ := rfl
  rw [hNode]
  have hCovered : ¬Covered ⟨[(str "int64", str "a")], leBytes 4 1 ++ [120]⟩ := by
    rintro ⟨layout, hLayout, hSpans, -⟩
    obtain rfl : [(str "a", (⟨str "int64", 0, 8, false⟩ : Slot))] = layout := Except.ok.inj hLayout
    exact absurd hSpans (by decide)
  exact ⟨hCovered, fun hKeeps => hCovered hKeeps.covered⟩

end Node

end JavaScript
end Wwatp
