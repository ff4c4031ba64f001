import Wwatp.Cxx.Throwing
import Wwatp.JavaScript.PropertyChanges

/-! The methods of the JavaScript client's `TreeNode` that change its properties. -/
namespace Wwatp
namespace JavaScript

open Cxx

/-- A method of a node. What it throws leaves the node as it then is. -/
abbrev Method := EStateM JsError Node

namespace Method

/-- A call of a function that does not change the node. -/
def call {α : Type} (x : Result α) : Method α := fun n =>
  match x with
  | .ok a => .ok a n
  | .error e => .error e n

def throwIf (condition : Prop) [Decidable condition] (message : Str) : Method Unit :=
  call (if condition then throw (.error message) else .ok ())

end Method

open Method

variable {Value Text : Type}

def Host.inferFixedType (host : Host Value Text) (value : Value) : Result Str :=
  if host.typeOf value = str "boolean" then .ok (str "bool")
  else if host.typeOf value = str "bigint" then .ok (str "int64")
  else if host.typeOf value = str "number" then .ok (str "double")
  else throw (.error (str "Cannot infer fixed type from value; pass explicit type"))

/-- The type of a property that is inserted; a type that is missing is inferred. -/
def Host.typeFor (host : Host Value Text) (value : Value) (type : Str) : Result Str :=
  if type = [] then host.inferFixedType value else .ok type

def getPropertyValueSpan (infos : List PropertyInfo) (propertyData : List UInt8) (name : Str) :
    Result (ℕ × List UInt8 × List UInt8) := do
  let slot ← findSlot infos propertyData name
  if slot.isVariable then
    return (slot.span, slice propertyData slot.offset 4, slice propertyData (slot.offset + 4) (slot.span - 4))
  else throw (.error (str "Property is fixed-size; expected variable-size span"))

namespace Node

def setPropertyValue (host : Host Value Text) (name : Str) (value : Value) (typeHint : Str) : Method Unit := do
  let n ← get
  let slot ← call (findSlot n.propertyInfos n.propertyData name)
  throwIf slot.isVariable (str "setPropertyValue expects fixed-size property")
  let type := if slot.type = [] then typeHint else slot.type
  throwIf (type ∉ fixedSizeTypes) (str "Unsupported fixed type: " ++ type)
  let parts ← call ((Change.setFixed name type value).buildPropertiesWithChange host n.propertyInfos n.propertyData)
  modify fun n => { n with propertyData := parts }

def setPropertyValueSpan (host : Host Value Text) (name : Str) (data : List UInt8) : Method Unit := do
  let n ← get
  let slot ← call (findSlot n.propertyInfos n.propertyData name)
  throwIf (!slot.isVariable) (str "setPropertyValueSpan expects variable-size property")
  let parts ← call ((Change.setVar name data).buildPropertiesWithChange host n.propertyInfos n.propertyData)
  modify fun n => { n with propertyData := parts }

def setPropertyString (host : Host Value Text) (name : Str) (text : Text) : Method Unit := do
  let data ← call (host.utf8Encode text)
  setPropertyValueSpan host name data

/-- What the methods that insert a property do last: the data are built, and only then are the fields assigned. -/
def insertChange (host : Host Value Text) (change : Change Value) (index : ℕ) (info : PropertyInfo) : Method Unit := do
  let n ← get
  let parts ← call (change.buildPropertiesWithChange host n.propertyInfos n.propertyData)
  modify fun n => { n with propertyInfos := insertAt n.propertyInfos index info }
  modify fun n => { n with propertyData := parts }

def throwIfExists (name : Str) : Method Unit := do
  let n ← get
  throwIf (∃ info ∈ n.propertyInfos, info.2 = name) (str "Property exists: " ++ name)

def insertProperty (host : Host Value Text) (index : ℤ) (name : Str) (value : Value) (type : Str) : Method Unit := do
  throwIfExists name
  let t ← call (host.typeFor value type)
  throwIf (t ∉ fixedSizeTypes) (str "insertProperty for fixed types requires a supported type")
  let n ← get
  let safeIndex := clampIndex index n.propertyInfos.length
  insertChange host (.insertFixed safeIndex name t value) safeIndex (t, name)

def insertPropertySpan (host : Host Value Text) (index : ℤ) (name type : Str) (data : List UInt8) : Method Unit := do
  throwIfExists name
  let n ← get
  let safeIndex := clampIndex index n.propertyInfos.length
  insertChange host (.insertVar safeIndex name type data) safeIndex (type, name)

def insertPropertyString (host : Host Value Text) (index : ℤ) (name type : Str) (text : Text) : Method Unit := do
  throwIfExists name
  let data ← call (host.utf8Encode text)
  let n ← get
  let safeIndex := clampIndex index n.propertyInfos.length
  insertChange host (.insertVar safeIndex name type data) safeIndex (type, name)

def deleteProperty (host : Host Value Text) (name : Str) : Method Unit := do
  let n ← get
  throwIf (∀ info ∈ n.propertyInfos, info.2 ≠ name) (str "Property not found: " ++ name)
  let parts ← call ((Change.delete name : Change Value).buildPropertiesWithChange host n.propertyInfos n.propertyData)
  modify fun n => { n with propertyInfos := n.propertyInfos.filter fun info => info.2 ≠ name }
  modify fun n => { n with propertyData := parts }

end Node

section Throwing

/-! A method assigns the fields when nothing can throw any more. -/

variable {n : Node} (host : Host Value Text)

theorem Method.readsOnly_call {α : Type} (x : Result α) : ReadsOnly (call x) := by
  intro n
  cases x with
  | ok a => exact Or.inl ⟨a, rfl⟩
  | error e => exact Or.inr ⟨e, rfl⟩

theorem Method.readsOnly_throwIf (condition : Prop) [Decidable condition] (message : Str) : ReadsOnly (throwIf condition message) :=
  readsOnly_call _

namespace Node

theorem readsOnly_throwIfExists (name : Str) : ReadsOnly (throwIfExists name) := by
  intro n
  rw [throwIfExists, bind_of_ok (x := get) rfl]
  exact readsOnly_throwIf _ _ n

theorem atomic_insertChange (change : Change Value) (index : ℕ) (info : PropertyInfo) :
    Atomic (insertChange host change index info) := by
  refine readsOnly_get.bind fun n => (readsOnly_call _).bind fun parts => ?_
  exact ((neverThrows_modify _).bind fun _ => neverThrows_modify _).atomic

theorem atomic_setPropertyValue (name : Str) (value : Value) (typeHint : Str) : Atomic (setPropertyValue host name value typeHint) := by
  refine readsOnly_get.bind fun n => (readsOnly_call _).bind fun slot => (readsOnly_throwIf _ _).bind fun _ => ?_
  refine (readsOnly_throwIf _ _).bind fun _ => (readsOnly_call _).bind fun parts => ?_
  exact (neverThrows_modify _).atomic

theorem atomic_setPropertyValueSpan (name : Str) (data : List UInt8) : Atomic (setPropertyValueSpan host name data) := by
  refine readsOnly_get.bind fun n => (readsOnly_call _).bind fun slot => (readsOnly_throwIf _ _).bind fun _ => ?_
  refine (readsOnly_call _).bind fun parts => ?_
  exact (neverThrows_modify _).atomic

theorem atomic_setPropertyString (name : Str) (text : Text) : Atomic (setPropertyString host name text) :=
  (readsOnly_call _).bind fun data => atomic_setPropertyValueSpan host name data

theorem atomic_insertProperty (index : ℤ) (name : Str) (value : Value) (type : Str) :
    Atomic (insertProperty host index name value type) := by
  refine (readsOnly_throwIfExists name).bind fun _ => (readsOnly_call _).bind fun t => (readsOnly_throwIf _ _).bind fun _ => ?_
  exact readsOnly_get.bind fun n => atomic_insertChange host _ _ _

theorem atomic_insertPropertySpan (index : ℤ) (name type : Str) (data : List UInt8) :
    Atomic (insertPropertySpan host index name type data) :=
  (readsOnly_throwIfExists name).bind fun _ => readsOnly_get.bind fun _ => atomic_insertChange host _ _ _

theorem atomic_insertPropertyString (index : ℤ) (name type : Str) (text : Text) :
    Atomic (insertPropertyString host index name type text) :=
  (readsOnly_throwIfExists name).bind fun _ => (readsOnly_call _).bind fun _ => readsOnly_get.bind fun _ =>
    atomic_insertChange host _ _ _

theorem atomic_deleteProperty (name : Str) : Atomic (deleteProperty host name) := by
  refine readsOnly_get.bind fun n => (readsOnly_throwIf _ _).bind fun _ => (readsOnly_call _).bind fun parts => ?_
  exact ((neverThrows_modify _).bind fun _ => neverThrows_modify _).atomic

end Node

end Throwing

section Insertion

/-! The methods that insert a property do what the functions on nodes without exceptions do. -/

variable (host : Host Value Text)

/-- The node that a function returns; the old one where it throws. -/
def Method.settle (n : Node) (x : Result Node) : EStateM.Result JsError Node Unit :=
  match x with
  | .ok m => .ok () m
  | .error e => .error e n

theorem Method.throwIf_of_not {condition : Prop} [Decidable condition] (h : ¬condition) (message : Str) (n : Node) :
    throwIf condition message n = .ok () n := by
  rw [throwIf, if_neg h]
  rfl

theorem Method.throwIf_of {condition : Prop} [Decidable condition] (h : condition) (message : Str) (n : Node) :
    throwIf condition message n = .error (.error message) n := by
  rw [throwIf, if_pos h]
  rfl

theorem Method.call_ok {α : Type} {x : Result α} {a : α} (h : x = .ok a) (n : Node) : call x n = .ok a n := by
  rw [h, call]

theorem Method.of_call_ok {α : Type} {x : Result α} {a : α} {n m : Node} (h : call x n = .ok a m) : x = .ok a := by
  cases x with
  | ok b =>
      cases h
      rfl
  | error e => cases h

theorem Method.call_error {α : Type} {x : Result α} {e : JsError} (h : x = .error e) (n : Node) : call x n = .error e n := by
  rw [h, call]

namespace Node

theorem throwIfExists_of {n : Node} {name : Str} (h : ∃ info ∈ n.propertyInfos, info.2 = name) :
    throwIfExists name n = .error (.error (str "Property exists: " ++ name)) n :=
  throwIf_of h _ n

theorem throwIfExists_of_not {n : Node} {name : Str} (h : ¬∃ info ∈ n.propertyInfos, info.2 = name) :
    throwIfExists name n = .ok () n :=
  throwIf_of_not h _ n

theorem clampIndex_le (index : ℤ) (count : ℕ) : clampIndex index count ≤ count := by
  rw [clampIndex]
  split_ifs <;> omega

theorem insertChange_eq {n : Node} {change : Change Value} {index : ℕ} {info : PropertyInfo} {inserted : List UInt8}
    (hPlace : change.index = some index) (hIndex : index ≤ n.propertyInfos.length)
    (hInserted : change.insertedBytes host = .ok inserted) :
    insertChange host change index info n = settle n (do
      let parts ← JavaScript.buildPropertiesWithChange n.propertyInfos n.propertyData index inserted
      return ⟨insertAt n.propertyInfos index info, parts⟩) := by
  have hBuild : change.buildPropertiesWithChange host n.propertyInfos n.propertyData = _ :=
    change.buildPropertiesWithChange_insertion hPlace hIndex hInserted
  show (call (change.buildPropertiesWithChange host n.propertyInfos n.propertyData) >>= _) n = _
  rw [hBuild]
  cases hParts : JavaScript.buildPropertiesWithChange n.propertyInfos n.propertyData index inserted with
  | error e => rfl
  | ok parts => rfl

theorem insertPropertySpan_eq (n : Node) (index : ℤ) (name type : Str) (data : List UInt8) :
    insertPropertySpan host index name type data n = settle n (JavaScript.insertPropertySpan n index name type data) := by
  rw [JavaScript.insertPropertySpan, insertBytes]
  by_cases hExists : ∃ info ∈ n.propertyInfos, info.2 = name
  · rw [if_pos (by simpa using hExists)]
    exact bind_of_error (throwIfExists_of hExists)
  · rw [if_neg (by simpa using hExists), insertPropertySpan, bind_of_ok (throwIfExists_of_not hExists)]
    exact insertChange_eq host rfl (clampIndex_le ..) rfl

theorem insertPropertyString_eq (n : Node) (index : ℤ) (name type : Str) {text : Text} {data : List UInt8}
    (hText : host.utf8Encode text = .ok data) :
    insertPropertyString host index name type text n = insertPropertySpan host index name type data n := by
  by_cases hExists : ∃ info ∈ n.propertyInfos, info.2 = name
  · rw [insertPropertyString, insertPropertySpan, bind_of_error (throwIfExists_of hExists),
      bind_of_error (throwIfExists_of hExists)]
  · rw [insertPropertyString, insertPropertySpan, bind_of_ok (throwIfExists_of_not hExists),
      bind_of_ok (throwIfExists_of_not hExists), bind_of_ok (call_ok hText n)]

theorem insertProperty_eq (n : Node) (index : ℤ) (name : Str) {value : Value} {type t : Str} {v : FixedValue}
    (hType : host.typeFor value type = .ok t) (hValue : host.fixedValue t value = .ok v) :
    insertProperty host index name value type n = settle n (JavaScript.insertProperty n index name v) := by
  have hTypename := typename_fixedValue hValue
  have hFixed : ¬t ∉ fixedSizeTypes := not_not_intro (hTypename ▸ typename_mem_fixedSizeTypes v)
  have hInserted (index : ℕ) : (Change.insertFixed index name t value).insertedBytes host = .ok v.bytes := by
    rw [Change.insertedBytes, hValue]
    rfl
  rw [JavaScript.insertProperty, insertBytes, hTypename]
  by_cases hExists : ∃ info ∈ n.propertyInfos, info.2 = name
  · rw [if_pos (by simpa using hExists)]
    exact bind_of_error (throwIfExists_of hExists)
  · rw [if_neg (by simpa using hExists), insertProperty, bind_of_ok (throwIfExists_of_not hExists), bind_of_ok (call_ok hType n),
      bind_of_ok (throwIf_of_not hFixed _ n)]
    exact insertChange_eq host rfl (clampIndex_le ..) (hInserted _)

end Node

end Insertion

end JavaScript
end Wwatp
