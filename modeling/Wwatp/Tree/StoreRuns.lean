import Wwatp.Cxx.NamedEntries
import Wwatp.Tree.HeldProperties

/-! Runs of operations on the properties of a node. They keep a dictionary, as long as no chunk that is written in
place is shared and no span is inserted under the name of a type of fixed size. -/
namespace Wwatp

open Cxx

/-- A call of an operation that changes properties. -/
inductive PropertyCall
  | insertProperty (index : ℕ) (name : Str) (value : FixedValue)
  | insertPropertyString (index : ℕ) (name type value : Str)
  | insertPropertySpan (index : ℕ) (name type : Str) (data : HeldSpan)
  | setPropertyValue (name : Str) (value : FixedValue)
  | setPropertyString (name value : Str)
  | setPropertyValueSpan (name : Str) (data : HeldSpan)
  | deleteProperty (name : Str)
  deriving DecidableEq

/-- What a dictionary holds under each name: a type and a value. -/
abbrev PropertyContents := Str → Option (Str × PropertyReading)

namespace PropertyCall

def name : PropertyCall → Str
  | insertProperty _ name _ => name
  | insertPropertyString _ name _ _ => name
  | insertPropertySpan _ name _ _ => name
  | setPropertyValue name _ => name
  | setPropertyString name _ => name
  | setPropertyValueSpan name _ => name
  | deleteProperty name => name

/-- The span that is given to the call. -/
def givenSpan : PropertyCall → Option HeldSpan
  | insertPropertySpan _ _ _ data => some data
  | setPropertyValueSpan _ data => some data
  | _ => none

/-- The number of bytes of a string or a span that is given to the call. -/
def givenSize : PropertyCall → ℕ
  | insertPropertyString _ _ _ value => value.length
  | setPropertyString _ value => value.length
  | call => (call.givenSpan.map HeldSpan.size).getD 0

/-- The type that is given to a call which inserts a string or a span. -/
def givenType : PropertyCall → Option Str
  | insertPropertyString _ _ type _ => some type
  | insertPropertySpan _ _ type _ => some type
  | _ => none

/-- A call that gives a property another string or span. -/
def setsSpan : PropertyCall → Bool
  | setPropertyString .. => true
  | setPropertyValueSpan .. => true
  | _ => false

def inserts : PropertyCall → Bool
  | insertProperty .. => true
  | insertPropertyString .. => true
  | insertPropertySpan .. => true
  | _ => false

/-- What is under the name of a call after it. Inserting throws where there is a property, and writing where there is
none, or none of the type. -/
def writes (old : Option (Str × PropertyReading)) : PropertyCall → Option (Str × PropertyReading)
  | insertProperty _ _ value => some (old.getD (value.typename, .fixed value))
  | insertPropertyString _ _ type value => some (old.getD (type, .bytes value))
  | insertPropertySpan _ _ type data => some (old.getD (type, .bytes data.span.bytes))
  | setPropertyValue _ value => old.map fun held => if held.1 = value.typename then (held.1, .fixed value) else held
  | setPropertyString _ value => old.map fun held => (held.1, .bytes value)
  | setPropertyValueSpan _ data => old.map fun held => (held.1, .bytes data.span.bytes)
  | deleteProperty _ => none

/-- The dictionary after a call. -/
def after (contents : PropertyContents) (call : PropertyCall) : PropertyContents :=
  Function.update contents call.name (call.writes (contents call.name))

/-- The dictionary after some calls. -/
def contents (calls : List PropertyCall) : PropertyContents := calls.foldl after fun _ => none

theorem contents_append (calls : List PropertyCall) (call : PropertyCall) :
    contents (calls ++ [call]) = after (contents calls) call := by
  rw [contents, List.foldl_append]
  rfl

/-- A call that does not change what is under its name changes nothing. -/
theorem after_eq_self {contents : PropertyContents} {call : PropertyCall}
    (h : call.writes (contents call.name) = contents call.name) : after contents call = contents := by
  rw [after, h, Function.update_eq_self]

theorem after_of_eq {contents : PropertyContents} {call : PropertyCall} {old : Option (Str × PropertyReading)}
    (h : contents call.name = old) : after contents call = Function.update contents call.name (call.writes old) := by
  rw [after, h]

/-- The bytes of a value in the property data. -/
def encoding : Option (Str × PropertyReading) → List UInt8
  | none => []
  | some (_, .fixed value) => value.bytes
  | some (_, .bytes data) => leBytes 8 data.length ++ data

end PropertyCall

namespace PropertyStore

open PropertyCall HeldProperty

/-- A call in a store; `pool` gives the addresses of the chunks that it allocates. -/
def perform (pool : ℕ → ℕ) (s : PropertyStore) : PropertyCall → Outcome PropertyStore
  | .insertProperty index name value => s.insertProperty pool index name value
  | .insertPropertyString index name type value => s.insertPropertyString pool index name type value
  | .insertPropertySpan index name type data => s.insertPropertySpan pool index name type data
  | .setPropertyValue name value => s.setPropertyValue name value
  | .setPropertyString name value => s.setPropertyString pool name value
  | .setPropertyValueSpan name data => s.setPropertyValueSpan name data
  | .deleteProperty name => s.deleteProperty name

/-- The store after a call; one that throws leaves it as it is. -/
def step (s : PropertyStore) (pool : ℕ → ℕ) (call : PropertyCall) : PropertyStore :=
  match s.perform pool call with
  | .ok t => t
  | .error _ => s

/-- The chunks that a call allocates are in no span, a string or span that it is given fits in memory and is written
to a property of variable size, and the name is not empty. -/
structure Called (s : PropertyStore) (pool : ℕ → ℕ) (call : PropertyCall) : Prop where
  injective : pool.Injective
  free : ∀ i, pool i ∉ s.propertyData.addresses ∧ ∀ data ∈ call.givenSpan, pool i ∉ data.addresses
  fits : call.givenSize < 2 ^ 63
  variableSize : call.setsSpan → ∀ info ∈ s.propertyInfos, info.2 = call.name → fixedSize info.1 = none
  named : call.name ≠ []

/-- Besides, a string or span is not inserted as a value of fixed size, and a span that is given shares no chunk with
the property data. -/
structure CalledApart (s : PropertyStore) (pool : ℕ → ℕ) (call : PropertyCall) : Prop extends Called s pool call where
  untyped : ∀ type ∈ call.givenType, fixedSize type = none
  unshared : ∀ data ∈ call.givenSpan, ∀ address ∈ data.addresses, address ∉ s.propertyData.addresses

/-- A run of calls from a node without properties. -/
inductive Run (allowed : PropertyStore → (ℕ → ℕ) → PropertyCall → Prop) : List PropertyCall → PropertyStore → Prop
  | start {s : PropertyStore} (hInfos : s.propertyInfos = []) (hData : s.propertyData.size = 0) : Run allowed [] s
  | call {calls : List PropertyCall} {s : PropertyStore} (prior : Run allowed calls s) (pool : ℕ → ℕ) (call : PropertyCall)
      (hAllowed : allowed s pool call) : Run allowed (calls ++ [call]) (s.step pool call)

/-- What is read under a name. -/
def Reads (s : PropertyStore) (name : Str) : Option (Str × PropertyReading) → Prop
  | none => ∀ info ∈ s.propertyInfos, info.2 ≠ name
  | some (type, .fixed value) => (type, name) ∈ s.propertyInfos ∧
      ∃ span, s.node.getPropertyValue type name = .ok (value.bytes.length, value, span)
  | some (type, .bytes data) => (type, name) ∈ s.propertyInfos ∧ s.node.getPropertyString name = .ok (data.length, data) ∧
      ∃ length span, s.node.getPropertyValueSpan name = .ok (data.length, length, span) ∧ span.bytes = data

/-- The store is a dictionary. -/
structure Stores (allowed : PropertyStore → (ℕ → ℕ) → PropertyCall → Prop) (calls : List PropertyCall) (s : PropertyStore) :
    Prop where
  bytes : s.propertyData.span.bytes = s.propertyInfos.flatMap fun info => encoding (contents calls info.2)
  reads : ∀ name, s.Reads name (contents calls name)
  defined : ∀ pool call, allowed s pool call → (s.perform pool call).Defined
  others : ∀ pool call, allowed s pool call → ∀ name ≠ call.name, (s.step pool call).Reads name (contents calls name)
  restored : ∀ pool call, allowed s pool call → call.inserts → (∀ info ∈ s.propertyInfos, info.2 ≠ call.name) →
    ∃ t, (s.step pool call).deleteProperty call.name = .ok t ∧ t.propertyInfos = s.propertyInfos ∧
      t.propertyData.span.bytes = s.propertyData.span.bytes

/-- The dictionary that some properties make up. -/
def dictionary (properties : List HeldProperty) : PropertyContents :=
  contentsOf (fun p => p.info.2) (fun p => (p.info.1, p.value.reading)) properties

section Calls

variable {s : PropertyStore} {properties front back : List HeldProperty} {p : HeldProperty} {pool : ℕ → ℕ}

theorem Holds.others_ne (h : s.Holds (front ++ p :: back)) : ∀ q ∈ front ++ back, q.info.2 ≠ p.info.2 := fun _ hq =>
  (h.name_ne hq).1.symm

theorem Holds.dictionary_name (h : s.Holds (front ++ p :: back)) :
    dictionary (front ++ p :: back) p.info.2 = some (p.info.1, p.value.reading) :=
  contentsOf_middle fun q hq => h.others_ne q (List.mem_append_left _ hq)

theorem Holds.dictionary_replaced (h : s.Holds (front ++ p :: back)) {q : HeldProperty} (hName : q.info.2 = p.info.2) :
    dictionary (front ++ q :: back) = Function.update (dictionary (front ++ p :: back)) p.info.2 (some (q.info.1, q.value.reading)) :=
  contentsOf_replaced h.others_ne hName

/-- Inserting a property whose name there is throws. -/
theorem Holds.insertBefore_exists (h : s.Holds properties) {q : HeldProperty} (hq : q ∈ properties) {next info : PropertyInfo}
    (hName : q.info.2 = info.2) (data : List HeldSpan) :
    s.insertBefore next info data = .error (.invalidArgument (str "Property already exists: " ++ info.2)) := by
  apply if_pos
  rw [h.infos, List.any_map, List.any_eq_true]
  exact ⟨q, hq, by simpa using hName⟩

/-- Data that fit in one chunk. -/
theorem ofSignal_of_le {signal : ChunkHeader} {data : List UInt8} (hFits : data.length ≤ chunkSize - signal.size) :
    HeldSpan.ofSignal pool signal data = ⟨[⟨pool 0, .ofHeader signal data⟩], signal.signalType⟩ := by
  rw [HeldSpan.ofSignal, SharedSpan.ofSignal_of_le hFits]
  rfl

/-- The chunks of the properties are among those of the store. -/
theorem Holds.mem_addresses (h : s.Holds properties) {q : HeldProperty} (hq : q ∈ properties) {address : ℕ}
    (hMem : address ∈ q.addresses) : address ∈ s.propertyData.addresses := by
  obtain ⟨c, hc, rfl⟩ := List.mem_map.mp hMem
  have hChunk : c ∈ nonemptyPieces SharedChunk.size s.propertyData.chunks := by
    rw [h.chunks]
    exact List.mem_flatMap.mpr ⟨q, hq, hc⟩
  exact List.mem_map_of_mem (List.mem_filter.mp hChunk).1

/-- A property in other memory than that of the store is apart from those in it. -/
theorem Holds.apart_new (h : s.Holds properties) (hNew : ∀ q ∈ properties, q.info.2 ≠ p.info.2)
    (hAddresses : ∀ address ∈ p.addresses, address ∉ s.propertyData.addresses) : ∀ q ∈ properties, p.Apart q := fun q hq =>
  ⟨(hNew q hq).symm, fun hMem => hAddresses _ List.mem_cons_self (h.mem_addresses hq hMem),
    fun hMem => hAddresses _ hMem (h.mem_addresses hq List.mem_cons_self)⟩

theorem Holds.insertProperty_new (h : s.Holds properties) (index : ℕ) {name : Str} (value : FixedValue)
    (hNew : ∀ q ∈ properties, q.info.2 ≠ name) (hFree : pool 0 ∉ s.propertyData.addresses) :
    ∃ t front back, s.insertProperty pool index name value = .ok t ∧ properties = front ++ back ∧
      t.Holds (front ++ ofFixed name (pool 0) value :: back) := by
  have hLe := (Property.length_bytes_pos value).2
  have hSignal : HeldSpan.ofSignal pool (.payload ⟨0, 0x00, .ofNat value.bytes.length⟩) value.bytes =
      ⟨(ofFixed name (pool 0) value).chunks, 2⟩ :=
    ofSignal_of_le (by simp only [ChunkHeader.size, chunkSize]; omega)
  have hApart := h.apart_new (p := ofFixed name (pool 0) value) hNew fun address hMem => by
    rw [List.mem_singleton.mp hMem]
    exact hFree
  have hChunks : ([⟨(ofFixed name (pool 0) value).chunks, 2⟩] : List HeldSpan).flatMap
      (fun span => nonemptyPieces SharedChunk.size span.chunks) = (ofFixed name (pool 0) value).chunks := by
    rw [List.flatMap_singleton, nonemptyPieces_of_nonempty (size_ne_zero _)]
  rw [PropertyStore.insertProperty, hSignal]
  obtain ⟨t, hInsert, hHolds⟩ := h.insertBefore hChunks hApart
  exact ⟨t, _, _, hInsert, (List.take_append_drop _ properties).symm, hHolds⟩

theorem Holds.insertPropertySpan_new (h : s.Holds properties) (pool : ℕ → ℕ) (index : ℕ) {name type : Str} {data : HeldSpan}
    (hType : fixedSize type = none) (hFits : data.size < 2 ^ 63) (hNew : ∀ q ∈ properties, q.info.2 ≠ name)
    (hFree : pool 0 ∉ s.propertyData.addresses) (hOwn : pool 0 ∉ data.addresses)
    (hData : ∀ address ∈ data.addresses, address ∉ s.propertyData.addresses) :
    ∃ t front back, s.insertPropertySpan pool index name type data = .ok t ∧ properties = front ++ back ∧
      t.Holds (front ++ ofSpan (type, name) hType (pool 0) data hFits hOwn :: back) := by
  have hSignal : HeldSpan.ofSignal pool (.payload ⟨0, 0x00, 8⟩) (leBytes 8 data.size) =
      ⟨[⟨pool 0, Property.lengthChunk data.size⟩], 2⟩ :=
    ofSignal_of_le (by simp [ChunkHeader.size, chunkSize])
  have hApart := h.apart_new (p := ofSpan (type, name) hType (pool 0) data hFits hOwn) hNew fun address hMem => by
    rcases List.mem_cons.mp hMem with rfl | hRest
    · exact hFree
    · obtain ⟨c, hc, rfl⟩ := List.mem_map.mp hRest
      exact hData _ (List.mem_map_of_mem (List.mem_filter.mp hc).1)
  have hLength : nonemptyPieces SharedChunk.size [⟨pool 0, Property.lengthChunk data.size⟩] =
      [⟨pool 0, Property.lengthChunk data.size⟩] := by
    apply nonemptyPieces_of_nonempty
    intro c hc
    rw [List.mem_singleton.mp hc, SharedChunk.size, Property.size_lengthChunk]
    omega
  have hChunks : [⟨[⟨pool 0, Property.lengthChunk data.size⟩], 2⟩, data].flatMap
      (fun span => nonemptyPieces SharedChunk.size span.chunks) =
        (ofSpan (type, name) hType (pool 0) data hFits hOwn).chunks := by
    rw [List.flatMap_cons, List.flatMap_singleton, hLength]
    rfl
  rw [PropertyStore.insertPropertySpan, hSignal]
  obtain ⟨t, hInsert, hHolds⟩ := h.insertBefore hChunks hApart
  exact ⟨t, _, _, hInsert, (List.take_append_drop _ properties).symm, hHolds⟩

section Strings

theorem bytes_stringSpan (pool : ℕ → ℕ) (value : Str) : (stringSpan pool value).span.bytes = value := by
  rw [stringSpan, HeldSpan.span_ofSignal, SharedSpan.bytes_ofSignal]

theorem size_stringSpan (pool : ℕ → ℕ) (value : Str) : (stringSpan pool value).size = value.length := by
  rw [← HeldSpan.size_span, SharedSpan.size_eq_bytes_length, bytes_stringSpan]

end Strings

/-- A property that is inserted under a new name. -/
theorem Holds.insertion (h : s.Holds properties) {call : PropertyCall} (hAllowed : CalledApart s pool call)
    (hInserts : call.inserts) (hNew : ∀ q ∈ properties, q.info.2 ≠ call.name) :
    ∃ t front p back, s.perform pool call = .ok t ∧ properties = front ++ back ∧ t.Holds (front ++ p :: back) ∧
      p.info.2 = call.name ∧ call.writes none = some (p.info.1, p.value.reading) := by
  obtain ⟨⟨hInjective, hFree, hFits, -, -⟩, hUntyped, hUnshared⟩ := hAllowed
  cases call with
  | insertProperty index name value =>
      obtain ⟨t, front, back, hPerform, hSplit, hHolds⟩ := h.insertProperty_new index value hNew (hFree 0).1
      exact ⟨t, front, _, back, hPerform, hSplit, hHolds, rfl, rfl⟩
  | insertPropertyString index name type value =>
      -- the chunks of the string are allocated in front of the one of its length
      have hString {address : ℕ} (hMem : address ∈ (stringSpan pool value).addresses) :
          ∃ i < (stringSpan pool value).chunks.length, address = pool i := HeldSpan.mem_addresses_ofSignal hMem
      have hOwn : pool ((stringSpan pool value).chunks.length + 0) ∉ (stringSpan pool value).addresses := by
        intro hMem
        obtain ⟨i, hi, hSame⟩ := hString hMem
        have hIndex := hInjective hSame
        omega
      have hData : ∀ address ∈ (stringSpan pool value).addresses, address ∉ s.propertyData.addresses := by
        intro address hMem
        obtain ⟨i, -, rfl⟩ := hString hMem
        exact (hFree i).1
      have hSize : (stringSpan pool value).size < 2 ^ 63 := by
        rw [size_stringSpan]
        exact hFits
      have hSpan := h.insertPropertySpan_new (fun i => pool ((stringSpan pool value).chunks.length + i)) index
        (hUntyped type rfl) hSize hNew (hFree _).1 hOwn hData
      obtain ⟨t, front, back, hPerform, hSplit, hHolds⟩ := hSpan
      refine ⟨t, front, _, back, hPerform, hSplit, hHolds, rfl, ?_⟩
      show some (type, PropertyReading.bytes value) = some (type, .bytes (stringSpan pool value).span.bytes)
      rw [bytes_stringSpan]
  | insertPropertySpan index name type data =>
      obtain ⟨t, front, back, hPerform, hSplit, hHolds⟩ := h.insertPropertySpan_new pool index (hUntyped type rfl) hFits hNew
        (hFree 0).1 ((hFree 0).2 data rfl) (hUnshared data rfl)
      exact ⟨t, front, _, back, hPerform, hSplit, hHolds, rfl, rfl⟩
  | setPropertyValue | setPropertyString | setPropertyValueSpan | deleteProperty => cases hInserts

/-- What a call does to a store of some properties: it does what it does to their dictionary, or it throws where the
dictionary stays as it is. -/
def Performs (s : PropertyStore) (pool : ℕ → ℕ) (call : PropertyCall) (properties : List HeldProperty) : Prop :=
  (∃ t others, s.perform pool call = .ok t ∧ t.Holds others ∧ dictionary others = after (dictionary properties) call) ∨
    (∃ what, s.perform pool call = .error (.invalidArgument what)) ∧ after (dictionary properties) call = dictionary properties

/-- A call for a name that there is. -/
theorem Holds.performs_split (h : s.Holds (front ++ p :: back)) {call : PropertyCall} (hAllowed : CalledApart s pool call)
    (hName : p.info.2 = call.name) : Performs s pool call (front ++ p :: back) := by
  have hFound := h.dictionary_name
  have hMem : p ∈ front ++ p :: back := by simp
  have hInfo : p.info ∈ s.propertyInfos := by
    rw [h.infos]
    exact List.mem_map_of_mem hMem
  have hHead : p.head.address ∈ s.propertyData.addresses := h.mem_addresses hMem List.mem_cons_self
  obtain ⟨⟨hInjective, hFree, hFits, hVariable, -⟩, -, hUnshared⟩ := hAllowed
  have hSpan (data : HeldSpan) (hType : fixedSize p.info.1 = none) (hSize : data.size < 2 ^ 63)
      (hApart : ∀ address ∈ data.addresses, address ∉ s.propertyData.addresses) :
      ∃ t others, s.setPropertyValueSpan p.info.2 data = .ok t ∧ t.Holds others ∧
        dictionary others = Function.update (dictionary (front ++ p :: back)) p.info.2 (some (p.info.1, .bytes data.span.bytes)) := by
    have hAddress : p.head.address ∉ data.addresses := fun hShared => hApart _ hShared hHead
    obtain ⟨t, hSet, hHolds⟩ := h.setPropertyValueSpan hType hSize hApart hAddress
    exact ⟨t, _, hSet, hHolds, h.dictionary_replaced rfl⟩
  cases call with
  | insertProperty index name value =>
      exact Or.inr ⟨⟨_, h.insertBefore_exists hMem hName _⟩, after_eq_self (by rw [← hName, hFound]; rfl)⟩
  | insertPropertyString index name type value =>
      exact Or.inr ⟨⟨_, h.insertBefore_exists hMem hName _⟩, after_eq_self (by rw [← hName, hFound]; rfl)⟩
  | insertPropertySpan index name type data =>
      exact Or.inr ⟨⟨_, h.insertBefore_exists hMem hName _⟩, after_eq_self (by rw [← hName, hFound]; rfl)⟩
  | setPropertyValue name value =>
      obtain rfl : p.info.2 = name := hName
      by_cases hType : p.info.1 = value.typename
      · obtain ⟨t, hSet, hHolds⟩ := h.setPropertyValue hType
        refine Or.inl ⟨t, _, hSet, hHolds, ?_⟩
        have hAfter : after (dictionary (front ++ p :: back)) (.setPropertyValue p.info.2 value) = _ := after_of_eq hFound
        rw [hAfter, writes, Option.map_some, if_pos hType, hType]
        exact h.dictionary_replaced rfl
      · refine Or.inr ⟨⟨str "Property not found when calling SetPropertyDataAs: " ++ p.info.2, if_pos fun hPair => ?_⟩,
          after_eq_self ?_⟩
        · rw [h.infos] at hPair
          obtain ⟨q, hq, hSame⟩ := List.mem_map.mp hPair
          by_cases hEq : q = p
          · subst hEq
            exact hType (by rw [hSame])
          · have hOther : q ∈ front ++ back := by
              simp only [List.mem_append, List.mem_cons] at hq ⊢
              tauto
            exact h.others_ne q hOther (by rw [hSame])
        · show writes (dictionary (front ++ p :: back) p.info.2) _ = dictionary (front ++ p :: back) p.info.2
          rw [hFound, writes, Option.map_some, if_neg hType]
  | setPropertyString name value =>
      obtain rfl : p.info.2 = name := hName
      have hString : ∀ address ∈ (stringSpan pool value).addresses, address ∉ s.propertyData.addresses := by
        intro address hAddress
        obtain ⟨i, -, rfl⟩ := HeldSpan.mem_addresses_ofSignal hAddress
        exact (hFree i).1
      obtain ⟨t, others, hSet, hHolds, hContents⟩ := hSpan (stringSpan pool value) (hVariable rfl p.info hInfo rfl)
        (by rw [size_stringSpan]; exact hFits) hString
      refine Or.inl ⟨t, others, hSet, hHolds, ?_⟩
      have hAfter : after (dictionary (front ++ p :: back)) (.setPropertyString p.info.2 value) = _ := after_of_eq hFound
      rw [hContents, hAfter, bytes_stringSpan]
      rfl
  | setPropertyValueSpan name data =>
      obtain rfl : p.info.2 = name := hName
      obtain ⟨t, others, hSet, hHolds, hContents⟩ := hSpan data (hVariable rfl p.info hInfo rfl) hFits (hUnshared data rfl)
      refine Or.inl ⟨t, others, hSet, hHolds, ?_⟩
      have hAfter : after (dictionary (front ++ p :: back)) (.setPropertyValueSpan p.info.2 data) = _ := after_of_eq hFound
      rw [hContents, hAfter]
      rfl
  | deleteProperty name =>
      obtain rfl : p.info.2 = name := hName
      obtain ⟨t, hDelete, hHolds⟩ := h.deleteProperty
      exact Or.inl ⟨t, _, hDelete, hHolds, contentsOf_removed h.others_ne⟩

/-- A call for a name that there is not. -/
theorem Holds.performs_new (h : s.Holds properties) {call : PropertyCall} (hAllowed : CalledApart s pool call)
    (hNew : ∀ q ∈ properties, q.info.2 ≠ call.name) : Performs s pool call properties := by
  have hNone : dictionary properties call.name = none := contentsOf_of_not_mem hNew
  have hFind : s.propertyInfos.find? (fun info => info.2 = call.name) = none := by
    rw [h.infos, List.find?_map, Option.map_eq_none_iff, List.find?_eq_none]
    simpa using hNew
  cases hInserts : call.inserts with
  | true =>
      obtain ⟨t, front, p, back, hPerform, rfl, hHolds, hName, hWrites⟩ := h.insertion hAllowed hInserts hNew
      refine Or.inl ⟨t, _, hPerform, hHolds, ?_⟩
      rw [after_of_eq hNone, hWrites, ← hName]
      exact contentsOf_added hHolds.others_ne
  | false =>
      cases call with
      | insertProperty | insertPropertyString | insertPropertySpan => cases hInserts
      | setPropertyValue name value =>
          refine Or.inr ⟨⟨str "Property not found when calling SetPropertyDataAs: " ++ name, if_pos fun hPair => ?_⟩,
            after_eq_self (by rw [hNone]; rfl)⟩
          rw [h.infos] at hPair
          obtain ⟨q, hq, hSame⟩ := List.mem_map.mp hPair
          exact hNew q hq (by rw [hSame]; rfl)
      | setPropertyString name value =>
          refine Or.inr ⟨⟨str "Property not found when calling SetPropertyDataAsBytes: " ++ name, ?_⟩,
            after_eq_self (by rw [hNone]; rfl)⟩
          show PropertyStore.setPropertyValueSpan s name _ = _
          rw [PropertyStore.setPropertyValueSpan, show s.propertyInfos.find? (fun info => info.2 = name) = none from hFind]
          rfl
      | setPropertyValueSpan name data =>
          refine Or.inr ⟨⟨str "Property not found when calling SetPropertyDataAsBytes: " ++ name, ?_⟩,
            after_eq_self (by rw [hNone]; rfl)⟩
          show PropertyStore.setPropertyValueSpan s name _ = _
          rw [PropertyStore.setPropertyValueSpan, show s.propertyInfos.find? (fun info => info.2 = name) = none from hFind]
          rfl
      | deleteProperty name =>
          refine Or.inl ⟨s, properties, ?_, h, (after_eq_self (by rw [hNone]; rfl)).symm⟩
          show PropertyStore.deleteProperty s name = _
          rw [PropertyStore.deleteProperty, show s.propertyInfos.find? (fun info => info.2 = name) = none from hFind]

theorem Holds.performs (h : s.Holds properties) {call : PropertyCall} (hAllowed : CalledApart s pool call) :
    Performs s pool call properties := by
  rcases split_or_not_mem (fun p => p.info.2) properties call.name with ⟨front, p, back, rfl, hName⟩ | hNew
  · exact h.performs_split hAllowed hName
  · exact h.performs_new hAllowed hNew

/-- The dictionary follows the calls. -/
theorem Holds.step (h : s.Holds properties) {call : PropertyCall} (hAllowed : CalledApart s pool call) :
    ∃ others, (s.step pool call).Holds others ∧ dictionary others = after (dictionary properties) call := by
  rcases h.performs hAllowed with ⟨t, others, hPerform, hHolds, hContents⟩ | ⟨⟨what, hPerform⟩, hContents⟩
  · rw [PropertyStore.step, hPerform]
    exact ⟨others, hHolds, hContents⟩
  · rw [PropertyStore.step, hPerform]
    exact ⟨properties, h, hContents.symm⟩

theorem holds_of_run {calls : List PropertyCall} (h : Run CalledApart calls s) :
    ∃ properties, s.Holds properties ∧ dictionary properties = contents calls := by
  induction h with
  | @start s hInfos hData =>
      refine ⟨[], ⟨hInfos, ?_, nofun, .nil⟩, rfl⟩
      apply nonemptyPieces_of_empty
      rw [HeldSpan.size, totalSize, List.sum_eq_zero_iff] at hData
      intro c hc
      exact hData _ (List.mem_map_of_mem hc)
  | call prior pool call hAllowed ih =>
      obtain ⟨properties, hHolds, hContents⟩ := ih
      obtain ⟨others, hNext, hAfter⟩ := hHolds.step hAllowed
      exact ⟨others, hNext, by rw [hAfter, hContents, contents_append]⟩

theorem encoding_reading (p : HeldProperty) : encoding (some (p.info.1, p.value.reading)) = p.bytes := by
  rw [Property.bytes]
  cases p.value with
  | fixed value => rfl
  | span data hFits =>
      show leBytes 8 data.bytes.length ++ data.bytes = _
      rw [← data.size_eq_bytes_length]

theorem Holds.bytes_eq (h : s.Holds properties) :
    s.propertyData.span.bytes = s.propertyInfos.flatMap fun info => encoding (dictionary properties info.2) := by
  rw [h.bytes, h.infos, List.flatMap_map]
  apply List.flatMap_congr
  intro p hp
  obtain ⟨front, back, rfl⟩ := List.append_of_mem hp
  rw [h.dictionary_name, encoding_reading]

/-- What the dictionary holds is read. -/
theorem Holds.reads (h : s.Holds properties) (name : Str) : s.Reads name (dictionary properties name) := by
  rcases split_or_not_mem (fun p => p.info.2) properties name with ⟨front, p, back, rfl, rfl⟩ | hNew
  · have hMem : p ∈ front ++ p :: back := by simp
    have hInfo : (p.info.1, p.info.2) ∈ s.propertyInfos := by
      rw [h.infos]
      exact List.mem_map_of_mem (f := fun q : HeldProperty => q.info) hMem
    have hNode := h.node (List.ne_nil_of_mem hMem)
    have hMap : p.toProperty ∈ (front ++ p :: back).map toProperty := List.mem_map_of_mem hMem
    have hTyped : ∀ q ∈ (front ++ p :: back).map toProperty, q.WellTyped := by
      intro q hq
      obtain ⟨r, -, rfl⟩ := List.mem_map.mp hq
      exact r.typed
    rw [h.dictionary_name]
    cases hValue : p.value with
    | fixed value => exact ⟨hInfo, TreeNode.getPropertyValue_of_holds hNode hTyped h.names hMap hValue⟩
    | span data hFits =>
        have hString := TreeNode.getPropertyString_of_holds hNode hTyped h.names hMap hValue
        rw [data.size_eq_bytes_length] at hString
        obtain ⟨⟨size, length, span⟩, hSpan, hBytes⟩ := Outcome.bind_eq_ok.mp hString
        obtain ⟨rfl, hData⟩ := Prod.mk.inj (Except.ok.inj hBytes)
        exact ⟨hInfo, hString, length, span, hSpan, hData⟩
  · rw [dictionary, contentsOf_of_not_mem hNew]
    intro info hInfo hName
    rw [h.infos] at hInfo
    obtain ⟨q, hq, rfl⟩ := List.mem_map.mp hInfo
    exact hNew q hq hName

end Calls

/-- A node is a dictionary, as long as strings and spans are not inserted as values of fixed size and a span that is
given shares no chunk with the property data. -/
theorem stores_of_run {calls : List PropertyCall} {s : PropertyStore} (h : Run CalledApart calls s) :
    Stores CalledApart calls s := by
  obtain ⟨properties, hHolds, hContents⟩ := holds_of_run h
  have hStep {pool : ℕ → ℕ} {call : PropertyCall} (hAllowed : CalledApart s pool call) :=
    hHolds.step hAllowed
  constructor
  · rw [hHolds.bytes_eq, hContents]
  · rw [← hContents]
    exact hHolds.reads
  · intro pool call hAllowed
    rcases hHolds.performs hAllowed with ⟨t, others, hPerform, -, -⟩ | ⟨⟨what, hPerform⟩, -⟩
    · rw [hPerform]
      exact Outcome.defined_ok t
    · rw [hPerform]
      exact Outcome.defined_error_iff.mpr nofun
  · intro pool call hAllowed name hName
    obtain ⟨others, hNext, hAfter⟩ := hStep hAllowed
    have hReads := hNext.reads name
    rwa [hAfter, after, Function.update_of_ne hName, hContents] at hReads
  · intro pool call hAllowed hInserts hNew
    have hNames : ∀ q ∈ properties, q.info.2 ≠ call.name := fun q hq =>
      hNew q.info (by rw [hHolds.infos]; exact List.mem_map_of_mem hq)
    obtain ⟨t, front, p, back, hPerform, rfl, hInserted, hName, -⟩ := hHolds.insertion hAllowed hInserts hNames
    obtain ⟨u, hDelete, hRestored⟩ := hInserted.deleteProperty
    rw [step, hPerform, ← hName]
    exact ⟨u, hDelete, by rw [hRestored.infos, hHolds.infos], by rw [hRestored.bytes, hHolds.bytes]⟩

/-- Addresses from a number on, none of which is in use. -/
theorem called_from {s : PropertyStore} {call : PropertyCall} {bound : ℕ}
    (hStore : ∀ address ∈ s.propertyData.addresses, address < bound)
    (hGiven : ∀ data ∈ call.givenSpan, ∀ address ∈ data.addresses, address < bound) (hFits : call.givenSize < 2 ^ 63)
    (hVariable : call.setsSpan → ∀ info ∈ s.propertyInfos, info.2 = call.name → fixedSize info.1 = none)
    (hNamed : call.name ≠ []) : Called s (fun i => bound + i) call where
  injective _ _ h := Nat.add_left_cancel h
  free i := by
    constructor
    · intro hMem
      have hLt := hStore _ hMem
      omega
    · intro data hData hMem
      have hLt := hGiven data hData _ hMem
      omega
  fits := hFits
  variableSize := hVariable
  named := hNamed

/-- A node without properties. -/
def start : PropertyStore := ⟨[], ⟨[], 0⟩⟩

/-- A number under the name `a`. -/
def numbered : PropertyStore := start.step (fun i => 0 + i) (.insertProperty 0 (str "a") (.uint64 1))

theorem run_numbered : Run CalledApart [.insertProperty 0 (str "a") (.uint64 1)] numbered :=
  .call (.start rfl rfl) _ (.insertProperty 0 (str "a") (.uint64 1))
    ⟨called_from (by decide) (by decide) (by decide) (by decide) (by decide), by decide, by decide⟩

/-- A number, a text, and another value of the text. -/
theorem stores_of_run_numberAndText : ∃ s, Run CalledApart [.insertProperty 0 (str "a") (.uint64 1),
      .insertPropertyString 1 (str "b") (str "text") [], .setPropertyString (str "b") (str "xy")] s ∧
    Stores CalledApart [.insertProperty 0 (str "a") (.uint64 1),
      .insertPropertyString 1 (str "b") (str "text") [], .setPropertyString (str "b") (str "xy")] s := by
  have hText : Run CalledApart _ _ := .call run_numbered (fun i => 1 + i) (.insertPropertyString 1 (str "b") (str "text") [])
    ⟨called_from (by decide +kernel) (by decide) (by decide) (by decide) (by decide), by decide, by decide⟩
  have hSet : Run CalledApart _ _ := .call hText (fun i => 3 + i) (.setPropertyString (str "b") (str "xy"))
    ⟨called_from (by decide +kernel) (by decide) (by decide) (by decide +kernel) (by decide), by decide, by decide⟩
  exact ⟨_, hSet, stores_of_run hSet⟩

/-- A string that is inserted as a value of fixed size is not read back, and a span that is inserted in the chunk of a
number changes with the number. -/
theorem not_stores_of_run :
    (∃ s, Run Called [.insertPropertyString 0 (str "a") (str "int64") (str "x")] s ∧
      ¬Stores Called [.insertPropertyString 0 (str "a") (str "int64") (str "x")] s) ∧
    ∃ s, Run Called [.insertProperty 0 (str "a") (.uint64 1), .insertPropertySpan 1 (str "b") (str "text") numbered.propertyData] s ∧
      ¬Stores Called [.insertProperty 0 (str "a") (.uint64 1),
        .insertPropertySpan 1 (str "b") (str "text") numbered.propertyData] s := by
  constructor
  · refine ⟨_, .call (.start rfl rfl) (fun i => 0 + i) (.insertPropertyString 0 (str "a") (str "int64") (str "x"))
      (called_from (s := start) (by decide) (by decide) (by decide) (by decide) (by decide)), fun hStores => ?_⟩
    have hReads := hStores.reads (str "a")
    have hContents : contents [.insertPropertyString 0 (str "a") (str "int64") (str "x")] (str "a") =
        some (str "int64", .bytes (str "x")) := by decide
    rw [hContents] at hReads
    exact absurd hReads.2.1 (by decide +kernel)
  · have hRun : Run Called [.insertProperty 0 (str "a") (.uint64 1)] numbered :=
      .call (.start rfl rfl) _ _ (called_from (by decide) (by decide) (by decide) (by decide) (by decide))
    refine ⟨_, .call hRun (fun i => 1 + i) (.insertPropertySpan 1 (str "b") (str "text") numbered.propertyData)
      (called_from (by decide +kernel) (by decide +kernel) (by decide +kernel) (by decide) (by decide)), fun hStores => ?_⟩
    have hAllowed : Called (numbered.step (fun i => 1 + i) (.insertPropertySpan 1 (str "b") (str "text") numbered.propertyData))
        (fun i => 2 + i) (.setPropertyValue (str "a") (.uint64 2)) :=
      called_from (by decide +kernel) (by decide) (by decide) (by decide) (by decide)
    have hReads := hStores.others _ _ hAllowed (str "b") (by decide)
    have hContents : contents [.insertProperty 0 (str "a") (.uint64 1),
        .insertPropertySpan 1 (str "b") (str "text") numbered.propertyData] (str "b") =
          some (str "text", .bytes (leBytes 8 1)) := by decide +kernel
    rw [hContents] at hReads
    exact absurd hReads.2.1 (by decide +kernel)

end PropertyStore
end Wwatp
