import Wwatp.Cxx.Cutting
import Wwatp.Tree.Node

/-! The properties of a `TreeNode`. Their values stand one after another in the property data, a
value of variable size behind its length in eight bytes. -/
namespace Wwatp

open Cxx

namespace SharedSpan

/-- `*begin<PODType>()`, which throws for a value that crosses the end of its chunk. -/
def beginPod (s : SharedSpan) (length : ℕ) : Outcome (List UInt8) :=
  match s.chunks.dropWhile fun c => c.size = 0 with
  | [] => throw (.undefined .index)
  | c :: _ =>
    if c.size < length then throw (.invalidArgument (str "PODType extends past the end of the span"))
    else .ok (c.body.take length)

def compress (s : SharedSpan) : SharedSpan := { s with chunks := s.chunks.filter fun c => c.size ≠ 0 }

end SharedSpan

/-- A value of a type of fixed size, a floating-point number by its bits. -/
inductive FixedValue
  | int64 (value : Int64)
  | uint64 (value : UInt64)
  | double (bits : UInt64)
  | float (bits : UInt32)
  | bool (value : Bool)
  deriving DecidableEq

namespace FixedValue

/-- `typenameToString`. -/
def typename : FixedValue → Str
  | int64 _ => str "int64"
  | uint64 _ => str "uint64"
  | double _ => str "double"
  | float _ => str "float"
  | bool _ => str "bool"

/-- The bytes of the value in memory. -/
def bytes : FixedValue → List UInt8
  | int64 value => leBytes 8 value.toUInt64.toNat
  | uint64 value => leBytes 8 value.toNat
  | double bits => leBytes 8 bits.toNat
  | float bits => leBytes 4 bits.toNat
  | bool value => [if value then 1 else 0]

/-- The value of a type that some bytes hold. -/
def ofBytes (type : Str) (bytes : List UInt8) : Option FixedValue :=
  if type = str "int64" then some (int64 (UInt64.ofNat (leValue bytes)).toInt64)
  else if type = str "uint64" then some (uint64 (UInt64.ofNat (leValue bytes)))
  else if type = str "double" then some (double (UInt64.ofNat (leValue bytes)))
  else if type = str "float" then some (float (UInt32.ofNat (leValue bytes)))
  else if type = str "bool" then some (bool (bytes ≠ [0]))
  else none

theorem ofBytes_bytes (v : FixedValue) : ofBytes v.typename v.bytes = some v := by
  have hWord (n : UInt64) : UInt64.ofNat (leValue (leBytes 8 n.toNat)) = n := by
    rw [leValue_leBytes (by have := n.toNat_lt; omega), UInt64.ofNat_toNat]
  have hHalf (n : UInt32) : UInt32.ofNat (leValue (leBytes 4 n.toNat)) = n := by
    rw [leValue_leBytes (by have := n.toNat_lt; omega), UInt32.ofNat_toNat]
  cases v with
  | int64 value =>
      rw [ofBytes, typename, if_pos rfl, bytes, hWord]
      rfl
  | uint64 value =>
      rw [ofBytes, typename, if_neg (by decide), if_pos rfl, bytes, hWord]
  | double bits =>
      rw [ofBytes, typename, if_neg (by decide), if_neg (by decide), if_pos rfl, bytes, hWord]
  | float bits =>
      rw [ofBytes, typename, if_neg (by decide), if_neg (by decide), if_neg (by decide), if_pos rfl, bytes, hHalf]
  | bool value => cases value <;> decide

/-- Only a truth value can be written in several ways. -/
theorem eq_bytes_of_ofBytes {v : FixedValue} {s : List UInt8} (hLength : s.length = v.bytes.length)
    (hBool : ∀ b, v ≠ bool b) (h : ofBytes v.typename s = some v) : s = v.bytes := by
  have hWord {n : UInt64} (hLength : s.length = 8) (h : UInt64.ofNat (leValue s) = n) : leBytes 8 n.toNat = s := by
    have hLt := leValue_lt s
    rw [hLength] at hLt
    rw [← h, UInt64.toNat_ofNat', Nat.mod_eq_of_lt (by simpa using hLt), ← hLength, leBytes_leValue]
  have hHalf {n : UInt32} (hLength : s.length = 4) (h : UInt32.ofNat (leValue s) = n) : leBytes 4 n.toNat = s := by
    have hLt := leValue_lt s
    rw [hLength] at hLt
    rw [← h, UInt32.toNat_ofNat', Nat.mod_eq_of_lt (by simpa using hLt), ← hLength, leBytes_leValue]
  cases v with
  | int64 value =>
      rw [ofBytes, typename, if_pos rfl, Option.some.injEq, int64.injEq] at h
      rw [bytes, hWord (by simpa [bytes] using hLength)]
      rw [← h]
      simp
  | uint64 value =>
      rw [ofBytes, typename, if_neg (by decide), if_pos rfl, Option.some.injEq, uint64.injEq] at h
      exact (hWord (by simpa [bytes] using hLength) h).symm
  | double bits =>
      rw [ofBytes, typename, if_neg (by decide), if_neg (by decide), if_pos rfl, Option.some.injEq, double.injEq] at h
      exact (hWord (by simpa [bytes] using hLength) h).symm
  | float bits =>
      rw [ofBytes, typename, if_neg (by decide), if_neg (by decide), if_neg (by decide), if_pos rfl, Option.some.injEq,
        float.injEq] at h
      exact (hHalf (by simpa [bytes] using hLength) h).symm
  | bool value => exact absurd rfl (hBool value)

end FixedValue

/-- `sizeof` of the types of fixed size. -/
def fixedSize (type : Str) : Option ℕ :=
  if type = str "int64" ∨ type = str "uint64" ∨ type = str "double" then some 8
  else if type = str "float" then some 4
  else if type = str "bool" then some 1
  else none

theorem fixedSize_typename (v : FixedValue) : fixedSize v.typename = some v.bytes.length := by
  cases v <;> simp [FixedValue.typename, FixedValue.bytes] <;> decide

/-- A value as it is read. -/
inductive PropertyReading
  | fixed (value : FixedValue)
  | bytes (data : List UInt8)
  deriving DecidableEq

namespace TreeNode

/-- `cur_size` of a property that starts the remaining data. -/
def currentSize (type : Str) (remaining : SharedSpan) : Outcome ℕ :=
  match fixedSize type with
  | some size => .ok size
  | none => do return (leValue (← remaining.beginPod 8) + 8) % 2 ^ 64

/-- The loop of all functions for properties, which ends at a property. It leaves the data from
there on, the size of the last property it came to, and the size of what is before. A property
that is larger than the data would let the next one start behind their end. -/
def walkTo (target : PropertyInfo) : List PropertyInfo → SharedSpan → ℕ → ℕ → Outcome (SharedSpan × ℕ × ℕ)
  | [], remaining, curSize, totalSize => .ok (remaining, curSize, totalSize)
  | info :: rest, remaining, _, totalSize => do
    let curSize ← currentSize info.1 remaining
    if info = target then return (remaining, curSize, totalSize)
    else if remaining.size < curSize then throw (.undefined .index)
    else walkTo target rest (remaining.restrict curSize (remaining.size - curSize)) curSize (totalSize + curSize)

/-- `getPropertyValue` of the type with this name. -/
def getPropertyValue (n : TreeNode) (type name : Str) : Outcome (ℕ × FixedValue × SharedSpan) := do
  if (type, name) ∉ n.propertyInfos then
    throw (.invalidArgument (str "Property not found when calling GetPropertyDataAs: " ++ name))
  else do
    let (remaining, curSize, _) ← walkTo (type, name) n.propertyInfos n.propertyData 0 0
    let size := (fixedSize type).getD 0
    match FixedValue.ofBytes type (← remaining.beginPod size) with
    | none => throw (.invalidArgument (str "Unsupported type for propertyDataAs: " ++ type))
    | some value => return (curSize, value, remaining.restrict 0 size)

/-- `getPropertyValueSpan`: the length of the value, the span that holds the length, and the value. A
value of less than eight bytes would end before it starts. -/
def getPropertyValueSpan (n : TreeNode) (name : Str) : Outcome (ℕ × SharedSpan × SharedSpan) :=
  match n.propertyInfos.find? fun info => info.2 = name with
  | none => throw (.invalidArgument (str "Property not found when calling GetPropertyDataAs: " ++ name))
  | some info => do
    let (remaining, curSize, _) ← walkTo info n.propertyInfos n.propertyData 0 0
    if curSize < 8 then throw (.undefined .index)
    else return (curSize - 8, remaining.restrict 0 8, remaining.restrict 8 (curSize - 8))

def getPropertyString (n : TreeNode) (name : Str) : Outcome (ℕ × Str) := do
  let (size, _, data) ← n.getPropertyValueSpan name
  return (size, data.bytes)

/-- `setPropertyValueSpan`. The length of the value is written over the old one; here it gets a chunk
of its own. -/
def setPropertyValueSpan (n : TreeNode) (name : Str) (data : SharedSpan) : Outcome TreeNode :=
  match n.propertyInfos.find? fun info => info.2 = name with
  | none => throw (.invalidArgument (str "Property not found when calling SetPropertyDataAsBytes: " ++ name))
  | some info => do
    let (remaining, curSize, totalSize) ← walkTo info n.propertyInfos n.propertyData 0 0
    let _ ← remaining.beginPod 8
    let prior := n.propertyData.restrict 0 totalSize
    let following := n.propertyData.restrict (totalSize + curSize) (n.propertyData.size - totalSize - curSize)
    return { n with propertyData := (SharedSpan.concat
      [prior, .ofSignal (.payload ⟨0, 0x00, 8⟩) (leBytes 8 data.size), data, following]).compress }

/-- The accessor for properties of a type. -/
def readProperty (n : TreeNode) (info : PropertyInfo) : Outcome PropertyReading :=
  if (fixedSize info.1).isSome then do return .fixed (← n.getPropertyValue info.1 info.2).2.1
  else do return .bytes (← n.getPropertyString info.2).2

/-- The end of the functions that insert a property: its information and its data go in front of
the property that has the information `next`, or behind all others. -/
def insertBefore (n : TreeNode) (next info : PropertyInfo) (data : List SharedSpan) : Outcome TreeNode :=
  if n.propertyInfos.any fun other => other.2 = info.2 then
    throw (.invalidArgument (str "Property already exists: " ++ info.2))
  else do
    let (_, _, totalSize) ← walkTo next n.propertyInfos n.propertyData 0 0
    let position := n.propertyInfos.findIdx (· = next)
    let prior := n.propertyData.restrict 0 totalSize
    let following := n.propertyData.restrict totalSize (n.propertyData.size - totalSize)
    return { n with
      propertyData := (SharedSpan.concat (prior :: data ++ [following])).compress
      propertyInfos := n.propertyInfos.take position ++ info :: n.propertyInfos.drop position }

/-- `insertProperty`. An index past the end stands for the last property. -/
def insertProperty (n : TreeNode) (index : ℕ) (name : Str) (value : FixedValue) : Outcome TreeNode :=
  let next := n.propertyInfos.getD (min index (n.propertyInfos.length - 1)) ([], [])
  n.insertBefore next (value.typename, name) [.ofSignal (.payload ⟨0, 0x00, .ofNat value.bytes.length⟩) value.bytes]

def insertPropertySpan (n : TreeNode) (index : ℕ) (name type : Str) (data : SharedSpan) : Outcome TreeNode :=
  let next := if index < n.propertyInfos.length then n.propertyInfos.getD index ([], []) else ([], [])
  n.insertBefore next (type, name) [.ofSignal (.payload ⟨0, 0x00, 8⟩) (leBytes 8 data.size), data]

def insertPropertyString (n : TreeNode) (index : ℕ) (name type value : Str) : Outcome TreeNode :=
  n.insertPropertySpan index name type (.ofSignal (.payload ⟨4, 0x00, .ofNat value.length⟩) value)

end TreeNode

namespace SharedSpan

/-! Cutting a span between its chunks. -/

variable {chunks front back : List Chunk}

/-- The length of some chunks. -/
def chunksSize (chunks : List Chunk) : ℕ := (chunks.map Chunk.size).sum

@[simp] theorem chunksSize_nil : chunksSize [] = 0 := rfl

@[simp] theorem chunksSize_cons (c : Chunk) (chunks : List Chunk) :
    chunksSize (c :: chunks) = c.size + chunksSize chunks := rfl

@[simp] theorem chunksSize_append (front back : List Chunk) :
    chunksSize (front ++ back) = chunksSize front + chunksSize back := by
  simp [chunksSize]

/-- Chunks of which none is empty. -/
def Compact (chunks : List Chunk) : Prop := ∀ c ∈ chunks, c.size ≠ 0

theorem Compact.pos (h : Compact chunks) (hNe : chunks ≠ []) : 0 < chunksSize chunks := by
  obtain ⟨c, rest, rfl⟩ := List.exists_cons_of_ne_nil hNe
  have hc := h c List.mem_cons_self
  simp only [chunksSize_cons]
  omega

theorem compact_append : Compact (front ++ back) ↔ Compact front ∧ Compact back :=
  List.forall_mem_append

/-- The loop of `restrict` cuts a list of chunks. -/
theorem restrictLoop_eq_cut (done todo : List Chunk) (start length : ℕ) :
    restrictLoop done todo start length = cut Chunk.size Chunk.sub done todo start length := by
  induction todo generalizing done start length with
  | nil => rfl
  | cons c todo ih =>
      rw [restrictLoop, cut]
      simp only [ih]

theorem size_sub_zero (c : Chunk) (start : ℕ) (h : start ≤ c.size) : (c.sub start 0).size = 0 := by
  rw [← Chunk.body_length, Chunk.body_sub h, List.take_zero, List.length_nil]

theorem restrictLoop_all (done : List Chunk) (h : Compact chunks) (hNe : chunks ≠ []) :
    restrictLoop done chunks 0 (chunksSize chunks) = done ++ chunks := by
  rw [restrictLoop_eq_cut]
  exact cut_all Chunk.sub_zero_size done h hNe

theorem restrictLoop_front (done : List Chunk) (h : Compact front) (hNe : front ≠ []) :
    restrictLoop done (front ++ back) 0 (chunksSize front) = done ++ front := by
  rw [restrictLoop_eq_cut]
  exact cut_front Chunk.sub_zero_size done h hNe

theorem restrictLoop_back (h : Compact (front ++ back)) (hNe : back ≠ []) :
    restrictLoop [] (front ++ back) (chunksSize front) (chunksSize back) = back := by
  rw [restrictLoop_eq_cut]
  exact cut_back Chunk.sub_zero_size (compact_append.mp h).1 (compact_append.mp h).2 hNe

/-- The chunks that `compress` leaves. -/
def nonempty (chunks : List Chunk) : List Chunk := chunks.filter fun c => c.size ≠ 0

theorem compact_nonempty (chunks : List Chunk) : Compact (nonempty chunks) := fun _ hc =>
  of_decide_eq_true (List.mem_filter.mp hc).2

theorem nonempty_cons {c : Chunk} (h : c.size ≠ 0) (rest : List Chunk) : nonempty (c :: rest) = c :: nonempty rest :=
  List.filter_cons_of_pos (decide_eq_true h)

theorem nonempty_of_compact (h : Compact chunks) : nonempty chunks = chunks :=
  List.filter_eq_self.mpr fun c hc => decide_eq_true (h c hc)

theorem nonempty_of_empty (h : ∀ c ∈ chunks, c.size = 0) : nonempty chunks = [] :=
  List.filter_eq_nil_iff.mpr fun c hc => by simp [h c hc]

@[simp] theorem nonempty_append (front back : List Chunk) : nonempty (front ++ back) = nonempty front ++ nonempty back :=
  List.filter_append ..

/-- Empty chunks hold no bytes. -/
theorem bytes_nonempty (chunks : List Chunk) : (nonempty chunks).flatMap Chunk.body = chunks.flatMap Chunk.body := by
  induction chunks with
  | nil => rfl
  | cons c rest ih =>
      rw [nonempty, List.filter_cons, List.flatMap_cons, ← ih]
      split_ifs with hc
      · rfl
      · have hSize : c.body.length = 0 := by
          rw [Chunk.body_length]
          simpa using hc
        rw [List.length_eq_zero_iff.mp hSize, List.nil_append]
        rfl

theorem chunksSize_eq (chunks : List Chunk) : chunksSize chunks = (chunks.flatMap Chunk.body).length := by
  simp [chunksSize, List.length_flatMap]

theorem chunksSize_nonempty (chunks : List Chunk) : chunksSize (nonempty chunks) = chunksSize chunks := by
  rw [chunksSize_eq, chunksSize_eq, bytes_nonempty]

theorem nonempty_restrict_front (signalType : UInt8) (h : Compact (front ++ back)) :
    nonempty ((⟨front ++ back, signalType⟩ : SharedSpan).restrict 0 (chunksSize front)).chunks = front := by
  rw [restrict, restrictLoop_eq_cut]
  exact nonemptyPieces_cut_front Chunk.sub_zero_size size_sub_zero h

theorem nonempty_restrict_back (signalType : UInt8) (h : Compact (front ++ back)) :
    nonempty ((⟨front ++ back, signalType⟩ : SharedSpan).restrict (chunksSize front) (chunksSize back)).chunks = back := by
  rw [restrict, restrictLoop_eq_cut]
  exact nonemptyPieces_cut_back Chunk.sub_zero_size size_sub_zero h

end SharedSpan

/-- What a property is inserted with: a value of fixed size, or a span of which no more exists
than fits in memory. -/
inductive PropertyValue
  | fixed (value : FixedValue)
  | span (data : SharedSpan) (hFits : data.size < 2 ^ 63)

/-- The value as it should be read. -/
def PropertyValue.reading : PropertyValue → PropertyReading
  | fixed value => .fixed value
  | span data _ => .bytes data.bytes

/-- A property as it was inserted. Nothing checks a span's type. -/
structure Property where
  info : PropertyInfo
  value : PropertyValue

namespace Property

open SharedSpan

/-- A value of fixed size has its type, and a span one of variable size. -/
def WellTyped (p : Property) : Prop :=
  match p.value with
  | .fixed value => p.info.1 = value.typename
  | .span _ _ => fixedSize p.info.1 = none

theorem wellTyped_fixed (name : Str) (v : FixedValue) : WellTyped ⟨(v.typename, name), .fixed v⟩ := rfl

/-- The spans that are inserted. -/
def spans (p : Property) : List SharedSpan :=
  match p.value with
  | .fixed value => [.ofSignal (.payload ⟨0, 0x00, .ofNat value.bytes.length⟩) value.bytes]
  | .span data _ => [.ofSignal (.payload ⟨0, 0x00, 8⟩) (leBytes 8 data.size), data]

/-- The chunks that are left of them. -/
def chunks (p : Property) : List Chunk := nonempty (p.spans.flatMap SharedSpan.chunks)

def bytes (p : Property) : List UInt8 :=
  match p.value with
  | .fixed value => value.bytes
  | .span data _ => leBytes 8 data.size ++ data.bytes

theorem compact_chunks (p : Property) : Compact p.chunks := compact_nonempty _

theorem bytes_chunks (p : Property) : p.chunks.flatMap Chunk.body = p.bytes := by
  rw [chunks, bytes_nonempty, List.flatMap_assoc]
  show p.spans.flatMap SharedSpan.bytes = p.bytes
  rw [spans, bytes]
  cases p.value <;> simp

theorem chunksSize_chunks (p : Property) : chunksSize p.chunks = p.bytes.length := by
  rw [chunksSize_eq, bytes_chunks]

theorem length_bytes_pos (v : FixedValue) : 0 < v.bytes.length ∧ v.bytes.length ≤ 8 := by
  cases v <;> simp [FixedValue.bytes]

theorem chunks_ne_nil (p : Property) : p.chunks ≠ [] := by
  intro hNil
  have hSize := p.chunksSize_chunks
  rw [hNil, chunksSize_nil, bytes] at hSize
  cases hValue : p.value with
  | fixed value =>
      rw [hValue] at hSize
      exact absurd hSize.symm (Nat.ne_of_gt (length_bytes_pos value).1)
  | span data hFits =>
      rw [hValue, List.length_append, leBytes_length] at hSize
      omega

/-- The first chunk holds a value of fixed size, or the length of one of variable size. -/
theorem beginPod_chunks (p : Property) (more : List Chunk) (signalType : UInt8) :
    (⟨p.chunks ++ more, signalType⟩ : SharedSpan).beginPod
      (match p.value with | .fixed value => value.bytes.length | .span _ _ => 8) =
      .ok (match p.value with | .fixed value => value.bytes | .span data _ => leBytes 8 data.size) := by
  have hFirst (h : PayloadChunkHeader) {data : List UInt8} (rest : List Chunk) (hPos : 0 < data.length) (hLe : data.length ≤ 8) :
      (⟨nonempty (SharedSpan.ofSignal (.payload h) data).chunks ++ rest, signalType⟩ : SharedSpan).beginPod data.length =
        .ok data := by
    have hBody : (Chunk.ofHeader (.payload h) data).body = data := by
      rw [Chunk.body_ofHeader]
      exact List.take_of_length_le (by simp only [ChunkHeader.size, chunkSize]; omega)
    have hSize : (Chunk.ofHeader (.payload h) data).size = data.length := by rw [← Chunk.body_length, hBody]
    have hCompact : Compact [Chunk.ofHeader (.payload h) data] := by
      intro c hc
      rw [List.mem_singleton.mp hc, hSize]
      omega
    have hChunks : nonempty (SharedSpan.ofSignal (.payload h) data).chunks = [Chunk.ofHeader (.payload h) data] := by
      rw [SharedSpan.ofSignal_of_le (by simp only [ChunkHeader.size, chunkSize]; omega), nonempty_of_compact hCompact]
    rw [hChunks, beginPod, List.singleton_append, List.dropWhile_cons_of_neg (by simp only [hSize, decide_eq_true_eq]; omega)]
    simp [hSize, hBody]
  rw [chunks, spans]
  cases p.value with
  | fixed value =>
      simp only [List.flatMap_cons, List.flatMap_nil, List.append_nil]
      exact hFirst _ _ (length_bytes_pos value).1 (length_bytes_pos value).2
  | span data hFits =>
      simp only [List.flatMap_cons, List.flatMap_nil, List.append_nil, nonempty_append, List.append_assoc]
      have hPos : 0 < (leBytes 8 data.size).length := by simp
      have hLength := hFirst ⟨0, 0x00, 8⟩ (nonempty data.chunks ++ more) hPos (by simp)
      rwa [leBytes_length] at hLength

/-- The size of a property that is where the remaining data start. -/
theorem currentSize_chunks {p : Property} (h : p.WellTyped) (more : List Chunk) (signalType : UInt8) :
    TreeNode.currentSize p.info.1 ⟨p.chunks ++ more, signalType⟩ = .ok p.bytes.length := by
  have hBegin := p.beginPod_chunks more signalType
  rw [WellTyped] at h
  rw [TreeNode.currentSize, bytes]
  cases hValue : p.value with
  | fixed value =>
      rw [hValue] at h
      dsimp only at h ⊢
      rw [h, fixedSize_typename]
  | span data hFits =>
      rw [hValue] at h hBegin
      dsimp only at h hBegin ⊢
      have hLt : data.size < 256 ^ 8 := by omega
      have hBytes := data.size_eq_bytes_length
      rw [h, hBegin]
      simp only [Outcome.ok_bind, Outcome.pure_eq_ok, leValue_leBytes hLt, List.length_append, leBytes_length, ← hBytes,
        Except.ok.injEq]
      omega

theorem compact_flatMap (properties : List Property) : Compact (properties.flatMap chunks) := by
  intro c hc
  obtain ⟨p, -, hMem⟩ := List.mem_flatMap.mp hc
  exact p.compact_chunks c hMem

theorem flatMap_chunks_ne_nil {properties : List Property} (h : properties ≠ []) : properties.flatMap chunks ≠ [] := by
  obtain ⟨p, rest, rfl⟩ := List.exists_cons_of_ne_nil h
  exact fun hNil => p.chunks_ne_nil (List.append_eq_nil_iff.mp hNil).1

theorem chunksSize_flatMap (properties : List Property) :
    chunksSize (properties.flatMap chunks) = (properties.flatMap bytes).length := by
  induction properties with
  | nil => rfl
  | cons p rest ih =>
      rw [List.flatMap_cons, List.flatMap_cons, chunksSize_append, List.length_append, chunksSize_chunks, ih]

/-- Behind a property stand the next ones. -/
theorem restrict_rest (p : Property) {rest : List Property} (h : rest ≠ []) (signalType : UInt8) :
    (⟨(p :: rest).flatMap chunks, signalType⟩ : SharedSpan).restrict p.bytes.length
        ((⟨(p :: rest).flatMap chunks, signalType⟩ : SharedSpan).size - p.bytes.length) =
      ⟨rest.flatMap chunks, signalType⟩ := by
  have hCompact := compact_flatMap (p :: rest)
  have hSize : (⟨(p :: rest).flatMap chunks, signalType⟩ : SharedSpan).size - p.bytes.length =
      chunksSize (rest.flatMap chunks) := by
    show chunksSize ((p :: rest).flatMap chunks) - _ = _
    rw [List.flatMap_cons, chunksSize_append, chunksSize_chunks, Nat.add_sub_cancel_left]
  rw [List.flatMap_cons] at hCompact
  rw [hSize, restrict, List.flatMap_cons, ← p.chunksSize_chunks,
    restrictLoop_back hCompact (flatMap_chunks_ne_nil h)]

/-- The loop comes to the data of the first property with the information, behind those before. -/
theorem walkTo_eq {properties : List Property} (h : ∀ p ∈ properties, p.WellTyped) (target : PropertyInfo)
    (signalType : UInt8) (curSize totalSize : ℕ) :
    ∃ remaining cur, TreeNode.walkTo target (properties.map info) ⟨properties.flatMap chunks, signalType⟩ curSize totalSize =
        .ok (remaining, cur, totalSize +
          ((properties.take ((properties.map info).findIdx (· = target))).flatMap bytes).length) ∧
      ∀ p rest, properties.drop ((properties.map info).findIdx (· = target)) = p :: rest →
        remaining = ⟨(p :: rest).flatMap chunks, signalType⟩ ∧ cur = p.bytes.length := by
  induction properties generalizing curSize totalSize with
  | nil => exact ⟨_, _, rfl, nofun⟩
  | cons p rest ih =>
      obtain ⟨hp, hRest⟩ := List.forall_mem_cons.mp h
      have hCurrent : TreeNode.currentSize p.info.1 ⟨(p :: rest).flatMap chunks, signalType⟩ = .ok p.bytes.length := by
        rw [List.flatMap_cons]
        exact currentSize_chunks hp _ signalType
      rw [List.map_cons, TreeNode.walkTo, hCurrent, Outcome.ok_bind, List.findIdx_cons]
      by_cases hTarget : p.info = target
      · simp only [hTarget, if_true, decide_true, cond_true, List.take_zero, List.drop_zero, List.flatMap_nil,
          List.length_nil, Nat.add_zero]
        refine ⟨_, _, rfl, fun q others hDrop => ?_⟩
        obtain ⟨rfl, rfl⟩ := List.cons_eq_cons.mp hDrop
        exact ⟨rfl, rfl⟩
      · have hSize : ¬(⟨(p :: rest).flatMap chunks, signalType⟩ : SharedSpan).size < p.bytes.length := by
          show ¬chunksSize ((p :: rest).flatMap chunks) < _
          rw [List.flatMap_cons, chunksSize_append, chunksSize_chunks]
          omega
        rw [if_neg hTarget, if_neg hSize]
        simp only [hTarget, decide_false, cond_false, List.take_succ_cons, List.drop_succ_cons, List.flatMap_cons,
          List.length_append]
        by_cases hLast : rest = []
        · subst hLast
          exact ⟨_, _, rfl, nofun⟩
        · have hNext := p.restrict_rest hLast signalType
          rw [List.flatMap_cons] at hNext
          obtain ⟨remaining, cur, hWalk, hFound⟩ := ih hRest p.bytes.length (totalSize + p.bytes.length)
          refine ⟨remaining, cur, ?_, hFound⟩
          rw [hNext, hWalk, Nat.add_assoc]

end Property

/-- A node whose properties are these, each with its own chunks. -/
structure TreeNode.Holds (n : TreeNode) (properties : List Property) : Prop where
  infos : n.propertyInfos = properties.map Property.info
  chunks : n.propertyData.chunks = properties.flatMap Property.chunks

/-- The properties with another one in front of the first that has the information `next`. -/
def placeBefore (properties : List Property) (next : PropertyInfo) (p : Property) : List Property :=
  let position := (properties.map Property.info).findIdx (· = next)
  properties.take position ++ p :: properties.drop position

namespace TreeNode

open SharedSpan

variable {n m : TreeNode} {properties : List Property} {p : Property} {next : PropertyInfo}

theorem Holds.bytes (h : n.Holds properties) : n.propertyData.bytes = properties.flatMap Property.bytes := by
  rw [SharedSpan.bytes, h.chunks, List.flatMap_assoc]
  exact List.flatMap_congr fun p _ => p.bytes_chunks

theorem insertBefore_infos (h : n.insertBefore next p.info p.spans = .ok m)
    (hInfos : n.propertyInfos = properties.map Property.info) :
    m.propertyInfos = (placeBefore properties next p).map Property.info ∧
      ∀ q ∈ properties, q.info.2 ≠ p.info.2 := by
  unfold insertBefore at h
  split_ifs at h with hExists
  obtain ⟨⟨remaining, cur, totalSize⟩, -, h⟩ := Outcome.bind_eq_ok.mp h
  obtain rfl := Except.ok.inj h
  refine ⟨?_, fun q hq hName => hExists ?_⟩
  · simp [placeBefore, hInfos]
  · rw [hInfos]
    simp only [List.any_map, List.any_eq_true]
    exact ⟨q, hq, by simp [hName]⟩

theorem insertBefore_holds (h : n.insertBefore next p.info p.spans = .ok m) (hHolds : n.Holds properties)
    (hTyped : ∀ q ∈ properties, q.WellTyped) : m.Holds (placeBefore properties next p) := by
  refine ⟨(insertBefore_infos h hHolds.infos).1, ?_⟩
  unfold insertBefore at h
  split_ifs at h with hExists
  obtain ⟨⟨remaining, cur, totalSize⟩, hWalk, h⟩ := Outcome.bind_eq_ok.mp h
  obtain rfl := Except.ok.inj h
  have hData : n.propertyData = ⟨properties.flatMap Property.chunks, n.propertyData.signalType⟩ := by
    rw [← hHolds.chunks]
  obtain ⟨_, _, hWalkTo, -⟩ := Property.walkTo_eq hTyped next n.propertyData.signalType 0 0
  rw [← hData, ← hHolds.infos, hWalk, Except.ok.injEq, Prod.mk.injEq, Prod.mk.injEq, Nat.zero_add] at hWalkTo
  obtain ⟨-, -, rfl⟩ := hWalkTo
  set position := n.propertyInfos.findIdx (· = next)
  set front := properties.take position
  set back := properties.drop position
  have hSplit : properties.flatMap Property.chunks = front.flatMap Property.chunks ++ back.flatMap Property.chunks := by
    rw [← List.flatMap_append, List.take_append_drop]
  have hCompact : Compact (front.flatMap Property.chunks ++ back.flatMap Property.chunks) :=
    hSplit ▸ Property.compact_flatMap properties
  have hTotal : n.propertyData.size - (front.flatMap Property.bytes).length = chunksSize (back.flatMap Property.chunks) := by
    rw [hData]
    show chunksSize (properties.flatMap Property.chunks) - _ = _
    rw [hSplit, chunksSize_append, ← Property.chunksSize_flatMap, Nat.add_sub_cancel_left]
  have hPrior := nonempty_restrict_front n.propertyData.signalType hCompact
  have hFollowing := nonempty_restrict_back n.propertyData.signalType hCompact
  show nonempty (SharedSpan.concat _).chunks = _
  rw [hTotal, hData, hSplit, ← Property.chunksSize_flatMap]
  simp only [SharedSpan.concat, List.cons_append, List.flatMap_cons, List.flatMap_append, List.flatMap_nil, List.append_nil,
    nonempty_append, hPrior, hFollowing, placeBefore]
  rw [← hHolds.infos]
  rfl

section ReadBack

/-! A node gives back the properties that were inserted. -/

variable (hHolds : n.Holds properties) (hTyped : ∀ q ∈ properties, q.WellTyped)
  (hNames : (properties.map fun q => q.info.2).Nodup) (hp : p ∈ properties)

include hNames hp

omit hNames hp in
/-- Properties of one name are one. -/
theorem eq_of_name (hNames : (properties.map fun q => q.info.2).Nodup) {q : Property} (hq : q ∈ properties)
    (hp : p ∈ properties) (h : q.info.2 = p.info.2) : q = p :=
  List.inj_on_of_nodup_map hNames hq hp h

theorem drop_findIdx : ∃ rest, properties.drop ((properties.map Property.info).findIdx (· = p.info)) = p :: rest := by
  have hLt : (properties.map Property.info).findIdx (· = p.info) < properties.length := by
    rw [← List.length_map Property.info]
    exact List.findIdx_lt_length_of_exists ⟨p.info, List.mem_map_of_mem hp, by simp⟩
  have hLt' : (properties.map Property.info).findIdx (· = p.info) < (properties.map Property.info).length := by
    rwa [List.length_map]
  have hFound : decide ((properties.map Property.info)[(properties.map Property.info).findIdx (· = p.info)] = p.info) = true :=
    @List.findIdx_getElem _ _ _ hLt'
  rw [List.getElem_map, decide_eq_true_eq] at hFound
  have hSame := eq_of_name hNames (List.getElem_mem hLt) hp (congrArg Prod.snd hFound)
  exact ⟨_, by rw [List.drop_eq_getElem_cons hLt, hSame]⟩

include hHolds hTyped

theorem walkTo_property : ∃ rest totalSize,
    walkTo p.info n.propertyInfos n.propertyData 0 0 =
      .ok (⟨p.chunks ++ rest, n.propertyData.signalType⟩, p.bytes.length, totalSize) := by
  obtain ⟨rest, hDrop⟩ := drop_findIdx hNames hp
  obtain ⟨remaining, cur, hWalk, hFound⟩ := Property.walkTo_eq hTyped p.info n.propertyData.signalType 0 0
  obtain ⟨rfl, rfl⟩ := hFound p rest hDrop
  rw [← hHolds.chunks, ← hHolds.infos] at hWalk
  exact ⟨_, _, hWalk⟩

theorem getPropertyValue_of_holds {v : FixedValue} (hValue : p.value = .fixed v) :
    ∃ span, n.getPropertyValue p.info.1 p.info.2 = .ok (v.bytes.length, v, span) := by
  have hType : p.info.1 = v.typename := by
    have hp := hTyped p hp
    rwa [Property.WellTyped, hValue] at hp
  have hMem : (p.info.1, p.info.2) ∈ n.propertyInfos := by
    rw [hHolds.infos]
    exact List.mem_map_of_mem hp
  obtain ⟨rest, totalSize, hWalk⟩ := walkTo_property hHolds hTyped hNames hp
  have hBegin := p.beginPod_chunks rest n.propertyData.signalType
  have hBytes : p.bytes = v.bytes := by rw [Property.bytes, hValue]
  rw [hValue] at hBegin
  dsimp only at hBegin
  rw [hBytes] at hWalk
  rw [getPropertyValue, if_neg (not_not_intro hMem), hWalk, Outcome.ok_bind]
  dsimp only
  rw [hType, fixedSize_typename, Option.getD_some, hBegin, Outcome.ok_bind, FixedValue.ofBytes_bytes]
  exact ⟨_, rfl⟩

theorem getPropertyString_of_holds {data : SharedSpan} {hFits : data.size < 2 ^ 63} (hValue : p.value = .span data hFits) :
    n.getPropertyString p.info.2 = .ok (data.size, data.bytes) := by
  have hFind : n.propertyInfos.find? (fun info => info.2 = p.info.2) = some p.info := by
    rw [hHolds.infos, List.find?_map]
    have hSome : (properties.find? fun q => q.info.2 = p.info.2).isSome :=
      List.find?_isSome.mpr ⟨p, hp, decide_eq_true rfl⟩
    obtain ⟨q, hq⟩ := Option.isSome_iff_exists.mp hSome
    have hName : q.info.2 = p.info.2 := by simpa using List.find?_some hq
    rw [eq_of_name hNames (List.mem_of_find?_eq_some hq) hp hName] at hq
    simp only [Function.comp_def, hq, Option.map_some]
  obtain ⟨rest, totalSize, hWalk⟩ := walkTo_property hHolds hTyped hNames hp
  have hBytes : p.bytes.length = 8 + data.size := by
    rw [Property.bytes, hValue, List.length_append, leBytes_length, data.size_eq_bytes_length]
  rw [getPropertyString, getPropertyValueSpan, hFind]
  dsimp only
  rw [hWalk, Outcome.ok_bind, hBytes]
  dsimp only
  rw [if_neg (by omega), Nat.add_sub_cancel_left]
  simp only [Outcome.pure_eq_ok, Outcome.ok_bind, Except.ok.injEq, Prod.mk.injEq, true_and]
  -- the first chunk holds the length, the next ones the value
  have hLength : (Chunk.ofHeader (.payload ⟨0, 0x00, 8⟩) (leBytes 8 data.size)).body = leBytes 8 data.size := by
    rw [Chunk.body_ofHeader]
    exact List.take_of_length_le (by simp [ChunkHeader.size, chunkSize])
  have hSize : (Chunk.ofHeader (.payload ⟨0, 0x00, 8⟩) (leBytes 8 data.size)).size = 8 := by
    rw [← Chunk.body_length, hLength, leBytes_length]
  have hChunks : p.chunks = Chunk.ofHeader (.payload ⟨0, 0x00, 8⟩) (leBytes 8 data.size) :: nonempty data.chunks := by
    rw [Property.chunks, Property.spans, hValue]
    have hSignal : SharedSpan.ofSignal (.payload ⟨0, 0x00, 8⟩) (leBytes 8 data.size) = _ :=
      SharedSpan.ofSignal_of_le (by simp [ChunkHeader.size, chunkSize])
    simp only [List.flatMap_cons, List.flatMap_nil, List.append_nil, hSignal, List.singleton_append]
    exact nonempty_cons (by omega) data.chunks
  generalize Chunk.ofHeader (.payload ⟨0, 0x00, 8⟩) (leBytes 8 data.size) = lengthChunk at hSize hChunks
  have hData : (nonempty data.chunks).flatMap Chunk.body = data.bytes := bytes_nonempty _
  have hDataSize : chunksSize (nonempty data.chunks) = data.size := chunksSize_nonempty _
  rw [hChunks, SharedSpan.bytes, SharedSpan.restrict, List.cons_append, restrictLoop, hSize]
  by_cases hEmpty : nonempty data.chunks = []
  · rw [hEmpty] at hData hDataSize
    rw [← hDataSize, chunksSize_nil, if_pos (by omega), List.nil_append, List.flatMap_singleton,
      Chunk.body_sub (by omega), List.take_zero, ← hData]
    rfl
  · have hPos := Compact.pos (compact_nonempty data.chunks) hEmpty
    rw [if_neg (by omega), if_pos (Nat.le_refl _), List.nil_append, List.tail_cons, Nat.sub_self, ← hDataSize,
      restrictLoop_front [] (compact_nonempty _) hEmpty, List.nil_append, hData]

theorem readProperty_of_holds : n.readProperty p.info = .ok p.value.reading := by
  have hType := hTyped p hp
  rw [Property.WellTyped] at hType
  rw [readProperty]
  cases hValue : p.value with
  | fixed v =>
      rw [hValue] at hType
      obtain ⟨span, hRead⟩ := getPropertyValue_of_holds hHolds hTyped hNames hp hValue
      rw [if_pos (by rw [hType, fixedSize_typename]; rfl), hRead]
      rfl
  | span data hFits =>
      rw [hValue] at hType
      rw [if_neg (by rw [hType]; nofun), getPropertyString_of_holds hHolds hTyped hNames hp hValue]
      rfl

end ReadBack

end TreeNode
end Wwatp
