import Wwatp.JavaScript.Properties

/-! Nodes that the C++ code builds and the JavaScript client reads. The length of a value is written
in eight bytes and read in four. -/
namespace Wwatp
namespace JavaScript

open Cxx

section Zeros

variable {k n : ℕ} {data more : List UInt8}

/-- Bytes that are the same behind some zeros are zeros. -/
theorem eq_zeros_of_shift (hk : 0 < k) (h : (List.replicate k 0 ++ data ++ more).take data.length = data) :
    data = List.replicate data.length 0 := by
  have hAt (i : ℕ) (hi : i < data.length) : data[i] = 0 := by
    induction i using Nat.strong_induction_on with
    | _ i ih =>
      have hSame : (List.replicate k 0 ++ data ++ more)[i]? = data[i]? := by
        rw [← List.getElem?_take_of_lt hi, h]
      rw [List.append_assoc, List.getElem?_append, List.length_replicate] at hSame
      split_ifs at hSame with hFront
      · rw [List.getElem?_replicate_of_lt hFront, List.getElem?_eq_getElem hi] at hSame
        exact (Option.some.inj hSame).symm
      · have hBefore : i - k < data.length := by omega
        rw [List.getElem?_append_left hBefore, List.getElem?_eq_getElem hBefore, List.getElem?_eq_getElem hi] at hSame
        rw [← Option.some.inj hSame]
        exact ih (i - k) (by omega) hBefore
  apply List.ext_getElem (by simp)
  intro i hi hi'
  rw [hAt i hi, List.getElem_replicate]

theorem take_zeros (hn : n ≤ k) : (List.replicate k (0 : UInt8) ++ more).take n = List.replicate n 0 := by
  rw [List.take_append_of_le_length (by simpa using hn), List.take_replicate, Nat.min_eq_left hn]

theorem drop_zeros (hn : n ≤ k) : (List.replicate k (0 : UInt8) ++ more).drop n = List.replicate (k - n) 0 ++ more := by
  rw [List.drop_append_of_le_length (by simpa using hn), List.drop_replicate]

theorem zeros_append_zeros (k n : ℕ) (more : List UInt8) :
    List.replicate k 0 ++ (List.replicate n 0 ++ more) = List.replicate (k + n) 0 ++ more := by
  rw [← List.append_assoc, List.replicate_append_replicate]

/-- Bytes that are zeros can be moved behind others. -/
theorem zeros_append_comm (h : data = List.replicate data.length 0) :
    List.replicate k 0 ++ (data ++ more) = data ++ (List.replicate k 0 ++ more) := by
  rw [h, zeros_append_zeros, zeros_append_zeros, Nat.add_comm]

end Zeros

/-- A value of which every byte is zero, or none. -/
def Blank (p : Property) : Prop :=
  match p.value with
  | .fixed value => value.bytes = List.replicate value.bytes.length 0
  | .span data _ => data.bytes = []

/-- Properties that are read in the right place: the length of the first one of variable size leaves
four of its bytes, so its value and all that stands behind it must look the same when it is moved. -/
def Legible : List Property → Prop
  | [] => True
  | p :: rest =>
    match p.value with
    | .fixed _ => Legible rest
    | .span data _ => data.bytes.length < 2 ^ 32 ∧ data.bytes = List.replicate data.bytes.length 0 ∧ ∀ q ∈ rest, Blank q

instance (p : Property) : Decidable (Blank p) := by
  unfold Blank
  cases p.value <;> exact inferInstance

theorem blank_of_ofBytes {value : FixedValue} {k : ℕ} (hk : 0 < k) {more : List UInt8}
    (h : FixedValue.ofBytes value.typename ((List.replicate k 0 ++ value.bytes ++ more).take value.bytes.length) =
      some value) : value.bytes = List.replicate value.bytes.length 0 := by
  by_cases hBool : ∃ b, value = .bool b
  · obtain ⟨b, rfl⟩ := hBool
    rw [List.append_assoc, take_zeros (by simp [FixedValue.bytes]; omega)] at h
    cases b
    · rfl
    · exact absurd h (by decide)
  · have hLength : ((List.replicate k 0 ++ value.bytes ++ more).take value.bytes.length).length = value.bytes.length := by
      simp only [List.length_take, List.length_append, List.length_replicate]
      omega
    exact eq_zeros_of_shift hk (FixedValue.eq_bytes_of_ofBytes hLength (not_exists.mp hBool) h)

/-- Behind bytes that are left over only values without content are read as they are. -/
theorem agrees_behind_zeros {properties : List Property} {k : ℕ} (hk : 4 ≤ k) :
    Agrees properties (List.replicate k 0 ++ properties.flatMap Property.bytes) ↔ ∀ p ∈ properties, Blank p := by
  induction properties generalizing k with
  | nil => simp [Agrees]
  | cons p rest ih =>
      rw [Agrees, List.forall_mem_cons, Blank, List.flatMap_cons, Property.bytes]
      cases hValue : p.value with
      | fixed value =>
          dsimp only
          have hPos := (Property.length_bytes_pos value).1
          constructor
          · rintro ⟨-, hRead, hRest⟩
            rw [← List.append_assoc] at hRead
            have hZero := blank_of_ofBytes (by omega) hRead
            rw [zeros_append_comm hZero, List.drop_left] at hRest
            exact ⟨hZero, (ih hk).mp hRest⟩
          · rintro ⟨hZero, hRest⟩
            rw [zeros_append_comm hZero, List.take_left, List.drop_left, FixedValue.ofBytes_bytes]
            exact ⟨by simp, rfl, (ih hk).mpr hRest⟩
      | span data hFits =>
          dsimp only
          rw [take_zeros hk, leValue_replicate, List.append_assoc]
          constructor
          · rintro ⟨-, hEmpty, -, hRest⟩
            have hNil : data.bytes = [] := List.length_eq_zero_iff.mp hEmpty.symm
            have hSize : data.size = 0 := by rw [data.size_eq_bytes_length, hNil, List.length_nil]
            refine ⟨hNil, ?_⟩
            rw [hNil, hSize, leBytes_zero, List.nil_append, List.length_nil, zeros_append_zeros, drop_zeros (by omega)] at hRest
            exact (ih (by omega)).mp hRest
          · rintro ⟨hNil, hRest⟩
            have hSize : data.size = 0 := by rw [data.size_eq_bytes_length, hNil, List.length_nil]
            rw [hNil, hSize, leBytes_zero, List.nil_append, List.length_nil, zeros_append_zeros, drop_zeros (by omega)]
            exact ⟨by simp only [List.length_append, List.length_replicate]; omega, rfl, List.take_zero,
              (ih (by omega)).mpr hRest⟩

/-- The bytes of a node from C++ are read as they were written exactly when the properties are
legible. -/
theorem agrees_bytes {properties : List Property} :
    Agrees properties (properties.flatMap Property.bytes) ↔ Legible properties := by
  induction properties with
  | nil => simp [Agrees, Legible]
  | cons p rest ih =>
      rw [Agrees, Legible, List.flatMap_cons, Property.bytes]
      cases hValue : p.value with
      | fixed value =>
          dsimp only
          rw [List.take_left, List.drop_left, FixedValue.ofBytes_bytes, ih]
          simp
      | span data hFits =>
          dsimp only
          have hSize := data.size_eq_bytes_length
          -- the eight bytes of the length, as the four that are read and the four behind them
          rw [show (8 : ℕ) = 4 + 4 from rfl, leBytes_add, List.append_assoc, List.append_assoc,
            List.take_left' (leBytes_length _ _), leValue_leBytes_mod, ← List.drop_drop,
            List.drop_left' (leBytes_length _ _), hSize]
          by_cases hSmall : data.bytes.length < 2 ^ 32
          · have hHigh : data.bytes.length / 256 ^ 4 = 0 := Nat.div_eq_of_lt (by omega)
            have hMod : data.bytes.length % 256 ^ 4 = data.bytes.length := Nat.mod_eq_of_lt (by omega)
            rw [hHigh, hMod, leBytes_zero]
            constructor
            · rintro ⟨-, -, hRead, hRest⟩
              rw [← List.append_assoc] at hRead
              have hZero := eq_zeros_of_shift (by omega) hRead
              refine ⟨hSmall, hZero, ?_⟩
              rw [hZero, List.length_replicate, zeros_append_zeros, drop_zeros (by omega), Nat.add_sub_cancel] at hRest
              exact (agrees_behind_zeros (Nat.le_refl 4)).mp hRest
            · rintro ⟨-, hZero, hRest⟩
              rw [zeros_append_comm hZero, List.take_left, List.drop_left]
              exact ⟨by simp, rfl, rfl, (agrees_behind_zeros (Nat.le_refl 4)).mpr hRest⟩
          · have hMod : data.bytes.length % 256 ^ 4 < 256 ^ 4 := Nat.mod_lt _ (by decide)
            refine ⟨fun h => absurd h.2.1 (by omega), fun h => absurd h.1 hSmall⟩

/-- What every call has inserted comes back from the C++ accessor and from the JavaScript ones. -/
def SameReadings (utf8Decode : List UInt8 → String) (insertions : List PropertyInsertion) (n : TreeNode) : Prop :=
  ∀ insertion ∈ insertions,
    n.readProperty insertion.inserted.info = .ok insertion.inserted.value.reading ∧
    (∃ span raw, getPropertyValue n.propertyInfos n.propertyData.bytes insertion.inserted.info.2 =
      .ok (span, insertion.inserted.value.reading, raw)) ∧
    ∀ data, insertion.inserted.value.reading = .bytes data → ∃ span,
      getPropertyString utf8Decode n.propertyInfos n.propertyData.bytes insertion.inserted.info.2 = .ok (span, utf8Decode data)

/-- A value that is read as bytes is in a slot of variable size, and is what the decoder gets. -/
theorem getPropertyString_of_value {utf8Decode : List UInt8 → String} {infos : List PropertyInfo}
    {propertyData data : List UInt8} {name : Str}
    (h : ∃ span raw, getPropertyValue infos propertyData name = .ok (span, .bytes data, raw)) :
    ∃ span, getPropertyString utf8Decode infos propertyData name = .ok (span, utf8Decode data) := by
  obtain ⟨slot, hSlot, hRead⟩ := getPropertyValue_eq.mp h
  refine ⟨slot.span, ?_⟩
  rw [readSlot] at hRead
  rw [getPropertyString, hSlot]
  split_ifs at hRead with hVariable
  · obtain hData := PropertyReading.bytes.inj (Except.ok.inj hRead)
    rw [← hData]
    exact if_pos hVariable
  · obtain ⟨value, -, hFixed⟩ := bind_eq_ok.mp hRead
    cases Except.ok.inj hFixed

/-- The accessor for a type of fixed size never gives the bytes of a span. -/
theorem wellTyped_of_readProperty {n : TreeNode} {p : Property} (hFixed : ∀ v, p.value = .fixed v → p.info.1 = v.typename)
    (h : n.readProperty p.info = .ok p.value.reading) : p.WellTyped := by
  rw [Property.WellTyped]
  rw [TreeNode.readProperty] at h
  cases hValue : p.value with
  | fixed v => exact hFixed v hValue
  | span data hFits =>
      rw [hValue] at h
      split_ifs at h with hType
      · obtain ⟨value, -, h⟩ := Outcome.bind_eq_ok.mp h
        cases Except.ok.inj h
      · exact Option.not_isSome_iff_eq_none.mp hType

/-- A node from C++ is read alike by both clients exactly when every string and span has a type of
its own and the properties are legible in their order. -/
theorem sameReadings_iff_legible {utf8Decode : List UInt8 → String} {insertions : List PropertyInsertion} {n : TreeNode}
    (h : PropertyInsertion.build insertions = .ok n) :
    SameReadings utf8Decode insertions n ↔
      (∀ insertion ∈ insertions, insertion.inserted.WellTyped) ∧ Legible (PropertyInsertion.placed insertions) := by
  have hBuilt := PropertyInsertion.built_of_build h
  have hAll {P : Property → Prop} : (∀ insertion ∈ insertions, P insertion.inserted) ↔
      ∀ p ∈ PropertyInsertion.placed insertions, P p := by
    refine ⟨fun hP p hp => ?_, fun hP insertion hMem => hP _ (PropertyInsertion.mem_placed.mpr ⟨insertion, hMem, rfl⟩)⟩
    obtain ⟨insertion, hMem, rfl⟩ := PropertyInsertion.mem_placed.mp hp
    exact hP insertion hMem
  rw [hAll]
  have hTyped_of (hRead : SameReadings utf8Decode insertions n) :
      ∀ p ∈ PropertyInsertion.placed insertions, p.WellTyped := by
    refine hAll.mp fun insertion hMem => wellTyped_of_readProperty ?_ (hRead insertion hMem).1
    intro v hv
    cases insertion <;> cases hv
    rfl
  constructor
  · intro hRead
    have hTyped := hTyped_of hRead
    refine ⟨hTyped, ?_⟩
    rw [← agrees_bytes, ← (hBuilt.holds hTyped).bytes, ← getPropertyValue_iff hTyped hBuilt.names, ← hBuilt.infos, ← hAll]
    exact fun insertion hMem => (hRead insertion hMem).2.1
  · rintro ⟨hTyped, hLegible⟩ insertion hMem
    have hp := PropertyInsertion.mem_placed.mpr ⟨insertion, hMem, rfl⟩
    rw [← agrees_bytes, ← (hBuilt.holds hTyped).bytes, ← getPropertyValue_iff hTyped hBuilt.names, ← hBuilt.infos] at hLegible
    refine ⟨TreeNode.readProperty_of_holds (hBuilt.holds hTyped) hTyped hBuilt.names hp, hLegible _ hp, fun data hData => ?_⟩
    exact getPropertyString_of_value (hData ▸ hLegible _ hp)

end JavaScript
end Wwatp
