import Wwatp.Tree.SpanText
import Wwatp.Tree.StoreRuns

/-! The spans that a program can obtain, and which of them are read back from their text. -/
namespace Wwatp

open Cxx

namespace HeldSpan

/-- A span whose chunks are newly allocated. -/
def allocated (pool : ℕ → ℕ) (s : SharedSpan) : HeldSpan := ⟨s.chunks.mapIdx fun i c => ⟨pool i, c⟩, s.signalType⟩

/-- `append`. -/
def append (s other : HeldSpan) : HeldSpan := { s with chunks := s.chunks ++ other.chunks }

/-- The spans that come from the constructors, the operations on spans and those on properties. A span changes too when
a value is written in place through another span that shares its chunks. -/
inductive Obtained : HeldSpan → Prop
  | empty : Obtained ⟨[], 0⟩
  /-- also from a header and a whole chunk, with the data that are in its memory -/
  | ofSignal (pool : ℕ → ℕ) (signal : ChunkHeader) (data : List UInt8) : Obtained (ofSignal pool signal data)
  | createFromData (pool : ℕ → ℕ) {data : List UInt8} {s : SharedSpan} (h : SharedSpan.createFromData data = .ok s) :
      Obtained (allocated pool s)
  | concat {spans : List HeldSpan} (h : ∀ s ∈ spans, Obtained s) : Obtained (concat spans)
  | append {s other : HeldSpan} (h : Obtained s) (hOther : Obtained other) : Obtained (s.append other)
  | restrict {s : HeldSpan} (h : Obtained s) (start length : ℕ) : Obtained (s.restrict start length)
  | compress {s : HeldSpan} (h : Obtained s) : Obtained s.compress
  | written {s through : HeldSpan} (h : Obtained s) {type : Str} {value : List UInt8} {writes : List ChunkWrite}
      (hWrites : through.copyType type value = .ok writes ∨ through.setBegin type value = .ok writes) : Obtained (s.written writes)
  | property {s : PropertyStore} (h : Obtained s.propertyData) (pool : ℕ → ℕ) (call : PropertyCall)
      (hGiven : ∀ data ∈ call.givenSpan, Obtained data) : Obtained (s.step pool call).propertyData

end HeldSpan

namespace Chunk

theorem signalByte_ofHeader (h : ChunkHeader) (data : List UInt8) : (ofHeader h data).signalByte = h.signalType := by
  rw [signalByte, ofHeader]
  cases h <;> rfl

theorem signalByte_take {c : Chunk} {data : List UInt8} {count : ℕ} (h : data = c.data.take count) (hCount : 0 < count) :
    data.headD 0 = c.signalByte := by
  obtain ⟨count, rfl⟩ := Nat.exists_eq_add_of_lt hCount
  rw [h, signalByte]
  cases c.data with
  | nil => rw [List.take_nil]
  | cons b rest => rw [Nat.zero_add, List.take_succ_cons]; rfl

theorem signalByte_sub (c : Chunk) (start length : ℕ) : (c.sub start length).signalByte = c.signalByte := by
  have hFirst := c.first_pos
  exact signalByte_take rfl (by omega)

/-- A write behind the first byte. -/
theorem signalByte_overwrite (c : Chunk) {position : ℕ} (h : 0 < position) (bytes : List UInt8) :
    (c.overwrite position bytes).signalByte = c.signalByte := by
  obtain ⟨position, rfl⟩ := Nat.exists_eq_add_of_lt h
  have hFirst := c.first_pos
  have hLe := c.first_le
  obtain ⟨b, rest, hData⟩ := List.exists_cons_of_length_pos (show 0 < c.data.length by omega)
  show (c.data.take (0 + position + 1) ++ _ ++ _).headD 0 = c.data.headD 0
  rw [hData, List.take_succ_cons]
  rfl

end Chunk

namespace HeldSpan

/-- The span has a signal type, and so have the headers of all its chunks. -/
structure Headed (s : HeldSpan) : Prop where
  signalType : s.signalType ≤ 2
  chunks : ∀ c ∈ s.chunks, c.chunk.signalByte ≤ 2

theorem signalType_le (h : ChunkHeader) : h.signalType ≤ 2 := by
  cases h <;> simp only [ChunkHeader.signalType] <;> decide

section Closed

variable {s other : HeldSpan}

theorem headed_allocated (pool : ℕ → ℕ) {s : SharedSpan} (hType : s.signalType ≤ 2) (hChunks : ∀ c ∈ s.chunks, c.signalByte ≤ 2) :
    Headed (allocated pool s) where
  signalType := hType
  chunks c hc := by
    obtain ⟨i, hi, rfl⟩ := List.mem_mapIdx.mp hc
    exact hChunks _ (List.getElem_mem hi)

theorem headed_ofSignal (pool : ℕ → ℕ) (signal : ChunkHeader) (data : List UInt8) : Headed (ofSignal pool signal data) := by
  refine headed_allocated pool (s := SharedSpan.ofSignal signal data) (signalType_le signal) fun c hc => ?_
  rcases List.mem_cons.mp hc with rfl | hMore
  · rw [Chunk.signalByte_ofHeader]
    exact signalType_le signal
  · obtain ⟨b, -, rfl⟩ := List.mem_map.mp hMore
    rw [Chunk.signalByte_ofHeader]
    exact signalType_le .noChunk

theorem headed_createFromData (pool : ℕ → ℕ) {data : List UInt8} {s : SharedSpan} (h : SharedSpan.createFromData data = .ok s) :
    Headed (allocated pool s) := by
  have hSignal (signal : ChunkHeader) (data : List UInt8) := headed_ofSignal pool signal data
  have hPartial (b : UInt8) (rest : List UInt8) (hb : b ≤ 2) : Headed (allocated pool (SharedSpan.partialHeader b rest)) := by
    refine headed_allocated pool hb fun c hc => ?_
    rw [List.mem_singleton.mp hc]
    exact hb
  cases data with
  | nil => cases h
  | cons b rest =>
      simp only [SharedSpan.createFromData] at h
      split_ifs at h with hZero hOne hWhole hTwo hWhole
      all_goals obtain rfl := Except.ok.inj h
      · exact hSignal _ _
      · exact hSignal _ _
      · exact hPartial b rest (by rw [hOne]; decide)
      · exact hSignal _ _
      · exact hPartial b rest (by rw [hTwo]; decide)

theorem headed_concat {spans : List HeldSpan} (h : ∀ s ∈ spans, Headed s) : Headed (concat spans) := by
  cases spans with
  | nil => exact ⟨by decide, List.forall_mem_nil _⟩
  | cons s rest =>
      refine ⟨(h s List.mem_cons_self).signalType, fun c hc => ?_⟩
      obtain ⟨t, ht, hMem⟩ := List.mem_flatMap.mp hc
      exact (h t ht).chunks c hMem

theorem Headed.append (h : s.Headed) (hOther : other.Headed) : (s.append other).Headed :=
  ⟨h.signalType, List.forall_mem_append.mpr ⟨h.chunks, hOther.chunks⟩⟩

theorem Headed.restrict (h : s.Headed) (start length : ℕ) : (s.restrict start length).Headed := by
  refine ⟨h.signalType, forall_mem_cut (fun c start length hc => ?_) (List.forall_mem_nil _) h.chunks start length⟩
  show (c.chunk.sub start length).signalByte ≤ 2
  rwa [Chunk.signalByte_sub]

theorem Headed.compress (h : s.Headed) : s.compress.Headed :=
  ⟨h.signalType, fun c hc => h.chunks c (List.mem_filter.mp hc).1⟩

/-- Writing in place does not reach the first byte of a chunk. -/
theorem Headed.written (h : s.Headed) {writes : List ChunkWrite} (hWrites : ∀ write ∈ writes, 0 < write.position) :
    (s.written writes).Headed := by
  refine ⟨h.signalType, fun c hc => ?_⟩
  obtain ⟨d, hd, rfl⟩ := List.mem_map.mp hc
  have hByte : d.chunk.signalByte ≤ 2 := h.chunks d hd
  clear hc hd
  induction writes generalizing d with
  | nil => exact hByte
  | cons write writes ih =>
      obtain ⟨hPos, hRest⟩ := List.forall_mem_cons.mp hWrites
      refine ih hRest (d.written write) ?_
      rw [SharedChunk.written]
      split_ifs
      · rwa [Chunk.signalByte_overwrite _ hPos]
      · exact hByte

end Closed

/-- Values are written behind the header of a chunk. -/
theorem position_of_copyLoop {type : Str} {chunks : List SharedChunk} {byteOffset : ℕ} {value : List UInt8}
    {writes : List ChunkWrite} (hOffset : 0 < byteOffset) (h : SharedChunk.copyLoop type chunks byteOffset value = .ok writes) :
    ∀ write ∈ writes, 0 < write.position := by
  induction chunks generalizing byteOffset value writes with
  | nil => cases h
  | cons c rest ih =>
      rw [SharedChunk.copyLoop.eq_def] at h
      dsimp only at h
      split_ifs at h
      · obtain rfl := Except.ok.inj h
        exact List.forall_mem_singleton.mpr hOffset
      · obtain ⟨more, hMore, hReturn⟩ := Outcome.bind_eq_ok.mp h
        obtain rfl := Except.ok.inj hReturn
        refine List.forall_mem_cons.mpr ⟨hOffset, ih ?_ hMore⟩
        cases rest with
        | nil => exact hOffset
        | cons d rest => exact d.chunk.first_pos

theorem position_of_write {through : HeldSpan} {type : Str} {value : List UInt8} {writes : List ChunkWrite}
    (h : through.copyType type value = .ok writes ∨ through.setBegin type value = .ok writes) :
    ∀ write ∈ writes, 0 < write.position := by
  rcases h with hCopy | hSet
  · rw [copyType] at hCopy
    split at hCopy
    · cases hCopy
    · exact position_of_copyLoop (SharedChunk.chunk _).first_pos hCopy
  · rw [setBegin] at hSet
    split at hSet
    · cases hSet
    · exact position_of_copyLoop (SharedChunk.chunk _).first_pos hSet

end HeldSpan

namespace PropertyStore

open HeldSpan

variable {s t : PropertyStore}

theorem headed_insertBefore (hs : s.propertyData.Headed) {next info : PropertyInfo} {data : List HeldSpan}
    (hData : ∀ span ∈ data, span.Headed) (h : s.insertBefore next info data = .ok t) : t.propertyData.Headed := by
  unfold insertBefore at h
  split_ifs at h
  obtain ⟨⟨remaining, curSize, totalSize⟩, -, hReturn⟩ := Outcome.bind_eq_ok.mp h
  obtain rfl := Except.ok.inj hReturn
  refine (headed_concat fun span hSpan => ?_).compress
  simp only [List.cons_append, List.mem_cons, List.mem_append, List.not_mem_nil, or_false] at hSpan
  rcases hSpan with rfl | hMem | rfl
  · exact hs.restrict _ _
  · exact hData span hMem
  · exact hs.restrict _ _

theorem headed_insertPropertySpan (pool : ℕ → ℕ) (hs : s.propertyData.Headed) {index : ℕ} {name type : Str} {data : HeldSpan}
    (hData : data.Headed) (h : s.insertPropertySpan pool index name type data = .ok t) : t.propertyData.Headed := by
  refine headed_insertBefore hs (fun span hSpan => ?_) h
  simp only [List.mem_cons, List.not_mem_nil, or_false] at hSpan
  rcases hSpan with rfl | rfl
  · exact headed_ofSignal _ _ _
  · exact hData

theorem headed_setPropertyValue (hs : s.propertyData.Headed) {name : Str} {value : FixedValue}
    (h : s.setPropertyValue name value = .ok t) : t.propertyData.Headed := by
  unfold setPropertyValue at h
  split_ifs at h
  obtain ⟨⟨remaining, curSize, totalSize⟩, -, h⟩ := Outcome.bind_eq_ok.mp h
  obtain ⟨writes, hWrites, hReturn⟩ := Outcome.bind_eq_ok.mp h
  obtain rfl := Except.ok.inj hReturn
  exact hs.written (position_of_write (.inl hWrites))

theorem headed_setPropertyValueSpan (hs : s.propertyData.Headed) {name : Str} {data : HeldSpan} (hData : data.Headed)
    (h : s.setPropertyValueSpan name data = .ok t) : t.propertyData.Headed := by
  unfold setPropertyValueSpan at h
  split at h
  · cases h
  · obtain ⟨⟨remaining, curSize, totalSize⟩, -, h⟩ := Outcome.bind_eq_ok.mp h
    dsimp only at h
    split_ifs at h
    obtain ⟨writes, hWrites, hReturn⟩ := Outcome.bind_eq_ok.mp h
    obtain rfl := Except.ok.inj hReturn
    refine (headed_concat fun span hSpan => ?_).compress
    have hPosition := position_of_write (.inr hWrites)
    simp only [List.map_cons, List.map_nil, List.mem_cons, List.not_mem_nil, or_false] at hSpan
    rcases hSpan with rfl | rfl | rfl
    · exact (hs.restrict _ _).written hPosition
    · exact hData.written hPosition
    · exact (hs.restrict _ _).written hPosition

theorem headed_deleteProperty (hs : s.propertyData.Headed) {name : Str} (h : s.deleteProperty name = .ok t) :
    t.propertyData.Headed := by
  unfold deleteProperty at h
  split at h
  · obtain rfl := Except.ok.inj h
    exact hs
  · obtain ⟨⟨remaining, curSize, totalSize⟩, -, h⟩ := Outcome.bind_eq_ok.mp h
    dsimp only at h
    split_ifs at h
    obtain rfl := Except.ok.inj h
    refine (headed_concat fun span hSpan => ?_).compress
    simp only [List.mem_cons, List.not_mem_nil, or_false] at hSpan
    rcases hSpan with rfl | rfl
    · exact hs.restrict _ _
    · exact hs.restrict _ _

/-- The operations on properties keep a signal type and headers. -/
theorem headed_perform (hs : s.propertyData.Headed) (pool : ℕ → ℕ) {call : PropertyCall}
    (hGiven : ∀ data ∈ call.givenSpan, data.Headed) (h : s.perform pool call = .ok t) : t.propertyData.Headed := by
  cases call with
  | insertProperty index name value =>
      exact headed_insertBefore hs (List.forall_mem_singleton.mpr (headed_ofSignal _ _ _)) h
  | insertPropertyString index name type value => exact headed_insertPropertySpan _ hs (headed_ofSignal _ _ _) h
  | insertPropertySpan index name type data => exact headed_insertPropertySpan _ hs (hGiven data rfl) h
  | setPropertyValue name value => exact headed_setPropertyValue hs h
  | setPropertyString name value => exact headed_setPropertyValueSpan hs (headed_ofSignal _ _ _) h
  | setPropertyValueSpan name data => exact headed_setPropertyValueSpan hs (hGiven data rfl) h
  | deleteProperty name => exact headed_deleteProperty hs h

end PropertyStore

namespace HeldSpan

/-- Every span that is obtained has a signal type and headers. -/
theorem Obtained.headed {s : HeldSpan} (h : Obtained s) : s.Headed := by
  induction h with
  | empty => exact ⟨by decide, List.forall_mem_nil _⟩
  | ofSignal pool signal data => exact headed_ofSignal pool signal data
  | createFromData pool h => exact headed_createFromData pool h
  | concat _ ih => exact headed_concat ih
  | append _ _ ih ihOther => exact ih.append ihOther
  | restrict _ start length ih => exact ih.restrict start length
  | compress _ ih => exact ih.compress
  | written _ hWrites ih => exact ih.written (position_of_write hWrites)
  | @property s _ pool call _ ih ihGiven =>
      rw [PropertyStore.step]
      split
      · exact PropertyStore.headed_perform ih pool ihGiven ‹_›
      · exact ih

/-- A span that is obtained is read back from its text exactly when the header of its first chunk has the type of the span,
or a wider one in a span without bytes. -/
theorem readsBack_iff_of_obtained {s : HeldSpan} (h : Obtained s) (memory : ℕ → UInt8) (hFits : s.size + 6 < 2 ^ 63) :
    s.span.ReadsBack memory ↔ s.span.HeaderFits := by
  have hHeaded := h.headed
  apply SharedSpan.readsBack_iff hHeaded.signalType
  · intro c hc
    obtain ⟨d, hd, rfl⟩ := List.mem_map.mp (List.mem_of_head? hc)
    exact hHeaded.chunks d hd
  · rwa [s.size_span]

/-- A span that was made from a header and data is read back. -/
theorem readsBack_ofSignal : (ofSignal id (.signal ⟨7, 2⟩) [1, 2, 3]).span.ReadsBack fun _ => 0 := by
  refine (readsBack_iff_of_obtained (.ofSignal id (.signal ⟨7, 2⟩) [1, 2, 3]) (fun _ => 0) (by decide)).mpr fun c hc => ?_
  obtain rfl := Option.some.inj hc
  exact Or.inl (by decide +kernel)

/-- The property data of a node into which a first number is inserted have the type of no header and a chunk with a wider
one, and are not read back. -/
theorem not_readsBack_numbered : Obtained PropertyStore.numbered.propertyData ∧
    ∀ memory, ¬PropertyStore.numbered.propertyData.span.ReadsBack memory := by
  have hObtained : Obtained PropertyStore.numbered.propertyData :=
    .property (s := PropertyStore.start) .empty _ _ (by nofun)
  refine ⟨hObtained, fun memory hReads => ?_⟩
  rw [readsBack_iff_of_obtained hObtained memory (by decide +kernel)] at hReads
  have hFirst : ∃ c ∈ PropertyStore.numbered.propertyData.span.chunks.head?, c.signalByte = 2 := by decide +kernel
  obtain ⟨c, hc, hByte⟩ := hFirst
  rcases hReads c hc with hType | ⟨hBytes, -⟩
  · rw [hByte] at hType
    exact absurd hType (by decide +kernel)
  · exact absurd hBytes (by decide +kernel)

end HeldSpan
end Wwatp
