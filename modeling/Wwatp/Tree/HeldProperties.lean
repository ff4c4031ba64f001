import Wwatp.Tree.PropertyStore

/-! What the operations on properties do to a store in which every value that is written in place has a chunk
of its own. -/
namespace Wwatp

open Cxx

namespace Property

/-- A value of fixed size has one chunk. -/
theorem chunks_fixed {p : Property} {v : FixedValue} (h : p.value = .fixed v) :
    p.chunks = [Chunk.ofHeader (.payload ⟨0, 0x00, .ofNat v.bytes.length⟩) v.bytes] := by
  obtain ⟨hPos, hLe⟩ := length_bytes_pos v
  rw [chunks, spans, h]
  simp only [List.flatMap_cons, List.flatMap_nil, List.append_nil]
  rw [SharedSpan.ofSignal_of_le (by simp only [ChunkHeader.size, chunkSize]; omega)]
  apply SharedSpan.nonempty_of_compact
  intro c hc
  rw [List.mem_singleton.mp hc, ← Chunk.body_length, Chunk.body_ofHeader,
    List.take_of_length_le (by simp only [ChunkHeader.size, chunkSize]; omega)]
  omega

/-- The chunk that holds the length of a value. -/
def lengthChunk (size : ℕ) : Chunk := .ofHeader (.payload ⟨0, 0x00, 8⟩) (leBytes 8 size)

@[simp] theorem size_lengthChunk (size : ℕ) : (lengthChunk size).size = 8 := by
  rw [lengthChunk, ← Chunk.body_length, Chunk.body_ofHeader,
    List.take_of_length_le (by simp [ChunkHeader.size, chunkSize]), leBytes_length]

/-- The length of a value of variable size has a chunk in front of those of the value. -/
theorem chunks_span {p : Property} {data : SharedSpan} {hFits : data.size < 2 ^ 63} (h : p.value = .span data hFits) :
    p.chunks = lengthChunk data.size :: SharedSpan.nonempty data.chunks := by
  rw [chunks, spans, h]
  simp only [List.flatMap_cons, List.flatMap_nil, List.append_nil]
  rw [SharedSpan.ofSignal_of_le (by simp [ChunkHeader.size, chunkSize]), List.singleton_append]
  exact SharedSpan.nonempty_cons (by rw [← lengthChunk, size_lengthChunk]; omega) data.chunks

end Property

/-- A property in a store. No chunk behind the first one, which is written in place, has its address. -/
structure HeldProperty extends Property where
  head : SharedChunk
  rest : List SharedChunk
  holds : (head :: rest).map SharedChunk.chunk = toProperty.chunks
  typed : toProperty.WellTyped
  alone : head.address ∉ rest.map SharedChunk.address

namespace HeldProperty

def chunks (p : HeldProperty) : List SharedChunk := p.head :: p.rest

def addresses (p : HeldProperty) : List ℕ := p.chunks.map SharedChunk.address

/-- Two properties of different names that can be written in place. -/
def Apart (p q : HeldProperty) : Prop :=
  p.info.2 ≠ q.info.2 ∧ p.head.address ∉ q.addresses ∧ q.head.address ∉ p.addresses

theorem Apart.symm {p q : HeldProperty} (h : p.Apart q) : q.Apart p := ⟨h.1.symm, h.2.2, h.2.1⟩

/-- A value of fixed size at an address. -/
def ofFixed (name : Str) (address : ℕ) (v : FixedValue) : HeldProperty where
  info := (v.typename, name)
  value := .fixed v
  head := ⟨address, .ofHeader (.payload ⟨0, 0x00, .ofNat v.bytes.length⟩) v.bytes⟩
  rest := []
  holds := (Property.chunks_fixed rfl).symm
  typed := Property.wellTyped_fixed name v
  alone := List.not_mem_nil

theorem nonempty_chunks_span (data : HeldSpan) :
    (nonemptyPieces SharedChunk.size data.chunks).map SharedChunk.chunk = SharedSpan.nonempty data.span.chunks := by
  simp only [nonemptyPieces, SharedSpan.nonempty, HeldSpan.span, List.filter_map]
  rfl

/-- A span behind its length at an address. -/
def ofSpan (info : PropertyInfo) (hType : fixedSize info.1 = none) (address : ℕ) (data : HeldSpan) (hFits : data.size < 2 ^ 63)
    (hAddress : address ∉ data.addresses) : HeldProperty where
  info := info
  value := .span data.span (by rwa [data.size_span])
  head := ⟨address, Property.lengthChunk data.size⟩
  rest := nonemptyPieces SharedChunk.size data.chunks
  holds := by
    rw [Property.chunks_span rfl, List.map_cons, nonempty_chunks_span, data.size_span]
  typed := hType
  alone := by
    intro hMem
    obtain ⟨c, hc, hAt⟩ := List.mem_map.mp hMem
    exact hAddress (List.mem_map.mpr ⟨c, (List.mem_filter.mp hc).1, hAt⟩)

section Chunks

variable (p : HeldProperty)

theorem map_chunk_chunks : p.chunks.map SharedChunk.chunk = p.toProperty.chunks := p.holds

theorem totalSize_chunks : totalSize SharedChunk.size p.chunks = p.bytes.length := by
  rw [← p.chunksSize_chunks, ← map_chunk_chunks, totalSize, SharedSpan.chunksSize, List.map_map]
  rfl

theorem size_ne_zero : ∀ c ∈ p.chunks, c.size ≠ 0 := by
  intro c hc
  apply p.compact_chunks c.chunk
  rw [← map_chunk_chunks]
  exact List.mem_map_of_mem hc

variable {p}

/-- The chunk of a value of fixed size. -/
theorem head_of_fixed {v : FixedValue} (h : p.value = .fixed v) :
    p.head.chunk = .ofHeader (.payload ⟨0, 0x00, .ofNat v.bytes.length⟩) v.bytes ∧ p.rest = [] := by
  have hChunks := p.holds
  rw [Property.chunks_fixed h, List.map_cons, List.cons.injEq, List.map_eq_nil_iff] at hChunks
  exact hChunks

theorem head_of_span {data : SharedSpan} {hFits : data.size < 2 ^ 63} (h : p.value = .span data hFits) :
    p.head.chunk = Property.lengthChunk data.size := by
  have hChunks := p.holds
  rw [Property.chunks_span h, List.map_cons, List.cons.injEq] at hChunks
  exact hChunks.1

end Chunks

section Lists

variable (properties : List HeldProperty)

theorem map_chunk_flatMap : (properties.flatMap chunks).map SharedChunk.chunk =
    (properties.map toProperty).flatMap Property.chunks := by
  rw [List.map_flatMap, List.flatMap_map]
  exact List.flatMap_congr fun p _ => p.map_chunk_chunks

theorem totalSize_flatMap : totalSize SharedChunk.size (properties.flatMap chunks) =
    (properties.flatMap fun p => p.bytes).length := by
  induction properties with
  | nil => rfl
  | cons p rest ih =>
      rw [List.flatMap_cons, List.flatMap_cons, totalSize_append, List.length_append, totalSize_chunks, ih]

theorem size_ne_zero_flatMap : ∀ c ∈ properties.flatMap chunks, c.size ≠ 0 := by
  intro c hc
  obtain ⟨p, -, hMem⟩ := List.mem_flatMap.mp hc
  exact p.size_ne_zero c hMem

theorem flatMap_chunks_ne_nil {properties : List HeldProperty} (h : properties ≠ []) : properties.flatMap chunks ≠ [] := by
  obtain ⟨p, rest, rfl⟩ := List.exists_cons_of_ne_nil h
  exact fun hNil => List.cons_ne_nil _ _ (List.append_eq_nil_iff.mp hNil).1

/-- What a span is worth whose chunks are those of some properties. -/
theorem span_flatMap (signalType : UInt8) : (⟨properties.flatMap chunks, signalType⟩ : HeldSpan).span =
    ⟨(properties.map toProperty).flatMap Property.chunks, signalType⟩ := by
  rw [HeldSpan.span, map_chunk_flatMap]

end Lists

end HeldProperty

namespace PropertyStore

open HeldProperty

/-- A store of these properties. Before the first one is inserted it may have empty chunks. -/
structure Holds (s : PropertyStore) (properties : List HeldProperty) : Prop where
  infos : s.propertyInfos = properties.map fun p => p.info
  chunks : nonemptyPieces SharedChunk.size s.propertyData.chunks = properties.flatMap HeldProperty.chunks
  compact : properties ≠ [] → ∀ c ∈ s.propertyData.chunks, c.size ≠ 0
  apart : properties.Pairwise Apart

variable {s : PropertyStore} {properties front back : List HeldProperty} {p : HeldProperty}

theorem Holds.propertyData (h : s.Holds properties) (hNe : properties ≠ []) :
    s.propertyData = ⟨properties.flatMap HeldProperty.chunks, s.propertyData.signalType⟩ := by
  have hChunks := h.chunks
  rw [nonemptyPieces_of_nonempty (h.compact hNe)] at hChunks
  rw [← hChunks]

theorem Holds.bytes (h : s.Holds properties) : s.propertyData.span.bytes = properties.flatMap fun p => p.bytes := by
  have hChunks := nonempty_chunks_span s.propertyData
  rw [h.chunks, map_chunk_flatMap] at hChunks
  rw [SharedSpan.bytes, ← SharedSpan.bytes_nonempty, ← hChunks, List.flatMap_assoc, List.flatMap_map]
  exact List.flatMap_congr fun p _ => p.bytes_chunks

/-- The names are different. -/
theorem Holds.names (h : s.Holds properties) : ((properties.map toProperty).map fun q => q.info.2).Nodup := by
  rw [List.map_map, List.nodup_iff_pairwise_ne, List.pairwise_map]
  exact h.apart.imp fun hApart => hApart.1

theorem Holds.node (h : s.Holds properties) (hNe : properties ≠ []) : s.node.Holds (properties.map toProperty) where
  infos := by
    rw [List.map_map]
    exact h.infos
  chunks := by
    show s.propertyData.span.chunks = _
    rw [h.propertyData hNe, span_flatMap]

/-- A property of the store is read back. -/
theorem Holds.readProperty (h : s.Holds properties) (hp : p ∈ properties) :
    s.node.readProperty p.info = .ok p.value.reading := by
  apply TreeNode.readProperty_of_holds (h.node (List.ne_nil_of_mem hp)) _ h.names (List.mem_map_of_mem hp)
  intro q hq
  obtain ⟨r, -, rfl⟩ := List.mem_map.mp hq
  exact r.typed

/-- In front of a property all others have another name. -/
theorem Holds.name_ne (h : s.Holds (front ++ p :: back)) {q : HeldProperty} (hq : q ∈ front ++ back) : p.Apart q :=
  (List.pairwise_cons.mp ((List.pairwise_middle Apart.symm).mp h.apart)).1 q hq

/-! The loop, and the cuts in front of a property and behind it. -/

theorem currentSize_head (p : HeldProperty) (more : List SharedChunk) (signalType : UInt8) :
    TreeNode.currentSize p.info.1 (⟨p.chunks ++ more, signalType⟩ : HeldSpan).span = .ok p.bytes.length := by
  rw [HeldSpan.span, List.map_append, map_chunk_chunks]
  exact Property.currentSize_chunks p.typed _ signalType

theorem walk_split (hNew : ∀ q ∈ front, q.info ≠ p.info) (signalType : UInt8) (curSize totalSize : ℕ) :
    walk p.info ((front ++ p :: back).map fun q => q.info) ⟨(front ++ p :: back).flatMap HeldProperty.chunks, signalType⟩
        curSize totalSize =
      .ok (⟨(p :: back).flatMap HeldProperty.chunks, signalType⟩, p.bytes.length,
        totalSize + (front.flatMap fun q => q.bytes).length) := by
  induction front generalizing curSize totalSize with
  | nil =>
      rw [List.nil_append, List.map_cons, walk, List.flatMap_cons, currentSize_head, Outcome.ok_bind, if_pos rfl]
      rfl
  | cons q front ih =>
      obtain ⟨hq, hFront⟩ := List.forall_mem_cons.mp hNew
      have hSize : (⟨(q :: (front ++ p :: back)).flatMap HeldProperty.chunks, signalType⟩ : HeldSpan).size =
          q.bytes.length + ((front ++ p :: back).flatMap fun r => r.bytes).length := by
        rw [HeldSpan.size, totalSize_flatMap, List.flatMap_cons, List.length_append]
      have hRest : (⟨(q :: (front ++ p :: back)).flatMap HeldProperty.chunks, signalType⟩ : HeldSpan).restrict q.bytes.length
          ((front ++ p :: back).flatMap fun r => r.bytes).length = ⟨(front ++ p :: back).flatMap HeldProperty.chunks, signalType⟩ := by
        rw [HeldSpan.restrict, List.flatMap_cons, ← totalSize_chunks, ← totalSize_flatMap,
          cut_back SharedChunk.sub_zero_size q.size_ne_zero (size_ne_zero_flatMap _) (flatMap_chunks_ne_nil (by simp))]
      rw [List.cons_append, List.map_cons, walk, hSize, List.flatMap_cons, currentSize_head, Outcome.ok_bind, if_neg hq,
        if_neg (by omega), Nat.add_sub_cancel_left, ← List.flatMap_cons, hRest, ih hFront]
      simp only [List.flatMap_cons, List.length_append, Nat.add_assoc]

/-- The sizes that the loop finds in front of where a property is inserted. -/
theorem Holds.walk_next (h : s.Holds properties) (next : PropertyInfo) :
    ∃ remaining curSize, walk next s.propertyInfos s.propertyData 0 0 = .ok (remaining, curSize,
      totalSize SharedChunk.size ((properties.take (s.propertyInfos.findIdx (· = next))).flatMap HeldProperty.chunks)) := by
  by_cases hNe : properties = []
  · subst hNe
    rw [h.infos]
    exact ⟨_, _, rfl⟩
  · have hTyped : ∀ q ∈ properties.map toProperty, q.WellTyped := by
      intro q hq
      obtain ⟨r, -, rfl⟩ := List.mem_map.mp hq
      exact r.typed
    obtain ⟨remaining, curSize, hWalk, -⟩ := Property.walkTo_eq hTyped next s.propertyData.signalType 0 0
    have hHolds := h.node hNe
    have hData : s.propertyData.span = ⟨(properties.map toProperty).flatMap Property.chunks, s.propertyData.signalType⟩ := by
      rw [h.propertyData hNe, span_flatMap]
    rw [← hData, ← hHolds.infos, ← List.map_take, List.flatMap_map, Nat.zero_add, ← totalSize_flatMap] at hWalk
    obtain ⟨found, hFound, -⟩ := walk_of_walkTo hWalk
    exact ⟨found, curSize, hFound⟩

/-- What is in front of a place in the store and what is behind it. -/
theorem Holds.cut_at (h : s.Holds properties) {first second : List SharedChunk}
    (hSplit : properties.flatMap HeldProperty.chunks = first ++ second) :
    nonemptyPieces SharedChunk.size (s.propertyData.restrict 0 (totalSize SharedChunk.size first)).chunks = first ∧
      nonemptyPieces SharedChunk.size (s.propertyData.restrict (totalSize SharedChunk.size first)
        (totalSize SharedChunk.size second)).chunks = second := by
  by_cases hNe : properties = []
  · subst hNe
    obtain ⟨rfl, rfl⟩ := List.append_eq_nil_iff.mp hSplit.symm
    have hNothing : nonemptyPieces SharedChunk.size (s.propertyData.restrict 0 0).chunks = [] :=
      nonemptyPieces_of_empty (cut_nothing SharedChunk.size_sub_zero)
    exact ⟨hNothing, hNothing⟩
  · have hSizes := size_ne_zero_flatMap properties
    rw [hSplit] at hSizes
    rw [h.propertyData hNe, hSplit]
    exact ⟨nonemptyPieces_cut_front SharedChunk.sub_zero_size SharedChunk.size_sub_zero hSizes,
      nonemptyPieces_cut_back SharedChunk.sub_zero_size SharedChunk.size_sub_zero hSizes⟩

theorem Holds.size (h : s.Holds properties) {first second : List SharedChunk}
    (hSplit : properties.flatMap HeldProperty.chunks = first ++ second) :
    s.propertyData.size = totalSize SharedChunk.size first + totalSize SharedChunk.size second := by
  rw [HeldSpan.size, ← totalSize_nonemptyPieces, h.chunks, hSplit, totalSize_append]

/-- A store whose data were put together from spans. -/
theorem holds_compress {infos : List PropertyInfo} {spans : List HeldSpan}
    (hInfos : infos = properties.map fun p => p.info)
    (hChunks : (spans.flatMap fun span => nonemptyPieces SharedChunk.size span.chunks) = properties.flatMap HeldProperty.chunks)
    (hApart : properties.Pairwise Apart) : Holds ⟨infos, (HeldSpan.concat spans).compress⟩ properties := by
  have hConcat : nonemptyPieces SharedChunk.size (HeldSpan.concat spans).chunks = properties.flatMap HeldProperty.chunks := by
    rw [← hChunks]
    cases spans with
    | nil => rfl
    | cons span rest => simp only [HeldSpan.concat, nonemptyPieces, List.filter_flatMap]
  have hSizes := size_ne_zero_flatMap properties
  rw [← hConcat] at hSizes
  refine ⟨hInfos, ?_, fun _ => hSizes, hApart⟩
  rw [HeldSpan.compress, nonemptyPieces_of_nonempty hSizes, hConcat]

/-! The operations. -/

/-- A new property goes in front of another one. -/
theorem Holds.insertBefore (h : s.Holds properties) {next : PropertyInfo} {data : List HeldSpan}
    (hData : (data.flatMap fun span => nonemptyPieces SharedChunk.size span.chunks) = p.chunks)
    (hApart : ∀ q ∈ properties, p.Apart q) :
    ∃ t, s.insertBefore next p.info data = .ok t ∧
      t.Holds (properties.take (s.propertyInfos.findIdx (· = next)) ++ p :: properties.drop (s.propertyInfos.findIdx (· = next))) := by
  have hNew : ¬(s.propertyInfos.any fun other => other.2 = p.info.2) = true := by
    rw [h.infos]
    simp only [List.any_map, List.any_eq_true, Function.comp_apply, decide_eq_true_eq]
    rintro ⟨q, hq, hName⟩
    exact (hApart q hq).1 hName.symm
  obtain ⟨remaining, curSize, hWalk⟩ := h.walk_next next
  rw [PropertyStore.insertBefore, if_neg hNew, hWalk, Outcome.ok_bind]
  refine ⟨_, rfl, ?_⟩
  set position := s.propertyInfos.findIdx (· = next)
  have hSplit : properties.flatMap HeldProperty.chunks =
      (properties.take position).flatMap HeldProperty.chunks ++ (properties.drop position).flatMap HeldProperty.chunks := by
    rw [← List.flatMap_append, List.take_append_drop]
  obtain ⟨hPrior, hFollowing⟩ := h.cut_at hSplit
  rw [h.size hSplit, Nat.add_sub_cancel_left]
  apply holds_compress
  · rw [h.infos]
    simp only [List.map_append, List.map_cons, List.map_take, List.map_drop]
  · simp only [List.cons_append, List.flatMap_cons, List.flatMap_append, List.flatMap_nil, List.append_nil, hPrior, hFollowing,
      hData]
  · rw [List.pairwise_middle Apart.symm, List.take_append_drop, List.pairwise_cons]
    exact ⟨hApart, h.apart⟩

/-- The property of a name, which the loop finds. -/
theorem Holds.walk_property (h : s.Holds (front ++ p :: back)) :
    walk p.info s.propertyInfos s.propertyData 0 0 = .ok (⟨(p :: back).flatMap HeldProperty.chunks, s.propertyData.signalType⟩,
      p.bytes.length, totalSize SharedChunk.size (front.flatMap HeldProperty.chunks)) := by
  have hNew : ∀ q ∈ front, q.info ≠ p.info := fun q hq hInfo =>
    (h.name_ne (List.mem_append_left back hq)).1 (congrArg Prod.snd hInfo).symm
  have hNe : front ++ p :: back ≠ [] := by simp
  have hWalk : walk p.info _ ⟨(front ++ p :: back).flatMap HeldProperty.chunks, s.propertyData.signalType⟩ 0 0 = _ :=
    walk_split hNew s.propertyData.signalType 0 0
  rw [← h.propertyData hNe, ← h.infos, Nat.zero_add, ← totalSize_flatMap] at hWalk
  exact hWalk

theorem Holds.find_name (h : s.Holds (front ++ p :: back)) :
    s.propertyInfos.find? (fun info => info.2 = p.info.2) = some p.info := by
  rw [h.infos, List.map_append, List.find?_append, List.find?_eq_none.mpr]
  · rw [Option.none_or, List.map_cons]
    exact List.find?_cons_of_pos (by simp)
  · intro info hInfo
    obtain ⟨q, hq, rfl⟩ := List.mem_map.mp hInfo
    have hName := (h.name_ne (List.mem_append_left back hq)).1
    simpa using hName.symm

/-- A write to the first chunk of a property leaves all other properties as they are. -/
theorem written_flatMap {others : List HeldProperty} (h : ∀ q ∈ others, p.Apart q) {write : ChunkWrite}
    (hAddress : write.address = p.head.address) :
    (others.flatMap HeldProperty.chunks).map (SharedChunk.written write) = others.flatMap HeldProperty.chunks := by
  conv_rhs => rw [← List.map_id (others.flatMap HeldProperty.chunks)]
  apply List.map_congr_left
  intro c hc
  obtain ⟨q, hq, hMem⟩ := List.mem_flatMap.mp hc
  refine SharedChunk.written_of_ne fun hSame => (h q hq).2.1 ?_
  rw [← hAddress, ← hSame]
  exact List.mem_map_of_mem hMem

theorem Holds.written_others (h : s.Holds (front ++ p :: back)) (write : ChunkWrite) (hAddress : write.address = p.head.address) :
    (front.flatMap HeldProperty.chunks).map (SharedChunk.written write) = front.flatMap HeldProperty.chunks ∧
      (back.flatMap HeldProperty.chunks).map (SharedChunk.written write) = back.flatMap HeldProperty.chunks :=
  ⟨written_flatMap (fun _ hq => h.name_ne (List.mem_append_left _ hq)) hAddress,
    written_flatMap (fun _ hq => h.name_ne (List.mem_append_right _ hq)) hAddress⟩

theorem written_rest {write : ChunkWrite} (hAddress : write.address = p.head.address) :
    p.rest.map (SharedChunk.written write) = p.rest := by
  conv_rhs => rw [← List.map_id p.rest]
  apply List.map_congr_left
  intro c hc
  refine SharedChunk.written_of_ne fun hSame => p.alone ?_
  rw [← hAddress, ← hSame]
  exact List.mem_map_of_mem hc

/-- A property of the same name in the place of another one. -/
theorem Holds.apart_replaced (h : s.Holds (front ++ p :: back)) {q : HeldProperty} (hName : q.info.2 = p.info.2)
    (hHead : q.head.address = p.head.address)
    (hRest : ∀ r ∈ front ++ back, ∀ address ∈ r.addresses, address ∉ q.rest.map SharedChunk.address) :
    (front ++ q :: back).Pairwise Apart := by
  have hApart := (List.pairwise_middle Apart.symm).mp h.apart
  rw [List.pairwise_cons] at hApart
  rw [List.pairwise_middle Apart.symm, List.pairwise_cons]
  refine ⟨fun r hr => ?_, hApart.2⟩
  obtain ⟨hNames, hFirst, hSecond⟩ := hApart.1 r hr
  refine ⟨by rwa [hName], by rwa [hHead], fun hMem => ?_⟩
  rcases List.mem_cons.mp hMem with hSame | hMore
  · apply hSecond
    rw [hSame, hHead]
    exact List.mem_cons_self
  · exact hRest r hr _ List.mem_cons_self hMore

/-- Writing over the chunk that holds a value or a length. -/
theorem copyLoop_head {c : SharedChunk} {type : Str} {value : List UInt8} (h : value.length = c.size) :
    SharedChunk.copyLoop type [c] c.chunk.first value = .ok [⟨c.address, c.chunk.first, value⟩] := by
  have hSize : sizeSub (c.size + c.chunk.first) c.chunk.first = c.size := by
    rw [sizeSub, if_pos (by omega), Nat.add_sub_cancel]
  rw [SharedChunk.copyLoop, hSize, h, Nat.min_self, if_pos rfl]

/-- A value of fixed size is written in place. -/
theorem Holds.setPropertyValue (h : s.Holds (front ++ p :: back)) {v : FixedValue} (hInfo : p.info.1 = v.typename) :
    ∃ t, s.setPropertyValue p.info.2 v = .ok t ∧ t.Holds (front ++ ofFixed p.info.2 p.head.address v :: back) := by
  have hNe : front ++ p :: back ≠ [] := by simp
  have hPair : (v.typename, p.info.2) = p.info := by rw [← hInfo]
  obtain ⟨w, hw⟩ : ∃ w, p.value = .fixed w := by
    have hTyped := p.typed
    rw [Property.WellTyped] at hTyped
    cases hValue : p.value with
    | fixed w => exact ⟨w, rfl⟩
    | span data hFits =>
        rw [hValue] at hTyped
        dsimp only at hTyped
        rw [hInfo, fixedSize_typename] at hTyped
        cases hTyped
  have hLength : v.bytes.length = w.bytes.length := by
    have hTyped := p.typed
    rw [Property.WellTyped, hw] at hTyped
    dsimp only at hTyped
    rw [hInfo] at hTyped
    have hSizes := fixedSize_typename v
    rw [hTyped, fixedSize_typename, Option.some.injEq] at hSizes
    exact hSizes.symm
  obtain ⟨hHead, hRest⟩ := head_of_fixed hw
  have hFits := (Property.length_bytes_pos w).2
  have hSize : p.head.size = v.bytes.length := by
    rw [SharedChunk.size, hHead, ← Chunk.body_length, Chunk.body_ofHeader,
      List.take_of_length_le (by simp only [ChunkHeader.size, chunkSize]; omega), hLength]
  have hMem : p.info ∈ s.propertyInfos := by
    rw [h.infos]
    exact List.mem_map_of_mem (by simp)
  have hCut : (⟨(p :: back).flatMap HeldProperty.chunks, s.propertyData.signalType⟩ : HeldSpan).restrict 0 v.bytes.length =
      ⟨[p.head], s.propertyData.signalType⟩ := by
    rw [HeldSpan.restrict, List.flatMap_cons, HeldProperty.chunks, List.cons_append, cut, if_pos (by omega), ← hSize,
      SharedChunk.sub_zero_size]
    rfl
  rw [PropertyStore.setPropertyValue, hPair, if_neg (not_not_intro hMem), h.walk_property, Outcome.ok_bind]
  dsimp only
  rw [hCut, HeldSpan.copyType]
  dsimp only
  rw [copyLoop_head hSize.symm, Outcome.ok_bind]
  refine ⟨_, rfl, ?_⟩
  -- the write goes to the chunk of the value alone
  have hWritten : SharedChunk.written ⟨p.head.address, p.head.chunk.first, v.bytes⟩ p.head =
      (ofFixed p.info.2 p.head.address v).head := by
    rw [SharedChunk.written, if_pos rfl, hHead, Chunk.overwrite_ofHeader _ hLength (by simp only [ChunkHeader.size, chunkSize]; omega),
      ← hLength]
    rfl
  obtain ⟨hFront, hBack⟩ := h.written_others ⟨p.head.address, p.head.chunk.first, v.bytes⟩ rfl
  have hData : (s.propertyData.written [⟨p.head.address, p.head.chunk.first, v.bytes⟩]).chunks =
      (front ++ ofFixed p.info.2 p.head.address v :: back).flatMap HeldProperty.chunks := by
    rw [h.propertyData hNe]
    simp only [HeldSpan.written, List.foldl_cons, List.foldl_nil, List.flatMap_append, List.flatMap_cons, List.map_append]
    rw [hFront, hBack, HeldProperty.chunks, hRest, List.map_singleton, hWritten]
    rfl
  have hSizes := size_ne_zero_flatMap (front ++ ofFixed p.info.2 p.head.address v :: back)
  refine ⟨?_, ?_, fun _ => ?_, h.apart_replaced rfl rfl fun _ _ _ _ => List.not_mem_nil⟩
  · rw [h.infos]
    simp only [List.map_append, List.map_cons, ofFixed, hPair]
  · rw [hData, nonemptyPieces_of_nonempty hSizes]
  · rw [hData]
    exact hSizes

/-- A span takes the place of another one, and its length is written in place. -/
theorem Holds.setPropertyValueSpan (h : s.Holds (front ++ p :: back)) (hType : fixedSize p.info.1 = none) {data : HeldSpan}
    (hFits : data.size < 2 ^ 63) (hData : ∀ address ∈ data.addresses, address ∉ s.propertyData.addresses)
    (hAddress : p.head.address ∉ data.addresses) :
    ∃ t, s.setPropertyValueSpan p.info.2 data = .ok t ∧
      t.Holds (front ++ ofSpan p.info hType p.head.address data hFits hAddress :: back) := by
  have hNe : front ++ p :: back ≠ [] := by simp
  obtain ⟨old, hOld, hValue⟩ : ∃ (old : SharedSpan) (hOld : old.size < 2 ^ 63), p.value = .span old hOld := by
    have hTyped := p.typed
    rw [Property.WellTyped] at hTyped
    cases hValue : p.value with
    | fixed w =>
        rw [hValue] at hTyped
        dsimp only at hTyped
        rw [hTyped, fixedSize_typename] at hType
        cases hType
    | span old hOld => exact ⟨old, hOld, rfl⟩
  have hHead := head_of_span hValue
  have hSize : p.head.size = 8 := by rw [SharedChunk.size, hHead, Property.size_lengthChunk]
  set write : ChunkWrite := ⟨p.head.address, p.head.chunk.first, leBytes 8 data.size⟩
  have hSplit : (front ++ p :: back).flatMap HeldProperty.chunks =
      (front.flatMap HeldProperty.chunks ++ p.chunks) ++ back.flatMap HeldProperty.chunks := by
    rw [List.flatMap_append, List.flatMap_cons, List.append_assoc]
  have hSplitHead : (front ++ p :: back).flatMap HeldProperty.chunks =
      (front.flatMap HeldProperty.chunks ++ [p.head]) ++ (p.rest ++ back.flatMap HeldProperty.chunks) := by
    simp [HeldProperty.chunks]
  have hBefore : totalSize SharedChunk.size (front.flatMap HeldProperty.chunks) + p.bytes.length =
      totalSize SharedChunk.size (front.flatMap HeldProperty.chunks ++ p.chunks) := by
    rw [totalSize_append, totalSize_chunks]
  have hBeforeHead : totalSize SharedChunk.size (front.flatMap HeldProperty.chunks) + 8 =
      totalSize SharedChunk.size (front.flatMap HeldProperty.chunks ++ [p.head]) := by
    rw [totalSize_append, totalSize_cons, totalSize_nil, hSize]
  have hPrior := (h.cut_at hSplitHead).1
  have hFollowing := (h.cut_at hSplit).2
  have hWrites : ((⟨(p :: back).flatMap HeldProperty.chunks, s.propertyData.signalType⟩ : HeldSpan).restrict 0 8).setBegin
      (str "unsigned long") (leBytes 8 data.size) = .ok [write] := by
    have hCut : (⟨(p :: back).flatMap HeldProperty.chunks, s.propertyData.signalType⟩ : HeldSpan).restrict 0 8 =
        ⟨[p.head], s.propertyData.signalType⟩ := by
      rw [HeldSpan.restrict, List.flatMap_cons, HeldProperty.chunks, List.cons_append, cut, if_pos (by omega), ← hSize,
        SharedChunk.sub_zero_size]
      rfl
    rw [hCut, HeldSpan.setBegin]
    have hIndex : [p.head].findIdx (fun c => decide (c.size ≠ 0)) = 0 := by
      rw [List.findIdx_cons, hSize]
      rfl
    simp only [hIndex, List.drop_zero]
    exact copyLoop_head (by rw [leBytes_length, hSize])
  rw [PropertyStore.setPropertyValueSpan, h.find_name]
  dsimp only
  rw [h.walk_property, Outcome.ok_bind]
  dsimp only
  rw [hBefore, hBeforeHead, h.size hSplit, if_neg (by omega), hWrites, Outcome.ok_bind, Nat.sub_sub, hBefore, Nat.add_sub_cancel_left]
  refine ⟨_, rfl, ?_⟩
  obtain ⟨hFront, hBack⟩ := h.written_others write rfl
  have hHeadWritten : SharedChunk.written write p.head = (ofSpan p.info hType p.head.address data hFits hAddress).head := by
    have hOverwrite : p.head.chunk.overwrite p.head.chunk.first (leBytes 8 data.size) = Property.lengthChunk data.size := by
      rw [hHead]
      exact Chunk.overwrite_ofHeader _ (by simp) (by simp [ChunkHeader.size, chunkSize])
    rw [SharedChunk.written, if_pos rfl, hOverwrite]
    rfl
  have hOwn : data.written [write] = data := HeldSpan.written_of_not_mem hAddress
  apply holds_compress
  · rw [h.infos]
    simp only [List.map_append, List.map_cons, ofSpan]
  · simp only [List.map_cons, List.map_nil, List.flatMap_cons, List.flatMap_nil, List.append_nil, hOwn]
    simp only [HeldSpan.written, List.foldl_cons, List.foldl_nil, nonemptyPieces_map (SharedChunk.size_written write), hPrior,
      hFollowing, List.map_append, List.map_cons, List.map_nil, hFront, hBack, hHeadWritten]
    simp only [List.flatMap_append, List.flatMap_cons, List.append_assoc]
    rfl
  · refine h.apart_replaced rfl rfl fun r hr address hMem hRest => ?_
    obtain ⟨c, hc, rfl⟩ := List.mem_map.mp hRest
    refine hData _ (List.mem_map_of_mem (List.mem_filter.mp hc).1) ?_
    rw [HeldSpan.addresses, h.propertyData hNe]
    obtain ⟨d, hd, hSame⟩ := List.mem_map.mp hMem
    refine List.mem_map.mpr ⟨d, List.mem_flatMap.mpr ⟨r, ?_, hd⟩, hSame⟩
    rcases List.mem_append.mp hr with hFront | hBack
    · exact List.mem_append_left _ hFront
    · exact List.mem_append_right _ (List.mem_cons_of_mem _ hBack)

theorem Holds.deleteProperty (h : s.Holds (front ++ p :: back)) :
    ∃ t, s.deleteProperty p.info.2 = .ok t ∧ t.Holds (front ++ back) := by
  have hSplit : (front ++ p :: back).flatMap HeldProperty.chunks =
      (front.flatMap HeldProperty.chunks ++ p.chunks) ++ back.flatMap HeldProperty.chunks := by
    rw [List.flatMap_append, List.flatMap_cons, List.append_assoc]
  have hBefore : totalSize SharedChunk.size (front.flatMap HeldProperty.chunks) + p.bytes.length =
      totalSize SharedChunk.size (front.flatMap HeldProperty.chunks ++ p.chunks) := by
    rw [totalSize_append, totalSize_chunks]
  have hSplitFront : (front ++ p :: back).flatMap HeldProperty.chunks =
      front.flatMap HeldProperty.chunks ++ (p :: back).flatMap HeldProperty.chunks := List.flatMap_append
  have hPrior := (h.cut_at hSplitFront).1
  have hFollowing := (h.cut_at hSplit).2
  rw [PropertyStore.deleteProperty, h.find_name]
  dsimp only
  rw [h.walk_property, Outcome.ok_bind]
  dsimp only
  rw [hBefore, h.size hSplit, if_neg (by omega), Nat.sub_sub, hBefore, Nat.add_sub_cancel_left]
  refine ⟨_, rfl, ?_⟩
  apply holds_compress
  · rw [h.infos, List.map_append, List.map_cons, List.eraseP_append_right, List.eraseP_cons_of_pos (by simp), List.map_append]
    intro info hInfo
    obtain ⟨q, hq, rfl⟩ := List.mem_map.mp hInfo
    have hName := (h.name_ne (List.mem_append_left back hq)).1
    simpa using hName.symm
  · simp only [List.flatMap_cons, List.flatMap_nil, List.append_nil, hPrior, hFollowing, List.flatMap_append]
  · exact h.apart.sublist (by simp)

end PropertyStore
end Wwatp
