import Wwatp.JavaScript.BuiltNodes

/-! Nodes that JavaScript builds and the C++ code reads. -/
namespace Wwatp

open Cxx

namespace SharedSpan

variable {length : ℕ}

/-- A restriction is no longer than it should be, and reaches no further than the chunks do. -/
theorem size_restrictLoop (done todo : List Chunk) (start length : ℕ) (hDone : done = [] ∨ start = 0) :
    chunksSize (restrictLoop done todo start length) ≤ chunksSize done + length ∧
      (start ≤ chunksSize todo → chunksSize (restrictLoop done todo start length) + start ≤ chunksSize done + chunksSize todo) := by
  induction todo generalizing done start length with
  | nil =>
      rw [restrictLoop, chunksSize_nil]
      omega
  | cons c todo ih =>
      have hSub {start length : ℕ} (h : start + length ≤ c.size) : (c.sub start length).size = length := by
        rw [← Chunk.body_length, Chunk.body_sub h, List.length_take, List.length_drop, Chunk.body_length]
        omega
      rw [restrictLoop, chunksSize_cons]
      by_cases hHere : start + length ≤ c.size
      · rw [if_pos hHere, chunksSize_append, chunksSize_cons, hSub hHere, chunksSize_nil]
        omega
      · rw [if_neg hHere]
        by_cases hBehind : c.size ≤ start
        · rw [if_pos hBehind]
          rcases hDone with rfl | rfl
          · have hRest := ih [] (start - c.size) length (.inl rfl)
            rw [chunksSize_nil] at hRest
            rw [List.nil_append, List.tail_cons, chunksSize_nil]
            omega
          · -- an empty chunk takes the place of the first one
            have hRest := ih (done ++ [c]).tail (0 - c.size) length (.inr (by omega))
            have hTail : chunksSize (done ++ [c]).tail ≤ chunksSize done + c.size := by
              cases done with
              | nil => simp
              | cons d done =>
                  simp only [List.cons_append, List.tail_cons, chunksSize_append, chunksSize_cons, chunksSize_nil]
                  omega
            omega
        · rw [if_neg hBehind]
          have hRest := ih (done ++ [c.sub start (c.size - start)]) 0 (length - (c.size - start)) (.inr rfl)
          rw [chunksSize_append, chunksSize_cons, hSub (by omega), chunksSize_nil] at hRest
          omega

theorem size_restrict_le (s : SharedSpan) (start length : ℕ) : (s.restrict start length).size ≤ length := by
  have hSize := (size_restrictLoop [] s.chunks start length (.inl rfl)).1
  rwa [chunksSize_nil, Nat.zero_add] at hSize

theorem size_restrict_add_le (s : SharedSpan) {start : ℕ} (h : start ≤ s.size) (length : ℕ) :
    (s.restrict start length).size + start ≤ s.size := by
  have hSize := (size_restrictLoop [] s.chunks start length (.inl rfl)).2 h
  rwa [chunksSize_nil, Nat.zero_add] at hSize

theorem le_size_of_beginPod {s : SharedSpan} {length : ℕ} {bytes : List UInt8} (h : s.beginPod length = .ok bytes) :
    length ≤ s.size := by
  rw [beginPod] at h
  split at h
  · cases h
  · next c more hChunks =>
      split_ifs at h with hShort
      have hMem : c ∈ s.chunks := List.dropWhile_subset _ (hChunks ▸ List.mem_cons_self)
      have hSize : c.size ≤ s.size := List.single_le_sum (by simp) _ (List.mem_map_of_mem hMem)
      omega

/-- The chunks behind a value that ends in the first of them. -/
def behind (length : ℕ) (c : Chunk) (more : List Chunk) : List Chunk :=
  if length = c.size then more else c.sub length (c.size - length) :: more

theorem restrict_behind {c : Chunk} {more : List Chunk} {signalType : UInt8} (hCompact : Compact (c :: more))
    (hFirst : length ≤ c.size) (hMore : length < chunksSize (c :: more)) :
    (⟨c :: more, signalType⟩ : SharedSpan).restrict length (chunksSize (c :: more) - length) =
      ⟨behind length c more, signalType⟩ := by
  rw [chunksSize_cons] at hMore
  rw [restrict, restrictLoop, chunksSize_cons, behind]
  obtain ⟨hc, hRest⟩ := List.forall_mem_cons.mp hCompact
  by_cases hLast : more = []
  · subst hLast
    rw [chunksSize_nil] at hMore ⊢
    rw [if_pos (by omega), if_neg (by omega), Nat.add_zero, List.nil_append]
  · have hPos := Compact.pos hRest hLast
    rw [if_neg (by omega)]
    split_ifs with hBehind hEnd
    · rw [List.nil_append, List.tail_cons, hEnd, Nat.sub_self, Nat.add_sub_cancel_left]
      rw [restrictLoop_all [] hRest hLast, List.nil_append]
    · omega
    · omega
    · have hRemaining : c.size + chunksSize more - length - (c.size - length) = chunksSize more := by omega
      rw [List.nil_append, hRemaining, restrictLoop_all _ hRest hLast, List.singleton_append]

theorem compact_behind {c : Chunk} {more : List Chunk} (hCompact : Compact (c :: more)) (hFirst : length ≤ c.size) :
    Compact (behind length c more) := by
  obtain ⟨hc, hRest⟩ := List.forall_mem_cons.mp hCompact
  rw [behind]
  split_ifs with hEnd
  · exact hRest
  · refine List.forall_mem_cons.mpr ⟨?_, hRest⟩
    rw [← Chunk.body_length, Chunk.body_sub (by omega), List.length_take, List.length_drop, Chunk.body_length]
    omega

theorem bytes_behind {c : Chunk} (more : List Chunk) (hFirst : length ≤ c.size) :
    (behind length c more).flatMap Chunk.body = ((c :: more).flatMap Chunk.body).drop length := by
  rw [List.flatMap_cons, List.drop_append_of_le_length (by rwa [Chunk.body_length]), behind]
  split_ifs with hEnd
  · rw [List.drop_of_length_le (by rw [Chunk.body_length]; omega), List.nil_append]
  · rw [List.flatMap_cons, Chunk.body_sub (by omega),
      List.take_of_length_le (by rw [List.length_drop, Chunk.body_length])]

end SharedSpan

namespace TreeNode

open SharedSpan

variable {n : TreeNode} {p : Property} {properties : List Property}

/-- Where the loop ends, the size is that of the property there. -/
theorem walkTo_found {target : PropertyInfo} {infos : List PropertyInfo} {s remaining : SharedSpan} {c t cur total : ℕ}
    (hMem : target ∈ infos) (h : walkTo target infos s c t = .ok (remaining, cur, total)) :
    currentSize target.1 remaining = .ok cur := by
  induction infos generalizing s c t with
  | nil => cases hMem
  | cons info rest ih =>
      rw [walkTo] at h
      obtain ⟨size, hSize, h⟩ := Outcome.bind_eq_ok.mp h
      split_ifs at h with hTarget hShort
      · obtain ⟨rfl, rfl, -⟩ := by simpa using h
        rwa [← hTarget]
      · exact ih ((List.mem_cons.mp hMem).resolve_left (Ne.symm hTarget)) h

/-- The first property is where the loop starts. -/
theorem walkTo_first (info : PropertyInfo) (rest : List PropertyInfo) (s : SharedSpan) (c t : ℕ) :
    walkTo info (info :: rest) s c t = (do return (s, ← currentSize info.1 s, t)) := by
  rw [walkTo]
  simp

theorem walkTo_next {target info : PropertyInfo} (hNe : info ≠ target) {size : ℕ} {s : SharedSpan}
    (hSize : currentSize info.1 s = .ok size) (hFits : size ≤ s.size) (rest : List PropertyInfo) (c t : ℕ) :
    walkTo target (info :: rest) s c t = walkTo target rest (s.restrict size (s.size - size)) size (t + size) := by
  rw [walkTo, hSize, Outcome.ok_bind, if_neg hNe, if_neg (by omega)]

/-- The data at a property are long enough for it. -/
def Fits (p : Property) (remaining : SharedSpan) (cur : ℕ) : Prop := p.bytes.length ≤ cur ∧ p.bytes.length ≤ remaining.size

/-- A property that is read fits where the loop finds it. -/
theorem fits_of_readProperty (hMem : p.info ∈ n.propertyInfos) (hNames : (n.propertyInfos.map Prod.snd).Nodup)
    (hTyped : p.WellTyped) (h : n.readProperty p.info = .ok p.value.reading) :
    ∃ remaining cur total, walkTo p.info n.propertyInfos n.propertyData 0 0 = .ok (remaining, cur, total) ∧
      Fits p remaining cur := by
  rw [Property.WellTyped] at hTyped
  rw [readProperty] at h
  cases hValue : p.value with
  | fixed v =>
      rw [hValue] at hTyped
      dsimp only at hTyped
      rw [if_pos (by rw [hTyped, fixedSize_typename]; rfl)] at h
      obtain ⟨read, hRead, -⟩ := Outcome.bind_eq_ok.mp h
      rw [getPropertyValue, if_neg (not_not_intro hMem)] at hRead
      obtain ⟨⟨remaining, cur, total⟩, hWalk, hRead⟩ := Outcome.bind_eq_ok.mp hRead
      obtain ⟨bytes, hBegin, -⟩ := Outcome.bind_eq_ok.mp hRead
      have hSize := le_size_of_beginPod hBegin
      have hCur := walkTo_found hMem hWalk
      rw [hTyped, fixedSize_typename, Option.getD_some] at hSize
      rw [currentSize, hTyped, fixedSize_typename] at hCur
      obtain rfl := Except.ok.inj hCur
      refine ⟨_, _, _, hWalk, ?_⟩
      rw [Fits, Property.bytes, hValue]
      exact ⟨Nat.le_refl _, hSize⟩
  | span data hFits =>
      rw [hValue] at hTyped h
      dsimp only at hTyped
      rw [if_neg (by simp [hTyped])] at h
      obtain ⟨⟨size, bytes⟩, hRead, h⟩ := Outcome.bind_eq_ok.mp h
      obtain rfl : bytes = data.bytes := PropertyReading.bytes.inj (Except.ok.inj h)
      obtain ⟨⟨_, lengthSpan, dataSpan⟩, hSpan, hRead⟩ := Outcome.bind_eq_ok.mp hRead
      have hBytes : dataSpan.bytes = data.bytes := congrArg Prod.snd (Except.ok.inj hRead)
      have hFind : n.propertyInfos.find? (fun info => info.2 = p.info.2) = some p.info := by
        have hSome : (n.propertyInfos.find? fun info => info.2 = p.info.2).isSome :=
          List.find?_isSome.mpr ⟨p.info, hMem, decide_eq_true rfl⟩
        obtain ⟨info, hInfo⟩ := Option.isSome_iff_exists.mp hSome
        have hName : info.2 = p.info.2 := by simpa using List.find?_some hInfo
        rw [List.inj_on_of_nodup_map hNames (List.mem_of_find?_eq_some hInfo) hMem hName] at hInfo
        exact hInfo
      rw [getPropertyValueSpan, hFind] at hSpan
      dsimp only at hSpan
      obtain ⟨⟨remaining, cur, total⟩, hWalk, hSpan⟩ := Outcome.bind_eq_ok.mp hSpan
      dsimp only at hSpan
      split_ifs at hSpan with hShort
      have hRestrict : remaining.restrict 8 (cur - 8) = dataSpan := congrArg (fun r => r.2.2) (Except.ok.inj hSpan)
      have hCur := walkTo_found hMem hWalk
      rw [currentSize, hTyped] at hCur
      obtain ⟨lengthBytes, hBegin, -⟩ := Outcome.bind_eq_ok.mp hCur
      have hEight := le_size_of_beginPod hBegin
      have hLe := remaining.size_restrict_le 8 (cur - 8)
      have hAdd := remaining.size_restrict_add_le hEight (cur - 8)
      have hDataSize := data.size_eq_bytes_length
      rw [hRestrict, dataSpan.size_eq_bytes_length, hBytes] at hLe hAdd
      refine ⟨_, _, _, hWalk, ?_⟩
      rw [Fits, Property.bytes, hValue]
      simp only [List.length_append, leBytes_length]
      omega

/-- The data are as long as all properties that fit in them. -/
theorem sum_le_of_fits {s : SharedSpan} {c t : ℕ} (hNames : (properties.map fun p => p.info.2).Nodup)
    (h : ∀ p ∈ properties, ∃ remaining cur total,
      walkTo p.info (properties.map Property.info) s c t = .ok (remaining, cur, total) ∧ Fits p remaining cur) :
    (properties.map fun p => p.bytes.length).sum ≤ s.size := by
  induction properties generalizing s c t with
  | nil => exact Nat.zero_le _
  | cons p rest ih =>
      obtain ⟨hp, hRestNames⟩ := List.nodup_cons.mp hNames
      obtain ⟨hFirst, hRest⟩ := List.forall_mem_cons.mp h
      obtain ⟨remaining, cur, total, hWalk, hCur, hFits⟩ := hFirst
      rw [List.map_cons, walkTo_first] at hWalk
      obtain ⟨size, hSize, hWalk⟩ := Outcome.bind_eq_ok.mp hWalk
      obtain ⟨rfl, rfl, -⟩ := by simpa using hWalk
      rw [List.map_cons, List.sum_cons]
      have hNe (q : Property) (hq : q ∈ rest) : p.info ≠ q.info := fun hSame =>
        hp (List.mem_map.mpr ⟨q, hq, congrArg Prod.snd hSame.symm⟩)
      by_cases hLong : size ≤ s.size
      · have hSum := ih (s := s.restrict size (s.size - size)) (c := size) (t := t + size) hRestNames (fun q hq => by
          have hNext := hRest q hq
          rwa [List.map_cons, walkTo_next (hNe q hq) hSize hLong] at hNext)
        have hLe := s.size_restrict_le size (s.size - size)
        omega
      · cases rest with
        | nil => simpa using hFits
        | cons q rest =>
            obtain ⟨_, _, _, hNext, -⟩ := hRest q List.mem_cons_self
            rw [List.map_cons, walkTo, hSize, Outcome.ok_bind, if_neg (hNe q List.mem_cons_self), if_pos (by omega)] at hNext
            cases hNext

/-- The loop comes to data whose first chunk holds the value of a property. -/
def FoundAt (p : Property) (infos : List PropertyInfo) (s : SharedSpan) (c t : ℕ) : Prop :=
  ∃ remaining cur total bytes, walkTo p.info infos s c t = .ok (remaining, cur, total) ∧
    remaining.beginPod p.bytes.length = .ok bytes ∧
    (FixedValue.ofBytes p.info.1 bytes).map PropertyReading.fixed = some p.value.reading

theorem readProperty_iff_foundAt (hMem : p.info ∈ n.propertyInfos) (hTyped : p.WellTyped) {v : FixedValue}
    (hValue : p.value = .fixed v) :
    n.readProperty p.info = .ok p.value.reading ↔ FoundAt p n.propertyInfos n.propertyData 0 0 := by
  rw [Property.WellTyped, hValue] at hTyped
  dsimp only at hTyped
  have hSize : (fixedSize p.info.1).getD 0 = p.bytes.length := by
    rw [hTyped, fixedSize_typename, Option.getD_some, Property.bytes, hValue]
  rw [readProperty, if_pos (by rw [hTyped, fixedSize_typename]; rfl), getPropertyValue, if_neg (not_not_intro hMem), hSize]
  constructor
  · intro h
    obtain ⟨read, hRead, h⟩ := Outcome.bind_eq_ok.mp h
    obtain ⟨⟨remaining, cur, total⟩, hWalk, hRead⟩ := Outcome.bind_eq_ok.mp hRead
    obtain ⟨bytes, hBegin, hRead⟩ := Outcome.bind_eq_ok.mp hRead
    refine ⟨remaining, cur, total, bytes, hWalk, hBegin, ?_⟩
    split at hRead
    · cases hRead
    · next value hFound =>
        obtain rfl := Except.ok.inj hRead
        rw [hFound]
        exact congrArg some (Except.ok.inj h)
  · rintro ⟨remaining, cur, total, bytes, hWalk, hBegin, hFound⟩
    obtain ⟨value, hOf, hReading⟩ := Option.map_eq_some_iff.mp hFound
    rw [← hReading]
    simp only [hWalk, Outcome.ok_bind, hBegin, hOf, Outcome.pure_eq_ok]

/-- Values of fixed size that stand in some chunks, none of them across the end of one. -/
def Aligned : List Property → List Chunk → Prop
  | [], _ => True
  | _ :: _, [] => False
  | p :: rest, c :: more => p.bytes.length ≤ c.size ∧ Aligned rest (behind p.bytes.length c more)

theorem beginPod_cons {c : Chunk} {more : List Chunk} {signalType : UInt8} (hc : c.size ≠ 0) (length : ℕ) :
    (⟨c :: more, signalType⟩ : SharedSpan).beginPod length =
      if c.size < length then throw (.invalidArgument (str "PODType extends past the end of the span"))
      else .ok (c.body.take length) := by
  rw [beginPod, List.dropWhile_cons_of_neg (by simpa using hc)]

/-- The loop finds all values of fixed size exactly when they are aligned. -/
theorem foundAt_iff_aligned {chunks : List Chunk} (signalType : UInt8) (c t : ℕ)
    (hFixed : ∀ p ∈ properties, ∃ v, p.value = .fixed v) (hTyped : ∀ p ∈ properties, p.WellTyped)
    (hNames : (properties.map fun p => p.info.2).Nodup) (hCompact : Compact chunks)
    (hBytes : chunks.flatMap Chunk.body = properties.flatMap Property.bytes) :
    (∀ p ∈ properties, FoundAt p (properties.map Property.info) ⟨chunks, signalType⟩ c t) ↔ Aligned properties chunks := by
  induction properties generalizing chunks c t with
  | nil => simp [Aligned]
  | cons p rest ih =>
      obtain ⟨⟨v, hValue⟩, hRestFixed⟩ := List.forall_mem_cons.mp hFixed
      obtain ⟨hp, hRestTyped⟩ := List.forall_mem_cons.mp hTyped
      obtain ⟨hNew, hRestNames⟩ := List.nodup_cons.mp hNames
      rw [Property.WellTyped, hValue] at hp
      dsimp only at hp
      have hpBytes : p.bytes = v.bytes := by rw [Property.bytes, hValue]
      have hPos := (Property.length_bytes_pos v).1
      have hSize : currentSize p.info.1 ⟨chunks, signalType⟩ = .ok p.bytes.length := by
        rw [currentSize, hp, fixedSize_typename, hpBytes]
      have hTotal : chunksSize chunks = p.bytes.length + (rest.flatMap Property.bytes).length := by
        rw [chunksSize_eq, hBytes, List.flatMap_cons, List.length_append]
      obtain _ | ⟨chunk, more⟩ := chunks
      · rw [chunksSize_nil, hpBytes] at hTotal
        omega
      have hChunk := hCompact chunk List.mem_cons_self
      have hHere : FoundAt p ((p :: rest).map Property.info) ⟨chunk :: more, signalType⟩ c t ↔ p.bytes.length ≤ chunk.size := by
        constructor
        · rintro ⟨remaining, cur, total, bytes, hWalk, hBegin, -⟩
          rw [List.map_cons, walkTo_first, hSize] at hWalk
          obtain ⟨rfl, -⟩ := by simpa using hWalk
          rw [beginPod_cons hChunk] at hBegin
          split_ifs at hBegin
          omega
        · intro hLe
          have hTake : chunk.body.take p.bytes.length = v.bytes := by
            have hBody : (chunk.body ++ more.flatMap Chunk.body).take p.bytes.length = chunk.body.take p.bytes.length :=
              List.take_append_of_le_length (by rwa [Chunk.body_length])
            rw [← hBody, ← List.flatMap_cons, hBytes, List.flatMap_cons, List.take_left, hpBytes]
          refine ⟨⟨chunk :: more, signalType⟩, p.bytes.length, t, v.bytes, ?_, ?_, ?_⟩
          · rw [List.map_cons, walkTo_first, hSize]
            rfl
          · rw [beginPod_cons hChunk, if_neg (by omega), hTake]
          · rw [hp, FixedValue.ofBytes_bytes, hValue]
            rfl
      rw [List.forall_mem_cons, hHere, Aligned]
      refine and_congr_right fun hLe => ?_
      have hRestBytes : (behind p.bytes.length chunk more).flatMap Chunk.body = rest.flatMap Property.bytes := by
        rw [bytes_behind more hLe, hBytes, List.flatMap_cons, List.drop_left]
      rw [← ih p.bytes.length (t + p.bytes.length) hRestFixed hRestTyped hRestNames (compact_behind hCompact hLe) hRestBytes]
      refine forall₂_congr fun q hq => ?_
      have hNe : p.info ≠ q.info := fun hSame => hNew (List.mem_map.mpr ⟨q, hq, congrArg Prod.snd hSame.symm⟩)
      have hLess : p.bytes.length < chunksSize (chunk :: more) := by
        obtain ⟨w, hw⟩ := hRestFixed q hq
        have hqPos := (Property.length_bytes_pos w).1
        have hqLe : q.bytes.length ≤ (rest.flatMap Property.bytes).length := by
          rw [List.length_flatMap]
          exact List.single_le_sum (by simp) _ (List.mem_map_of_mem hq)
        rw [Property.bytes, hw] at hqLe
        dsimp only at hqLe
        omega
      have hNext : walkTo q.info ((p :: rest).map Property.info) ⟨chunk :: more, signalType⟩ c t =
          walkTo q.info (rest.map Property.info) ⟨behind p.bytes.length chunk more, signalType⟩ p.bytes.length
            (t + p.bytes.length) := by
        rw [List.map_cons, walkTo_next hNe hSize (by show _ ≤ chunksSize (chunk :: more); omega)]
        congr 1
        exact restrict_behind hCompact hLe hLess
      rw [FoundAt, FoundAt, hNext]

end TreeNode

namespace JavaScript

open SharedSpan

/-- A C++ node that has come with the properties of a JavaScript node. Their bytes are in chunks of
which none is empty. -/
structure Carries (m : TreeNode) (n : Node) : Prop where
  infos : m.propertyInfos = n.propertyInfos
  bytes : m.propertyData.bytes = n.propertyData
  compact : Compact m.propertyData.chunks

/-- The C++ accessors give what every call has inserted. -/
def ReadInCxx (insertions : List Insertion) (m : TreeNode) : Prop :=
  ∀ insertion ∈ insertions, m.readProperty insertion.inserted.info = .ok insertion.inserted.value.reading

def Insertion.HasFixedSize (insertion : Insertion) : Prop := ∃ index name value, insertion = .property index name value

theorem hasFixedSize_iff {insertion : Insertion} : insertion.HasFixedSize ↔ ∃ v, insertion.inserted.value = .fixed v := by
  cases insertion <;> simp [Insertion.HasFixedSize, Insertion.inserted, bytesProperty]

/-- JavaScript writes every value of variable size four bytes shorter than C++ reads it. -/
theorem bytes_length (p : Property) :
    p.bytes.length = (written p).length + match p.value with | .fixed _ => 0 | .span _ _ => 4 := by
  rw [Property.bytes, written]
  cases p.value with
  | fixed v => rfl
  | span data hFits =>
      simp only [List.length_append, leBytes_length, ← data.size_eq_bytes_length]
      omega

theorem fixed_of_sum_le {properties : List Property}
    (h : (properties.map fun p => p.bytes.length).sum ≤ (properties.flatMap written).length) :
    ∀ p ∈ properties, ∃ v, p.value = .fixed v := by
  have hLe (properties : List Property) :
      (properties.flatMap written).length ≤ (properties.map fun p => p.bytes.length).sum := by
    rw [List.length_flatMap]
    refine List.sum_le_sum fun p _ => ?_
    rw [bytes_length]
    exact Nat.le_add_right _ _
  induction properties with
  | nil => nofun
  | cons p rest ih =>
      have hRest := hLe rest
      have hFirst := bytes_length p
      rw [List.map_cons, List.sum_cons, List.flatMap_cons, List.length_append] at h
      refine List.forall_mem_cons.mpr ⟨?_, ih (by omega)⟩
      cases hValue : p.value with
      | fixed v => exact ⟨v, rfl⟩
      | span data hFits =>
          rw [hValue] at hFirst
          dsimp only at hFirst
          omega

/-- A node from JavaScript is read in C++ exactly when all its properties have a fixed size and none
of them crosses the end of a chunk. -/
theorem readInCxx_iff {insertions : List Insertion} {n : Node} {m : TreeNode} (h : Insertion.build insertions = .ok n)
    (hCarries : Carries m n) :
    ReadInCxx insertions m ↔ (∀ insertion ∈ insertions, insertion.HasFixedSize) ∧
      TreeNode.Aligned (Insertion.placed insertions) m.propertyData.chunks := by
  have hBuilt := built_of_build h
  have hInfos : m.propertyInfos = (Insertion.placed insertions).map Property.info := by rw [hCarries.infos, hBuilt.infos]
  have hAll {P : Property → Prop} : (∀ insertion ∈ insertions, P insertion.inserted) ↔
      ∀ p ∈ Insertion.placed insertions, P p := by
    refine ⟨fun hP p hp => ?_, fun hP insertion hMem => hP _ (Insertion.mem_placed.mpr ⟨insertion, hMem, rfl⟩)⟩
    obtain ⟨insertion, hMem, rfl⟩ := Insertion.mem_placed.mp hp
    exact hP insertion hMem
  have hMem {p : Property} (hp : p ∈ Insertion.placed insertions) : p.info ∈ m.propertyInfos := by
    rw [hInfos]
    exact List.mem_map_of_mem hp
  have hNames : (m.propertyInfos.map Prod.snd).Nodup := by
    rw [hInfos, List.map_map]
    exact hBuilt.names
  have hFixedTyped (hFixed : ∀ insertion ∈ insertions, insertion.HasFixedSize) :
      ∀ p ∈ Insertion.placed insertions, p.WellTyped := by
    refine hAll.mp fun insertion hInsertion => ?_
    obtain ⟨index, name, value, rfl⟩ := hFixed insertion hInsertion
    rfl
  have hRead_iff (hFixed : ∀ insertion ∈ insertions, insertion.HasFixedSize) :
      ReadInCxx insertions m ↔ TreeNode.Aligned (Insertion.placed insertions) m.propertyData.chunks := by
    have hTyped := hFixedTyped hFixed
    have hValues : ∀ p ∈ Insertion.placed insertions, ∃ v, p.value = .fixed v :=
      hAll.mp fun insertion hInsertion => hasFixedSize_iff.mp (hFixed insertion hInsertion)
    have hSame (p : Property) (hp : p ∈ Insertion.placed insertions) : written p = p.bytes := by
      obtain ⟨v, hValue⟩ := hValues p hp
      rw [written, Property.bytes, hValue]
    have hBytes : m.propertyData.chunks.flatMap Chunk.body = (Insertion.placed insertions).flatMap Property.bytes := by
      rw [← List.flatMap_congr hSame, ← hBuilt.data hTyped, ← hCarries.bytes]
      rfl
    rw [← TreeNode.foundAt_iff_aligned m.propertyData.signalType 0 0 hValues hTyped
      hBuilt.names hCarries.compact hBytes, ReadInCxx, hAll (P := fun p => m.readProperty p.info = .ok p.value.reading), ← hInfos]
    refine forall₂_congr fun p hp => ?_
    obtain ⟨v, hValue⟩ := hValues p hp
    exact TreeNode.readProperty_iff_foundAt (hMem hp) (hTyped p hp) hValue
  constructor
  · intro hRead
    have hTyped : ∀ p ∈ Insertion.placed insertions, p.WellTyped := by
      refine hAll.mp fun insertion hInsertion => wellTyped_of_readProperty ?_ (hRead insertion hInsertion)
      intro v hv
      cases insertion <;> cases hv
      rfl
    have hFits : ∀ p ∈ Insertion.placed insertions, ∃ remaining cur total,
        TreeNode.walkTo p.info ((Insertion.placed insertions).map Property.info) m.propertyData 0 0 =
          .ok (remaining, cur, total) ∧ TreeNode.Fits p remaining cur := by
      intro p hp
      rw [← hInfos]
      exact TreeNode.fits_of_readProperty (hMem hp) hNames (hTyped p hp)
        ((hAll (P := fun p => m.readProperty p.info = .ok p.value.reading)).mp hRead p hp)
    have hSum := TreeNode.sum_le_of_fits hBuilt.names hFits
    rw [m.propertyData.size_eq_bytes_length, hCarries.bytes, hBuilt.data hTyped] at hSum
    have hFixed : ∀ insertion ∈ insertions, insertion.HasFixedSize := fun insertion hInsertion =>
      hasFixedSize_iff.mpr (hAll.mpr (fixed_of_sum_le hSum) insertion hInsertion)
    exact ⟨hFixed, (hRead_iff hFixed).mp hRead⟩
  · rintro ⟨hFixed, hAligned⟩
    exact (hRead_iff hFixed).mpr hAligned

/-- A node that is built in one language is read in the other: from C++ exactly when every string
and span has a type of its own and the properties are legible in their order, from JavaScript
exactly when all properties have a fixed size and none of them crosses the end of a chunk. -/
theorem sameProperties_iff (utf8Decode : List UInt8 → String) :
    (∀ insertions n, PropertyInsertion.build insertions = .ok n →
      (SameReadings utf8Decode insertions n ↔
        (∀ insertion ∈ insertions, insertion.inserted.WellTyped) ∧ Legible (PropertyInsertion.placed insertions))) ∧
    ∀ insertions n, Insertion.build insertions = .ok n → ∀ m, Carries m n →
      (ReadInCxx insertions m ↔ (∀ insertion ∈ insertions, insertion.HasFixedSize) ∧
        TreeNode.Aligned (Insertion.placed insertions) m.propertyData.chunks) :=
  ⟨fun _ _ h => sameReadings_iff_legible h, fun _ _ h _ hCarries => readInCxx_iff h hCarries⟩

theorem sameProperties_iff_flag :
    (∃ n, PropertyInsertion.build [.property 0 (str "flag") (.bool true)] = .ok n ∧
      SameReadings (fun _ => "") [.property 0 (str "flag") (.bool true)] n) ∧
    ∃ n m, Insertion.build [.property 0 (str "flag") (.bool true)] = .ok n ∧ Carries m n ∧
      ReadInCxx [.property 0 (str "flag") (.bool true)] m := by
  obtain ⟨hCxx, hJavaScript⟩ := sameProperties_iff fun _ => ""
  constructor
  · refine ⟨_, rfl, (hCxx _ _ rfl).mpr ⟨fun insertion hMem => ?_, trivial⟩⟩
    obtain rfl := List.mem_singleton.mp hMem
    rfl
  · have hCarries : Carries
        { propertyInfos := [(str "bool", str "flag")], propertyData := .ofSignal (.payload ⟨0, 0x00, 1⟩) [1] }
        ⟨[(str "bool", str "flag")], [1]⟩ := ⟨rfl, rfl, by unfold Compact; decide⟩
    refine ⟨_, _, rfl, hCarries, (hJavaScript _ _ rfl _ hCarries).mpr ⟨fun insertion hMem => ?_, ?_⟩⟩
    · obtain rfl := List.mem_singleton.mp hMem
      exact ⟨_, _, _, rfl⟩
    · exact ⟨by decide, trivial⟩

/-- The text "abc" is read with its first characters cut off. -/
theorem not_sameReadings_text : ¬∃ utf8Decode : List UInt8 → String, ∀ n,
    PropertyInsertion.build [.string 0 (str "title") (str "string") (str "abc") (by decide)] = .ok n →
      SameReadings utf8Decode [.string 0 (str "title") (str "string") (str "abc") (by decide)] n := by
  rintro ⟨utf8Decode, h⟩
  have hBuild : ∃ n, PropertyInsertion.build [.string 0 (str "title") (str "string") (str "abc") (by decide)] = .ok n :=
    ⟨_, rfl⟩
  obtain ⟨n, hBuild⟩ := hBuild
  have hLegible := ((sameReadings_iff_legible hBuild).mp (h n hBuild)).2
  exact absurd hLegible.2.1 (by decide)

end JavaScript
end Wwatp
