import Mathlib

/-! Codecs for streams of chunks. A scan finds the end of a value from its first chunk on, or nothing
while chunks are missing. -/
namespace Cxx

variable {Chunk Value : Type*}

/-- A scan, from a start in a list of chunks to the chunk after the value. -/
abbrev Scan (Chunk : Type*) := ℕ → List Chunk → Option ℕ

/-- Some chunks have their end wherever they stand, and none as long as they are not complete. -/
structure Frames (scan : Scan Chunk) (chunks : List Chunk) : Prop where
  whole : ∀ front back, scan front.length (front ++ chunks ++ back) = some (front.length + chunks.length)
  part : ∀ front k, k < chunks.length → scan front.length (front ++ chunks.take k) = none

/-- A scan for a number of values. -/
def times (scan : Scan Chunk) : ℕ → Scan Chunk
  | 0, start, _ => some start
  | n + 1, start, chunks => (scan start chunks).bind (times scan n · chunks)

/-- A decoder that goes with a scan, for a number of values. -/
def decodeTimes (decode : ℕ → List Chunk → Option (ℕ × Value)) : ℕ → ℕ → List Chunk → Option (ℕ × List Value)
  | 0, start, _ => some (start, [])
  | n + 1, start, chunks => do
    let (next, value) ← decode start chunks
    let (stop, values) ← decodeTimes decode n next chunks
    return (stop, value :: values)

namespace Frames

variable {scan second : Scan Chunk} {first rest : List Chunk}

/-- A scan that goes on after some chunks as another one does. -/
theorem append (hPart : ∀ front k, k < first.length → scan front.length (front ++ first.take k) = none)
    (hWhole : ∀ front back, scan front.length (front ++ first ++ back) =
      second (front.length + first.length) (front ++ first ++ back))
    (hSecond : Frames second rest) : Frames scan (first ++ rest) where
  whole front back := by
    have hRest := hSecond.whole (front ++ first) back
    rw [← List.append_assoc, List.append_assoc _ rest, hWhole, ← List.append_assoc, ← List.length_append, hRest,
      List.length_append, List.length_append, Nat.add_assoc]
  part front k hk := by
    rw [List.length_append] at hk
    rw [List.take_append]
    by_cases hFirst : k < first.length
    · rw [Nat.sub_eq_zero_of_le (by omega), List.take_zero, List.append_nil]
      exact hPart front k hFirst
    · have hRest := hSecond.part (front ++ first) (k - first.length) (by omega)
      rw [List.take_of_length_le (by omega), ← List.append_assoc, hWhole, ← List.length_append]
      exact hRest

theorem bind (hFirst : Frames scan first) (hSecond : Frames second rest) :
    Frames (fun start chunks => (scan start chunks).bind (second · chunks)) (first ++ rest) := by
  refine append (fun front k hk => ?_) (fun front back => ?_) hSecond
  · rw [hFirst.part front k hk, Option.bind_none]
  · rw [hFirst.whole, Option.bind_some]

theorem times {values : List (List Chunk)} (h : ∀ chunks ∈ values, Frames scan chunks) :
    Frames (times scan values.length) values.flatten := by
  induction values with
  | nil => exact ⟨fun front back => rfl, fun front k hk => absurd hk (Nat.not_lt_zero k)⟩
  | cons chunks rest ih =>
      obtain ⟨hChunks, hRest⟩ := List.forall_mem_cons.mp h
      exact hChunks.bind (ih hRest)

end Frames

/-- A decoder stops where the scan says, if it does not fail. -/
def StopsAt (scan : Scan Chunk) (decode : ℕ → List Chunk → Option (ℕ × Value)) : Prop :=
  ∀ start chunks stop next value, scan start chunks = some stop → decode start chunks = some (next, value) → next = stop

/-- The chunks have their end, and a decoder that does not fail stops there. -/
structure FramesDecoded (scan : Scan Chunk) (decode : ℕ → List Chunk → Option (ℕ × Value)) (chunks : List Chunk) : Prop
    extends Frames scan chunks where
  next : ∀ front back stop value, decode front.length (front ++ chunks ++ back) = some (stop, value) →
    stop = front.length + chunks.length

theorem Frames.decoded {scan : Scan Chunk} {decode : ℕ → List Chunk → Option (ℕ × Value)} {chunks : List Chunk}
    (h : Frames scan chunks) (hStops : StopsAt scan decode) : FramesDecoded scan decode chunks where
  toFrames := h
  next front back stop value hDecode := hStops _ _ _ stop value (h.whole front back) hDecode

theorem StopsAt.times {scan : Scan Chunk} {decode : ℕ → List Chunk → Option (ℕ × Value)} (h : StopsAt scan decode)
    (n : ℕ) : StopsAt (times scan n) (decodeTimes decode n) := by
  induction n with
  | zero =>
      intro start chunks stop next values hScan hDecode
      obtain rfl := Option.some.inj hScan
      exact (congrArg Prod.fst (Option.some.inj hDecode)).symm
  | succ n ih =>
      intro start chunks stop next values hScan hDecode
      obtain ⟨middle, hFirst, hRest⟩ := Option.bind_eq_some_iff.mp hScan
      obtain ⟨⟨middle', value⟩, hDecoded, hDecode⟩ := Option.bind_eq_some_iff.mp hDecode
      obtain ⟨⟨stop', more⟩, hMore, hEnd⟩ := Option.bind_eq_some_iff.mp hDecode
      obtain rfl := h start chunks middle middle' value hFirst hDecoded
      obtain rfl := ih middle' chunks stop stop' more hRest hMore
      exact (congrArg Prod.fst (Option.some.inj hEnd)).symm

end Cxx
