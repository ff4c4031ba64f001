import Mathlib

/-! Byte strings as C++ sees them: a `std::string` is a list of bytes, and its
characters carry no encoding. Searching returns `none` for `npos`. -/
namespace Cxx

/-- The contents of a `std::string`. -/
abbrev Str := List UInt8

instance Str.lawfulBEq : LawfulBEq Str := inferInstanceAs (LawfulBEq (List UInt8))

instance Str.lawfulBEqPair : LawfulBEq (Str × Str) := inferInstanceAs (LawfulBEq (List UInt8 × List UInt8))

/-- The bytes of a source literal. Every literal used here is plain ASCII. -/
def str (s : String) : Str := s.toList.map fun c => c.toNat.toUInt8

/-- A byte written as a character literal. -/
def chr (c : Char) : UInt8 := c.toNat.toUInt8

/-- `isspace` of the "C" locale. -/
def isSpace (c : UInt8) : Bool := c == 32 || (9 ≤ c && c ≤ 13)

namespace Str

/-- `s.find(c)`: the first position that holds `c`. -/
def find (s : Str) (c : UInt8) : Option Nat := s.findIdx? (· == c)

/-- `s.find_last_of(c)`: the last position that holds `c`. -/
def findLast : Str → UInt8 → Option Nat
  | [], _ => none
  | b :: rest, c =>
      match findLast rest c with
      | some i => some (i + 1)
      | none => if b = c then some 0 else none

/-- Whether any byte is white space. -/
def hasSpace (s : Str) : Bool := s.any isSpace

/-- A prefix sorts before the string it starts. -/
theorem compare_isLE_of_isPrefix {s t : Str} (h : s <+: t) : (compare s t).isLE := by
  rw [List.compare_eq_compareLex]
  induction s generalizing t with
  | nil => exact List.isLE_compareLex_nil_left
  | cons b rest ih =>
      obtain ⟨tail, rfl⟩ := h
      have hSame : compare b b = .eq := Std.ReflCmp.compare_self
      rw [List.cons_append, List.compareLex_cons_cons, hSame]
      exact ih (List.prefix_append rest tail)

theorem findLast_eq_none {s : Str} {c : UInt8} : s.findLast c = none ↔ c ∉ s := by
  induction s with
  | nil => simp [findLast]
  | cons b rest ih =>
      simp only [findLast, List.mem_cons, not_or]
      cases h : findLast rest c with
      | some i =>
          have hMem : c ∈ rest := by
            by_contra hNot
            simp [ih.mpr hNot] at h
          simp [hMem]
      | none =>
          have hNot : c ∉ rest := ih.mp h
          by_cases hb : b = c
          · simp [hb]
          · simp [hb, hNot, Ne.symm hb]

/-- The last occurrence splits the string into what precedes it and a tail
that no longer contains the byte. -/
theorem findLast_eq_some {s : Str} {c : UInt8} {i : Nat} :
    s.findLast c = some i ↔
      ∃ before after, s = before ++ c :: after ∧ before.length = i ∧ c ∉ after := by
  induction s generalizing i with
  | nil => simp [findLast]
  | cons b rest ih =>
      simp only [findLast]
      cases h : findLast rest c with
      | some j =>
          obtain ⟨front, back, hRest, hLen, hBack⟩ := ih.mp h
          simp only [Option.some.injEq]
          constructor
          · rintro rfl
            exact ⟨b :: front, back, by simp [hRest], by simp [hLen], hBack⟩
          · rintro ⟨before, after, hEq, hLen', hAfter⟩
            cases before with
            | nil =>
                simp only [List.nil_append, List.cons.injEq] at hEq
                rw [← hEq.2, hRest] at hAfter
                simp at hAfter
            | cons b' before =>
                simp only [List.cons_append, List.cons.injEq] at hEq
                have hj := ih.mpr ⟨before, after, hEq.2, rfl, hAfter⟩
                rw [h, Option.some.injEq] at hj
                simp only [List.length_cons] at hLen'
                omega
      | none =>
          have hNot : c ∉ rest := findLast_eq_none.mp h
          by_cases hb : b = c
          · subst hb
            simp only [↓reduceIte, Option.some.injEq]
            constructor
            · rintro rfl
              exact ⟨[], rest, rfl, rfl, hNot⟩
            · rintro ⟨before, after, hEq, hLen, -⟩
              cases before with
              | nil => simpa using hLen
              | cons b' before =>
                  simp only [List.cons_append, List.cons.injEq] at hEq
                  exact absurd (by rw [hEq.2]; simp) hNot
          · simp only [hb, ↓reduceIte, reduceCtorEq, false_iff]
            rintro ⟨before, after, hEq, -, -⟩
            cases before with
            | nil =>
                simp only [List.nil_append, List.cons.injEq] at hEq
                exact hb hEq.1
            | cons b' before =>
                simp only [List.cons_append, List.cons.injEq] at hEq
                exact hNot (by rw [hEq.2]; simp)

/-- No occurrence comes after the last one. -/
theorem le_findLast {before after : Str} {c : UInt8} {i : Nat}
    (h : Str.findLast (before ++ c :: after) c = some i) : before.length ≤ i := by
  obtain ⟨front, back, hEq, rfl, hBack⟩ := findLast_eq_some.mp h
  by_contra hLt
  apply hBack
  have hDrop : back = (before ++ c :: after).drop (front.length + 1) := by
    rw [hEq, ← List.drop_drop, List.drop_left, List.drop_one, List.tail_cons]
  rw [hDrop, List.drop_append_of_le_length (by omega)]
  simp

end Str

end Cxx
