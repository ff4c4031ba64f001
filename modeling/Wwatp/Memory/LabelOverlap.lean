import Wwatp.Memory.LabelRule

/-! Exactly when `checkLabelRuleOverlap` finds the overlap of two label rules. It looks at the rules
from the last slash on that they can share, but compares the names behind it by their lengths only,
and a rule without a slash sends the subscripts out of its bounds. -/
namespace Wwatp

open Cxx

/-- Two labels overlap: one of them is empty, they are equal, or one is followed by a slash in the other. -/
def Overlap (label1 label2 : Str) : Prop :=
  label1 = [] ∨ label2 = [] ∨ label1 = label2 ∨ IsAncestor label1 label2 ∨ IsAncestor label2 label1

instance (label1 label2 : Str) : Decidable (Overlap label1 label2) := by
  unfold Overlap
  infer_instance

theorem overlap_comm {label1 label2 : Str} : Overlap label1 label2 ↔ Overlap label2 label1 := by
  simp only [Overlap, eq_comm (a := label1) (b := label2)]
  tauto

/-- The test stays in its bounds, says whether the rules overlap, and says it in either order. -/
def OverlapTested (labelRule1 labelRule2 : Str) : Prop :=
  checkLabelRuleOverlap labelRule1 labelRule2 = .ok (decide (Overlap (stripQuery labelRule1) (stripQuery labelRule2))) ∧
    checkLabelRuleOverlap labelRule2 labelRule1 = checkLabelRuleOverlap labelRule1 labelRule2

/-- Two names of the same length on the same path, with something below the second. -/
def SameLengthSiblings (label1 label2 : Str) : Prop :=
  ∃ path name1 name2 rest, label1 = path ++ slash :: name1 ∧ label2 = path ++ slash :: (name2 ++ slash :: rest) ∧
    slash ∉ name1 ∧ slash ∉ name2 ∧ name1.length = name2.length ∧ name1 ≠ name2

/-- The path of a label is no longer than a name, and another string. -/
def PathDiffers (name label : Str) : Prop :=
  ∃ path last, label = path ++ slash :: last ∧ slash ∉ last ∧ path.length ≤ name.length ∧ path ≠ name

/-- The pairs of labels that are tested correctly. -/
def Testable (label1 label2 : Str) : Prop :=
  label1 = [] ∨ label2 = [] ∨ label1 = label2 ∨
    (slash ∈ label1 ∧ slash ∈ label2 ∧ ¬SameLengthSiblings label1 label2 ∧ ¬SameLengthSiblings label2 label1) ∨
    (slash ∉ label1 ∧ PathDiffers label1 label2) ∨ (slash ∉ label2 ∧ PathDiffers label2 label1)

theorem testable_comm {label1 label2 : Str} : Testable label1 label2 ↔ Testable label2 label1 := by
  simp only [Testable, eq_comm (a := label1) (b := label2)]
  tauto

theorem find_eq_some {s : Str} {c : UInt8} {pos : ℕ} :
    s.find c = some pos ↔ ∃ front rest, s = front ++ c :: rest ∧ front.length = pos ∧ c ∉ front := by
  constructor
  · intro h
    obtain ⟨hLt, hAt, hBefore⟩ := List.findIdx?_eq_some_iff_getElem.mp h
    have hAt : s[pos] = c := by simpa using hAt
    refine ⟨s.take pos, s.drop (pos + 1), ?_, by simp; omega, ?_⟩
    · rw [← hAt, ← List.drop_eq_getElem_cons hLt, List.take_append_drop]
    · intro hMem
      obtain ⟨i, hi, hc⟩ := List.mem_iff_getElem.mp hMem
      rw [List.length_take] at hi
      rw [List.getElem_take] at hc
      have hNot := hBefore i (by omega)
      simp [hc] at hNot
  · rintro ⟨front, rest, rfl, rfl, hFront⟩
    exact find_append_cons hFront rest

section

variable {labelRule1 labelRule2 : Str}

/-- What the test does behind its first cases, on labels without queries. -/
def compareAtSlash (label1 label2 : Str) : Outcome Bool :=
  match minPos (label1.findLast slash) (label2.findLast slash) with
  | none => throw (.undefined .index)
  | some minLastSlash => do
      if (← charAt label1 minLastSlash) ≠ slash then return false
      if (← charAt label2 minLastSlash) ≠ slash then return false
      if label1.take minLastSlash ≠ label2.take minLastSlash then return false
      return extensionsOverlap (label1.drop (minLastSlash + 1)) (label2.drop (minLastSlash + 1))

theorem checkLabelRuleOverlap_eq : checkLabelRuleOverlap labelRule1 labelRule2 =
    let label1 := stripQuery labelRule1
    let label2 := stripQuery labelRule2
    if label1 = [] ∨ label2 = [] ∨ label1 = label2 then .ok true else compareAtSlash label1 label2 := by
  rw [checkLabelRuleOverlap]
  dsimp only
  split_ifs with hEmpty hEqual hAny hAny hAny
  all_goals first | rfl | tauto

end

theorem minPos_comm (p q : Option ℕ) : minPos p q = minPos q p := by
  cases p <;> cases q <;> simp [minPos, Nat.min_comm]

theorem extensionsOverlap_comm (extension1 extension2 : Str) :
    extensionsOverlap extension1 extension2 = extensionsOverlap extension2 extension1 := by
  cases h1 : extension1.find slash <;> cases h2 : extension2.find slash <;> simp [extensionsOverlap, h1, h2]

section Slashes

/-! The first label ends no later than the second one does. -/

variable {path name label : Str} (hName : slash ∉ name)

theorem charAt_of_lt {s : Str} {pos : ℕ} (h : pos < s.length) : charAt s pos = .ok s[pos] := by
  simp [charAt, h]

theorem drop_path : (path ++ slash :: name).drop (path.length + 1) = name := by
  simp [List.drop_append]

include hName

theorem findLast_path : Str.findLast (path ++ slash :: name) slash = some path.length :=
  Str.findLast_eq_some.mpr ⟨path, name, rfl, rfl, hName⟩

/-- A label that the name and a slash end in has a slash behind the path. -/
theorem not_isAncestor_path {last : ℕ} (hLast : label.findLast slash = some last) (hLe : path.length ≤ last) :
    ¬IsAncestor label (path ++ slash :: name) := by
  intro h
  obtain ⟨rest, hRest⟩ := h
  obtain ⟨front, back, rfl, rfl, -⟩ := Str.findLast_eq_some.mp hLast
  have hFound : Str.findLast (path ++ slash :: name) slash = some path.length := findLast_path hName
  rw [← hRest, List.append_assoc, List.append_assoc] at hFound
  have hShape : Str.findLast (front ++ slash :: back ++ slash :: rest) slash = some path.length := by
    simpa using hFound
  have hLate := Str.le_findLast hShape
  simp at hLate
  omega

theorem extensionsOverlap_iff {extension : Str} : extensionsOverlap name extension = true ↔
    ∃ other rest, extension = other ++ slash :: rest ∧ slash ∉ other ∧ name.length = other.length := by
  have hNone : name.find slash = none := find_eq_none.mpr hName
  cases hFind : extension.find slash with
  | none =>
      have hNot : slash ∉ extension := find_eq_none.mp hFind
      simp only [extensionsOverlap, hNone, hFind, Bool.false_eq_true, false_iff]
      rintro ⟨other, rest, rfl, -, -⟩
      simp at hNot
  | some pos =>
      obtain ⟨front, rest, rfl, rfl, hFront⟩ := find_eq_some.mp hFind
      simp only [extensionsOverlap, hNone, hFind, beq_iff_eq]
      constructor
      · intro hLength
        exact ⟨front, rest, rfl, hFront, hLength.symm⟩
      · rintro ⟨other, more, hEq, hOther, hLength⟩
        rw [hEq, find_append_cons hOther, Option.some.injEq] at hFind
        omega

/-- Two labels with slashes are compared behind the last slash of the first, and only by the length of
its name. -/
theorem compareAtSlash_path {last : ℕ} (hLast : label.findLast slash = some last) (hLe : path.length ≤ last) :
    ∃ b, compareAtSlash (path ++ slash :: name) label = .ok b ∧ compareAtSlash label (path ++ slash :: name) = .ok b ∧
      (b = true ↔ ∃ other rest, label = path ++ slash :: (other ++ slash :: rest) ∧ slash ∉ other ∧
        name.length = other.length) := by
  have hMin : minPos (Str.findLast (path ++ slash :: name) slash) (label.findLast slash) = some path.length := by
    rw [findLast_path hName, hLast, minPos, Nat.min_eq_left hLe]
  have hMin' := (minPos_comm _ _).trans hMin
  have hAt := charAt_append_cons path slash name
  by_cases hSplit : ∃ extension, label = path ++ slash :: extension
  · obtain ⟨extension, rfl⟩ := hSplit
    have hAt' := charAt_append_cons path slash extension
    refine ⟨extensionsOverlap name extension, ?_, ?_, ?_⟩
    · simp [compareAtSlash, hMin, hAt, hAt', List.drop_append, List.drop_eq_nil_of_le]
    · simp [compareAtSlash, hMin', hAt, hAt', List.drop_append, List.drop_eq_nil_of_le,
        extensionsOverlap_comm extension name]
    · simpa using extensionsOverlap_iff hName
  · -- the labels differ at the slash or in front of it
    obtain ⟨front, back, hLabel, hLength, -⟩ := Str.findLast_eq_some.mp hLast
    have hInside : path.length < label.length := by
      rw [hLabel, List.length_append, List.length_cons]
      omega
    have hAt' := charAt_of_lt hInside
    have hNever : ¬∃ other rest, label = path ++ slash :: (other ++ slash :: rest) ∧ slash ∉ other ∧
        name.length = other.length := by
      rintro ⟨other, rest, hEq, -⟩
      exact hSplit ⟨_, hEq⟩
    have hTake : label[path.length] = slash → ¬label.take path.length = path := by
      intro hSlash hPath
      apply hSplit
      refine ⟨label.drop (path.length + 1), ?_⟩
      conv_lhs => rw [← List.take_append_drop path.length label, hPath, List.drop_eq_getElem_cons hInside, hSlash]
    refine ⟨false, ?_, ?_, by simpa using hNever⟩
    all_goals
      by_cases hSlash : label[path.length] = slash
      · simp [compareAtSlash, hMin, hMin', hAt, hAt', hSlash, hTake hSlash, Ne.symm (hTake hSlash)]
      · simp [compareAtSlash, hMin, hMin', hAt, hAt', hSlash]

end Slashes

/-- A name and a label with slashes are never found to overlap, in whichever order; the subscript is out
of bounds when the path of the label is longer than the name. -/
theorem compareAtSlash_name {name path last : Str} (hName : slash ∉ name) (hLast : slash ∉ last) :
    compareAtSlash name (path ++ slash :: last) =
        (if path.length ≤ name.length then .ok false else .error (.undefined .index)) ∧
      compareAtSlash (path ++ slash :: last) name = compareAtSlash name (path ++ slash :: last) := by
  have hNone : name.findLast slash = none := Str.findLast_eq_none.mpr hName
  have hMin : minPos (name.findLast slash) (Str.findLast (path ++ slash :: last) slash) = some path.length := by
    rw [hNone, findLast_path hLast, minPos]
  have hMin' := (minPos_comm _ _).trans hMin
  have hAt := charAt_append_cons path slash last
  have hAt' : charAt name path.length ≠ .ok slash := by
    intro hSlash
    unfold charAt at hSlash
    split_ifs at hSlash with hLess
    · rw [Except.ok.injEq, List.getD_eq_getElem?_getD, List.getElem?_eq_getElem hLess, Option.getD_some] at hSlash
      exact hName (hSlash ▸ List.getElem_mem hLess)
    · exact absurd hSlash (by decide)
  by_cases hLe : path.length ≤ name.length
  · have hSome : ∃ c, charAt name path.length = .ok c := by
      unfold charAt
      split_ifs
      · exact ⟨_, rfl⟩
      · exact ⟨_, rfl⟩
      · omega
    obtain ⟨c, hc⟩ := hSome
    have hNe : c ≠ slash := by
      rintro rfl
      exact hAt' hc
    simp [compareAtSlash, hMin, hMin', hAt, hc, hNe, hLe]
  · have hError : charAt name path.length = .error (.undefined .index) := by
      rw [charAt, if_neg (by omega), if_neg (by omega)]
      rfl
    simp [compareAtSlash, hMin, hMin', hAt, hError, hLe]

theorem compareAtSlash_names {name other : Str} (hName : slash ∉ name) (hOther : slash ∉ other) :
    compareAtSlash name other = .error (.undefined .index) := by
  rw [compareAtSlash, Str.findLast_eq_none.mpr hName, Str.findLast_eq_none.mpr hOther]
  rfl

/-- The test of two labels that are neither empty nor equal. -/
structure LabelsTested (label1 label2 : Str) : Prop where
  exact : compareAtSlash label1 label2 = .ok (decide (Overlap label1 label2))
  symm : compareAtSlash label2 label1 = compareAtSlash label1 label2

section Tested

variable {label1 label2 : Str} (h1 : label1 ≠ []) (h2 : label2 ≠ []) (hNe : label1 ≠ label2)

include h1 h2 hNe

theorem overlap_iff_isAncestor : Overlap label1 label2 ↔ IsAncestor label1 label2 ∨ IsAncestor label2 label1 := by
  simp [Overlap, h1, h2, hNe]

/-- With slashes in both labels the test errs exactly on names of one length. -/
theorem labelsTested_path {path name : Str} (hLabel : label1 = path ++ slash :: name) (hName : slash ∉ name) {last : ℕ}
    (hLast : label2.findLast slash = some last) (hLe : path.length ≤ last) :
    LabelsTested label1 label2 ↔ ¬SameLengthSiblings label1 label2 ∧ ¬SameLengthSiblings label2 label1 := by
  subst hLabel
  obtain ⟨b, hTest, hBack, hIff⟩ := compareAtSlash_path hName hLast hLe
  have hOverlap : Overlap (path ++ slash :: name) label2 ↔ IsAncestor (path ++ slash :: name) label2 := by
    rw [overlap_iff_isAncestor h1 h2 hNe, or_iff_left (not_isAncestor_path hName hLast hLe)]
  have hBackwards : ¬SameLengthSiblings label2 (path ++ slash :: name) := by
    rintro ⟨front, other, sibling, rest, rfl, hEq, hOther, -⟩
    have hEnd : Str.findLast (front ++ slash :: other) slash = some front.length := findLast_path hOther
    have hFound : Str.findLast (path ++ slash :: name) slash = some path.length := findLast_path hName
    have hShape : Str.findLast (front ++ slash :: sibling ++ slash :: rest) slash = some path.length := by
      rw [← hFound, hEq, List.append_assoc, List.cons_append]
    have hLate := Str.le_findLast hShape
    rw [hEnd, Option.some.injEq] at hLast
    simp at hLate
    omega
  constructor
  · intro hTested
    refine ⟨?_, hBackwards⟩
    rintro ⟨front, other, sibling, rest, hFront, hEq, hOther, hSibling, hLength, hDiffer⟩
    have hSplit := List.append_inj hFront (by
      have hFound : Str.findLast (path ++ slash :: name) slash = some path.length := findLast_path hName
      rw [hFront, findLast_path hOther, Option.some.injEq] at hFound
      exact hFound.symm)
    obtain ⟨rfl, hSame⟩ := hSplit
    obtain rfl := (List.cons_inj_right _).mp hSame
    have hTrue := hIff.mpr ⟨sibling, rest, hEq, hSibling, hLength⟩
    have hExact := hTested.exact
    rw [hTest, hTrue, Except.ok.injEq, eq_comm, decide_eq_true_eq, hOverlap] at hExact
    obtain ⟨more, hMore⟩ := hExact
    rw [hEq] at hMore
    simp only [List.append_assoc, List.cons_append, List.append_cancel_left_eq, List.cons.injEq, true_and,
      List.nil_append] at hMore
    exact hDiffer (List.append_inj hMore hLength).1
  · rintro ⟨hNot, -⟩
    refine ⟨?_, hBack.trans hTest.symm⟩
    rw [hTest, Except.ok.injEq, Bool.eq_iff_iff, decide_eq_true_eq, hIff, hOverlap]
    constructor
    · rintro ⟨other, rest, hEq, hOther, hLength⟩
      have hSame : name = other := by
        by_contra hDiffer
        exact hNot ⟨path, name, other, rest, rfl, hEq, hName, hOther, hLength, hDiffer⟩
      exact ⟨rest, by simp [hEq, hSame]⟩
    · rintro ⟨rest, hEq⟩
      exact ⟨name, rest, by simp [← hEq], hName, rfl⟩

/-- A name without a slash is tested correctly against labels that it is not the path of and does not
end in front of. -/
theorem labelsTested_name (hName : slash ∉ label1) (hSlash : slash ∈ label2) :
    LabelsTested label1 label2 ↔ PathDiffers label1 label2 := by
  have hSome : label2.findLast slash ≠ none := fun hNone => Str.findLast_eq_none.mp hNone hSlash
  obtain ⟨pos, hPos⟩ := Option.ne_none_iff_exists'.mp hSome
  obtain ⟨path, last, rfl, rfl, hLast⟩ := Str.findLast_eq_some.mp hPos
  obtain ⟨hTest, hBack⟩ : compareAtSlash label1 (path ++ slash :: last) = _ ∧
      compareAtSlash (path ++ slash :: last) label1 = _ := compareAtSlash_name hName hLast
  have hOverlap : Overlap label1 (path ++ slash :: last) ↔ IsAncestor label1 (path ++ slash :: last) := by
    rw [overlap_iff_isAncestor h1 h2 hNe, or_iff_left]
    intro hAncestor
    exact hName (hAncestor.subset (by simp))
  have hPath : path.length ≤ label1.length →
      (IsAncestor label1 (path ++ slash :: last) ↔ path = label1) := by
    intro hLe
    constructor
    · rintro ⟨rest, hEq⟩
      have hShape : Str.findLast (label1 ++ slash :: rest) slash = some path.length := by
        rw [← hPos, ← hEq, List.append_assoc, List.singleton_append]
      have hLate := Str.le_findLast hShape
      rw [List.append_assoc, List.singleton_append] at hEq
      exact (List.append_inj hEq (by omega)).1.symm
    · rintro rfl
      exact ⟨last, by simp⟩
  have hDiffers : PathDiffers label1 (path ++ slash :: last) ↔ path.length ≤ label1.length ∧ path ≠ label1 := by
    constructor
    · rintro ⟨front, back, hEq, hBack, hLe, hDiffer⟩
      rw [hEq, findLast_path hBack, Option.some.injEq] at hPos
      obtain ⟨rfl, -⟩ := List.append_inj hEq hPos.symm
      exact ⟨hLe, hDiffer⟩
    · rintro ⟨hLe, hDiffer⟩
      exact ⟨path, last, rfl, hLast, hLe, hDiffer⟩
  rw [hDiffers]
  constructor
  · rintro ⟨hExact, -⟩
    by_cases hLe : path.length ≤ label1.length
    · refine ⟨hLe, fun hSame => ?_⟩
      rw [hTest, if_pos hLe, Except.ok.injEq, eq_comm, decide_eq_false_iff_not, hOverlap, hPath hLe] at hExact
      exact hExact hSame
    · rw [hTest, if_neg hLe] at hExact
      cases hExact
  · rintro ⟨hLe, hDiffer⟩
    refine ⟨?_, hBack⟩
    rw [hTest, if_pos hLe, Except.ok.injEq, eq_comm, decide_eq_false_iff_not, hOverlap, hPath hLe]
    exact hDiffer

end Tested

theorem labelsTested_comm {label1 label2 : Str} : LabelsTested label1 label2 ↔ LabelsTested label2 label1 := by
  have hOne {label1 label2 : Str} (h : LabelsTested label1 label2) : LabelsTested label2 label1 := by
    refine ⟨?_, h.symm.symm⟩
    rw [h.symm, h.exact, Except.ok.injEq]
    exact decide_eq_decide.mpr overlap_comm
  exact ⟨hOne, hOne⟩

theorem labelsTested_iff {label1 label2 : Str} (h1 : label1 ≠ []) (h2 : label2 ≠ []) (hNe : label1 ≠ label2) :
    LabelsTested label1 label2 ↔ Testable label1 label2 := by
  rw [Testable, or_iff_right h1, or_iff_right h2, or_iff_right hNe]
  by_cases hSlash1 : slash ∈ label1 <;> by_cases hSlash2 : slash ∈ label2
  · simp only [hSlash1, hSlash2, true_and, not_true, false_and, or_false]
    obtain ⟨last1, hLast1⟩ := Option.ne_none_iff_exists'.mp fun hNone => Str.findLast_eq_none.mp hNone hSlash1
    obtain ⟨last2, hLast2⟩ := Option.ne_none_iff_exists'.mp fun hNone => Str.findLast_eq_none.mp hNone hSlash2
    rcases Nat.le_total last1 last2 with hLe | hLe
    · obtain ⟨path, name, hLabel, rfl, hName⟩ := Str.findLast_eq_some.mp hLast1
      exact labelsTested_path h1 h2 hNe hLabel hName hLast2 hLe
    · obtain ⟨path, name, hLabel, rfl, hName⟩ := Str.findLast_eq_some.mp hLast2
      rw [labelsTested_comm, labelsTested_path h2 h1 hNe.symm hLabel hName hLast1 hLe, and_comm]
  · simp only [hSlash1, hSlash2, not_true, not_false_eq_true, true_and, false_and, and_false, false_or]
    rw [labelsTested_comm]
    exact labelsTested_name h2 h1 hNe.symm hSlash2 hSlash1
  · simp only [hSlash1, hSlash2, not_true, not_false_eq_true, true_and, false_and, false_or, or_false]
    exact labelsTested_name h1 h2 hNe hSlash1 hSlash2
  · -- without any slash the subscript is `npos`
    simp only [hSlash1, hSlash2, not_false_eq_true, true_and, false_and, false_or]
    constructor
    · rintro ⟨hExact, -⟩
      rw [compareAtSlash_names hSlash1 hSlash2] at hExact
      cases hExact
    · rintro (⟨path, last, rfl, -⟩ | ⟨path, last, rfl, -⟩)
      · simp at hSlash2
      · simp at hSlash1

/-- The test of two rules is right exactly when their labels, without the queries, are testable. -/
theorem overlapTested_iff (labelRule1 labelRule2 : Str) :
    OverlapTested labelRule1 labelRule2 ↔ Testable (stripQuery labelRule1) (stripQuery labelRule2) := by
  have hTrivial {label1 label2 : Str} (h : label1 = [] ∨ label2 = [] ∨ label1 = label2) :
      Overlap label1 label2 ∧ Testable label1 label2 ∧ (label2 = [] ∨ label1 = [] ∨ label2 = label1) := by
    refine ⟨?_, ?_, ?_⟩
    · rw [Overlap]
      tauto
    · rw [Testable]
      tauto
    · rcases h with h | h | h <;> simp [h]
  rw [OverlapTested, checkLabelRuleOverlap_eq, checkLabelRuleOverlap_eq]
  dsimp only
  by_cases hAny : stripQuery labelRule1 = [] ∨ stripQuery labelRule2 = [] ∨ stripQuery labelRule1 = stripQuery labelRule2
  · obtain ⟨hOverlap, hTestable, hAny'⟩ := hTrivial hAny
    simp [if_pos hAny, if_pos hAny', hOverlap, hTestable]
  · have hAny' : ¬(stripQuery labelRule2 = [] ∨ stripQuery labelRule1 = [] ∨ stripQuery labelRule2 = stripQuery labelRule1) :=
      fun h => hAny (hTrivial h).2.2
    rw [if_neg hAny, if_neg hAny']
    simp only [not_or] at hAny
    rw [← labelsTested_iff hAny.1 hAny.2.1 hAny.2.2]
    exact ⟨fun h => ⟨h.1, h.2⟩, fun h => ⟨h.exact, h.symm⟩⟩

/-- `A` and `A/B` are not found to overlap. -/
theorem not_overlapTested_child : ¬∀ labelRule1 labelRule2, OverlapTested labelRule1 labelRule2 := by
  intro hTested
  have hExact := (hTested (str "A") (str "A/B")).1
  have hOverlap : Overlap (stripQuery (str "A")) (stripQuery (str "A/B")) := by decide
  have hFalse : checkLabelRuleOverlap (str "A") (str "A/B") = .ok false := by rfl
  rw [hFalse, decide_eq_true hOverlap] at hExact
  cases hExact

end Wwatp
