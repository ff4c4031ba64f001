import Wwatp.Cxx.Outcome

/-! Label rules: paths of names separated by `/`, optionally followed by a query
after `?`, and the two tests that compare them. -/
namespace Wwatp

open Cxx

/-- `/` separates the names of a label rule. -/
def slash : UInt8 := chr '/'

/-- The label rule up to its first `?`. -/
def stripQuery (labelRule : Str) : Str :=
  match labelRule.find (chr '?') with
  | none => labelRule
  | some queryPos => labelRule.take queryPos

/-- `std::min` of two positions, where `none` is `npos`, the largest of all. -/
def minPos : Option Nat → Option Nat → Option Nat
  | none, q => q
  | some p, none => some p
  | some p, some q => some (min p q)

/-- `s[pos]`: the terminating null at the end, undefined past it. -/
def charAt (s : Str) (pos : Nat) : Outcome UInt8 :=
  if pos < s.length then .ok (s.getD pos 0)
  else if pos = s.length then .ok 0
  else throw (.undefined .index)

/-- The end of `checkLabelRuleOverlap`: the extensions past the last common slash. -/
def extensionsOverlap (extension1 extension2 : Str) : Bool :=
  match extension1.find slash, extension2.find slash with
  | none, none => false
  | none, some slashPos2 => slashPos2 == extension1.length
  | some slashPos1, none => slashPos1 == extension2.length
  | some _, some _ => false

/-- `checkLabelRuleOverlap`. Without a slash in either rule the subscript is `npos`. -/
def checkLabelRuleOverlap (labelRule1 labelRule2 : Str) : Outcome Bool :=
  let label1 := stripQuery labelRule1
  let label2 := stripQuery labelRule2
  if label1 = [] ∨ label2 = [] then .ok true
  else if label1 = label2 then .ok true
  else match minPos (label1.findLast slash) (label2.findLast slash) with
    | none => throw (.undefined .index)
    | some minLastSlash => do
        if (← charAt label1 minLastSlash) ≠ slash then return false
        if (← charAt label2 minLastSlash) ≠ slash then return false
        if label1.take minLastSlash ≠ label2.take minLastSlash then return false
        return extensionsOverlap (label1.drop (minLastSlash + 1)) (label2.drop (minLastSlash + 1))

/-- `partialLabelRuleMatch`: the rule is a string prefix of the label. -/
def partialLabelRuleMatch (labelRule notificationRule : Str) : Bool :=
  let stripped := stripQuery labelRule
  if stripped = notificationRule then true
  else if stripped.length < notificationRule.length then false
  else notificationRule.isPrefixOf stripped

theorem charAt_error {s : Str} {pos : Nat} {e : Fault} (h : charAt s pos = .error e) :
    e = .undefined .index := by
  unfold charAt at h
  split_ifs at h
  exact (Except.error.inj h).symm

/-- The overlap test never throws; it can only index past the end of a label. -/
theorem checkLabelRuleOverlap_error {labelRule1 labelRule2 : Str} {e : Fault}
    (h : checkLabelRuleOverlap labelRule1 labelRule2 = .error e) : e = .undefined .index := by
  unfold checkLabelRuleOverlap at h
  dsimp only at h
  split_ifs at h
  split at h
  · exact (Except.error.inj h).symm
  · rcases Outcome.bind_eq_error.mp h with hFirst | ⟨c, -, h⟩
    · exact charAt_error hFirst
    · split at h
      · cases h
      · rcases Outcome.bind_eq_error.mp h with hSecond | ⟨d, -, h⟩
        · exact charAt_error hSecond
        · split at h
          · cases h
          · split at h <;> cases h

/-- A label without a query. -/
def NoQuery (label : Str) : Prop := chr '?' ∉ label

theorem find_eq_none {s : Str} {c : UInt8} : s.find c = none ↔ c ∉ s := by
  simp only [Str.find, List.findIdx?_eq_none_iff, beq_eq_false_iff_ne, ne_eq]
  exact ⟨fun h hMem => h c hMem rfl, fun h x hMem hx => h (hx ▸ hMem)⟩

/-- The first `c` sits right behind a front that has none. -/
theorem find_append_cons {front : Str} {c : UInt8} (h : c ∉ front) (rest : Str) :
    Str.find (front ++ c :: rest) c = some front.length := by
  have hFront : List.findIdx? (· == c) front = none := find_eq_none.mpr h
  simp [Str.find, List.findIdx?_append, hFront, List.findIdx?_cons]

theorem stripQuery_of_noQuery {label : Str} (h : NoQuery label) : stripQuery label = label := by
  rw [stripQuery, find_eq_none.mpr h]

theorem NoQuery.of_isPrefix {rule label : Str} (h : NoQuery label) (hPrefix : rule <+: label) :
    NoQuery rule :=
  fun hMem => h (hPrefix.subset hMem)

theorem partialLabelRuleMatch_iff {label rule : Str} (h : NoQuery label) :
    partialLabelRuleMatch label rule = true ↔ rule <+: label := by
  rw [partialLabelRuleMatch, stripQuery_of_noQuery h]
  by_cases hEq : label = rule
  · simp [hEq]
  · by_cases hLong : label.length < rule.length
    · simp only [hEq, hLong, ↓reduceIte, Bool.false_eq_true, false_iff]
      exact fun hPrefix => absurd hPrefix.length_le (by omega)
    · simp [hEq, hLong]

/-- The rule's own subtree: `rule` followed by a slash starts the label. -/
def IsAncestor (rule label : Str) : Prop := rule ++ [slash] <+: label

instance (rule label : Str) : Decidable (IsAncestor rule label) :=
  inferInstanceAs (Decidable (_ <+: _))

theorem IsAncestor.isPrefix {rule label : Str} (h : IsAncestor rule label) : rule <+: label :=
  (List.prefix_append rule [slash]).trans h

section ProperPrefix

/-! The test for a rule that is a proper, non-empty prefix of a label. -/

variable {rule rest : Str} (hRule : rule ≠ []) (hRest : rest ≠ []) (hQuery : NoQuery (rule ++ rest))

theorem extensionsOverlap_name {name : Str} (hName : slash ∉ name) (rest : Str) :
    extensionsOverlap (name ++ rest) name = true ↔ IsAncestor name (name ++ rest) := by
  have hNone : name.find slash = none := find_eq_none.mpr hName
  simp only [extensionsOverlap, hNone, IsAncestor, List.prefix_append_right_inj]
  cases rest with
  | nil => simp [find_eq_none.mpr hName]
  | cons c rest =>
      by_cases hc : c = slash
      · subst hc
        simp [find_append_cons hName]
      · simp only [List.cons_prefix_cons, Ne.symm hc, false_and, iff_false, Bool.not_eq_true]
        cases hFind : Str.find (name ++ c :: rest) slash with
        | none => rfl
        | some pos =>
            simp only [beq_eq_false_iff_ne, ne_eq]
            rintro rfl
            have hAt := (List.findIdx?_eq_some_iff_getElem.mp hFind).2.1
            simp [hc] at hAt

theorem charAt_append_cons (before : Str) (c : UInt8) (after : Str) :
    charAt (before ++ c :: after) before.length = .ok c := by
  simp [charAt]

include hRule hRest hQuery

theorem checkLabelRuleOverlap_unquoted :
    checkLabelRuleOverlap (rule ++ rest) rule =
      match minPos (Str.findLast (rule ++ rest) slash) (rule.findLast slash) with
      | none => throw (.undefined .index)
      | some minLastSlash => do
          if (← charAt (rule ++ rest) minLastSlash) ≠ slash then return false
          if (← charAt rule minLastSlash) ≠ slash then return false
          if (rule ++ rest).take minLastSlash ≠ rule.take minLastSlash then return false
          return extensionsOverlap ((rule ++ rest).drop (minLastSlash + 1))
            (rule.drop (minLastSlash + 1)) := by
  have hNoQuery : NoQuery rule := hQuery.of_isPrefix (List.prefix_append rule rest)
  rw [checkLabelRuleOverlap, stripQuery_of_noQuery hQuery, stripQuery_of_noQuery hNoQuery]
  simp [hRule, hRest]

/-- A rule with a slash in it is tested correctly. -/
theorem checkLabelRuleOverlap_of_slash (hSlash : slash ∈ rule) :
    checkLabelRuleOverlap (rule ++ rest) rule = .ok (decide (IsAncestor rule (rule ++ rest))) := by
  have hFound : rule.findLast slash ≠ none := fun hNone => Str.findLast_eq_none.mp hNone hSlash
  obtain ⟨pos, hPos⟩ := Option.ne_none_iff_exists'.mp hFound
  obtain ⟨path, name, rfl, rfl, hName⟩ := Str.findLast_eq_some.mp hPos
  have hLabel : Str.findLast (path ++ slash :: name ++ rest) slash ≠ none :=
    fun hNone => Str.findLast_eq_none.mp hNone (by simp)
  obtain ⟨last, hLast⟩ := Option.ne_none_iff_exists'.mp hLabel
  have hLe : path.length ≤ last := by
    rw [List.append_assoc, List.cons_append] at hLast
    exact Str.le_findLast hLast
  have hAncestor : extensionsOverlap (name ++ rest) name
      = decide (IsAncestor (path ++ slash :: name) (path ++ slash :: name ++ rest)) := by
    rw [Bool.eq_iff_iff, extensionsOverlap_name hName, decide_eq_true_eq]
    simp only [IsAncestor, List.append_assoc, List.cons_append, List.prefix_append_right_inj,
      List.prefix_cons_inj]
  rw [checkLabelRuleOverlap_unquoted hRule hRest hQuery, hLast, hPos, minPos, Nat.min_eq_right hLe,
    ← hAncestor]
  simp [charAt_append_cons, List.drop_append, List.drop_eq_nil_of_le]

/-- A rule without a slash is never found to overlap: the test says no or
indexes past the end of the rule. -/
theorem checkLabelRuleOverlap_of_no_slash (hSlash : slash ∉ rule) :
    (checkLabelRuleOverlap (rule ++ rest) rule = .ok false ∧ IsAncestor rule (rule ++ rest)) ∨
      checkLabelRuleOverlap (rule ++ rest) rule = .error (.undefined .index) := by
  have hNone : rule.findLast slash = none := Str.findLast_eq_none.mpr hSlash
  rw [checkLabelRuleOverlap_unquoted hRule hRest hQuery, hNone]
  cases hLast : Str.findLast (rule ++ rest) slash with
  | none => exact .inr rfl
  | some last =>
      obtain ⟨path, name, hEq, rfl, -⟩ := Str.findLast_eq_some.mp hLast
      have hLabelAt : charAt (rule ++ rest) path.length = .ok slash := by
        rw [hEq, charAt_append_cons]
      simp only [minPos, hLabelAt, Outcome.ok_bind, ne_eq, not_true, ↓reduceIte]
      by_cases hEnd : path.length = rule.length
      · left
        obtain ⟨rfl, rfl⟩ := List.append_inj hEq hEnd.symm
        have hRuleAt : charAt rule rule.length = .ok 0 := by simp [charAt]
        have hNul : (0 : UInt8) ≠ slash := by decide
        exact ⟨by simp [hRuleAt, hNul], by simp [IsAncestor]⟩
      · right
        have hPast : rule.length < path.length := by
          by_contra hLt
          have hMem : slash ∈ rule := by
            have hAt := congrArg (fun s : Str => s[path.length]?) hEq
            simp only [List.getElem?_append_right (Nat.le_refl _), Nat.sub_self,
              List.getElem?_cons_zero] at hAt
            rw [List.getElem?_append_left (by omega)] at hAt
            exact List.mem_of_getElem? hAt
          exact hSlash hMem
        have hRuleAt : charAt rule path.length = .error (.undefined .index) := by
          simp [charAt, Nat.not_lt.mpr (Nat.le_of_lt hPast), Nat.ne_of_gt hPast]
        simp [hRuleAt]

end ProperPrefix
end Wwatp
