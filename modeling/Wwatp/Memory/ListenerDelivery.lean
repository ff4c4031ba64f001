import Wwatp.Memory.Listeners

/-! Which listeners `notifyListeners` reaches. The walk ends at the first rule
that is not a string prefix of the label, and the overlap test is wrong for rules
without a slash; outside these two cases exactly the due listeners are called. -/
namespace Wwatp
namespace ListenerTable

open Cxx

variable {Callback : Type}

/-- A listener registered under `rule` is to be told about a change of `label`. -/
def Due (label rule : Str) (listener : ListenerInfo Callback) : Prop :=
  rule = label ∨ (listener.childNotify = true ∧ (rule = [] ∨ IsAncestor rule label))

instance (label rule : Str) (listener : ListenerInfo Callback) : Decidable (Due label rule listener) :=
  inferInstanceAs (Decidable (_ ∨ _))

/-- Every registration: a rule and a listener under it. -/
def registrations (t : ListenerTable Callback) : List (Str × ListenerInfo Callback) :=
  t.rules.toList.flatMap fun entry => entry.2.map fun listener => (entry.1, listener)

/-- The registrations due for a label. -/
def dueRegistrations (t : ListenerTable Callback) (label : Str) : List (Str × ListenerInfo Callback) :=
  t.registrations.filter fun reg => Due label reg.1 reg.2

/-- Every due listener is called exactly once, and no other. -/
def NotifiesExactly (t : ListenerTable Callback) (label : Str) : Prop :=
  ∃ calls, t.notifyListeners label = .ok calls ∧ calls.Perm (t.dueRegistrations label)

/-- Every rule in the table that sorts from `rule` up to the label is a string
prefix of the label. -/
def Reached (t : ListenerTable Callback) (label rule : Str) : Prop :=
  ∀ other ∈ t.rules, (compare rule other).isLE → (compare other label).isLE → other <+: label

/-- A rule the overlap test gets wrong: non-empty, without a slash, and a proper
prefix of the label. -/
def SlashFreePrefix (rule label : Str) : Prop :=
  rule ≠ [] ∧ rule ≠ label ∧ rule <+: label ∧ slash ∉ rule

/-- Every due rule is reached, and no reached rule that asks for children is a
slash-free prefix of the label. -/
def WalkCovers (t : ListenerTable Callback) (label : Str) : Prop :=
  ∀ reg ∈ t.registrations,
    (Due label reg.1 reg.2 → t.Reached label reg.1) ∧
    (reg.2.childNotify = true → SlashFreePrefix reg.1 label → ¬ t.Reached label reg.1)

theorem mem_registrations {t : ListenerTable Callback} {reg : Str × ListenerInfo Callback} :
    reg ∈ t.registrations ↔ ∃ listeners, t.rules[reg.1]? = some listeners ∧ reg.2 ∈ listeners := by
  simp only [registrations, List.mem_flatMap, List.mem_map, Prod.exists]
  constructor
  · rintro ⟨rule, listeners, hEntry, listener, hListener, rfl⟩
    exact ⟨listeners, Std.ExtTreeMap.mem_toList_iff_getElem?_eq_some.mp hEntry, hListener⟩
  · rintro ⟨listeners, hEntry, hListener⟩
    exact ⟨reg.1, listeners, Std.ExtTreeMap.mem_toList_iff_getElem?_eq_some.mpr hEntry,
      reg.2, hListener, rfl⟩

theorem Due.isPrefix {label rule : Str} {listener : ListenerInfo Callback}
    (h : Due label rule listener) : rule <+: label := by
  rcases h with rfl | ⟨-, rfl | hAncestor⟩
  · exact List.prefix_rfl
  · exact List.nil_prefix
  · exact hAncestor.isPrefix

section OneListener

/-! The test of one listener under a rule that is a prefix of the label. -/

variable {label rule : Str} (hQuery : NoQuery label) (hPrefix : rule <+: label)
  (listener : ListenerInfo Callback)

include hQuery hPrefix

theorem shouldNotify_of_not_slashFree
    (hRule : listener.childNotify = true → ¬ SlashFreePrefix rule label) :
    shouldNotify label rule listener = .ok (decide (Due label rule listener)) := by
  by_cases hEq : rule = label
  · simp [shouldNotify, Due, hEq]
  by_cases hChild : listener.childNotify = true
  · have hTest : shouldNotify label rule listener = checkLabelRuleOverlap label rule := by
      simp [shouldNotify, hEq, hChild]
    rw [hTest]
    by_cases hNil : rule = []
    · simp [Due, hNil, hChild, checkLabelRuleOverlap, stripQuery, Str.find]
    · have hSlash : slash ∈ rule := by
        by_contra hNot
        exact hRule hChild ⟨hNil, hEq, hPrefix, hNot⟩
      obtain ⟨rest, rfl⟩ := hPrefix
      have hRest : rest ≠ [] := fun h => hEq (by simp [h])
      rw [checkLabelRuleOverlap_of_slash hNil hRest hQuery hSlash]
      simp [Due, hChild, hNil, hRest]
  · simp [shouldNotify, Due, hEq, hChild]

/-- Under a slash-free prefix a listener that asks for children is not called
although it is due, or the test runs past the end of the rule. -/
theorem shouldNotify_of_slashFree (hChild : listener.childNotify = true)
    (hRule : SlashFreePrefix rule label) {called : Bool}
    (hOk : shouldNotify label rule listener = .ok called) :
    called = false ∧ Due label rule listener := by
  obtain ⟨hNil, hEq, -, hSlash⟩ := hRule
  obtain ⟨rest, rfl⟩ := hPrefix
  have hRest : rest ≠ [] := fun h => hEq (by simp [h])
  simp only [shouldNotify, hEq, ↓reduceIte, hChild] at hOk
  rcases checkLabelRuleOverlap_of_no_slash hNil hRest hQuery hSlash with ⟨hFalse, hAncestor⟩ | hError
  · rw [hFalse, Except.ok.injEq] at hOk
    exact ⟨hOk.symm, .inr ⟨hChild, .inr hAncestor⟩⟩
  · rw [hError] at hOk
    cases hOk

end OneListener

section Loops

variable {label : Str}

theorem notifyRule_eq_filter {rule : Str} {listeners : List (ListenerInfo Callback)}
    (h : ∀ l ∈ listeners, shouldNotify label rule l = .ok (decide (Due label rule l))) :
    notifyRule label rule listeners = .ok (listeners.filter fun l => Due label rule l) := by
  induction listeners with
  | nil => rfl
  | cons l rest ih =>
      simp only [List.forall_mem_cons] at h
      rw [notifyRule, h.1, ih h.2]
      by_cases hDue : Due label rule l <;> simp [hDue]

/-- When the inner loop returns, every test returned, and those called passed it. -/
theorem notifyRule_ok {rule : Str} {listeners called : List (ListenerInfo Callback)}
    (h : notifyRule label rule listeners = .ok called) :
    (∀ l ∈ listeners, ∃ b, shouldNotify label rule l = .ok b) ∧
      ∀ l ∈ called, l ∈ listeners ∧ shouldNotify label rule l = .ok true := by
  induction listeners generalizing called with
  | nil =>
      cases h
      simp
  | cons l rest ih =>
      simp only [notifyRule, Outcome.bind_eq_ok, Outcome.pure_eq_ok, Except.ok.injEq] at h
      obtain ⟨b, hTest, more, hMore, rfl⟩ := h
      obtain ⟨hAll, hCalled⟩ := ih hMore
      refine ⟨List.forall_mem_cons.mpr ⟨⟨b, hTest⟩, hAll⟩, fun x hx => ?_⟩
      cases b with
      | false => exact ⟨by simp [(hCalled x hx).1], (hCalled x hx).2⟩
      | true =>
          rcases List.mem_cons.mp hx with rfl | hx
          · exact ⟨by simp, hTest⟩
          · exact ⟨by simp [(hCalled x hx).1], (hCalled x hx).2⟩

/-- The entries the outer loop visits. -/
def visited (label : Str) (walk : List (Str × List (ListenerInfo Callback))) :
    List (Str × List (ListenerInfo Callback)) :=
  walk.takeWhile fun entry => partialLabelRuleMatch label entry.1

theorem notifyWalk_eq_flatMap {walk : List (Str × List (ListenerInfo Callback))}
    {calls : Str × List (ListenerInfo Callback) → List (ListenerInfo Callback)}
    (h : ∀ entry ∈ visited label walk, notifyRule label entry.1 entry.2 = .ok (calls entry)) :
    notifyWalk label walk =
      .ok ((visited label walk).flatMap fun entry => (calls entry).map fun l => (entry.1, l)) := by
  induction walk with
  | nil => rfl
  | cons entry before ih =>
      by_cases hMatch : partialLabelRuleMatch label entry.1
      · simp only [visited, List.takeWhile_cons, hMatch, ↓reduceIte, List.forall_mem_cons] at h ⊢
        simp only [notifyWalk, hMatch, ↓reduceIte, h.1, Outcome.ok_bind]
        rw [ih h.2]
        rfl
      · simp [visited, notifyWalk, hMatch]

/-- When the outer loop returns, the inner loop returned at every visited entry,
and every call was made at one of them. -/
theorem notifyWalk_ok {walk : List (Str × List (ListenerInfo Callback))}
    {calls : List (Str × ListenerInfo Callback)} (h : notifyWalk label walk = .ok calls) :
    ∃ called : Str × List (ListenerInfo Callback) → List (ListenerInfo Callback),
      (∀ entry ∈ visited label walk, notifyRule label entry.1 entry.2 = .ok (called entry)) ∧
        ∀ call ∈ calls, ∃ entry ∈ visited label walk, call.1 = entry.1 ∧ call.2 ∈ called entry := by
  have hEach : ∀ entry ∈ visited label walk, ∃ called, notifyRule label entry.1 entry.2 = .ok called := by
    induction walk generalizing calls with
    | nil => simp [visited]
    | cons entry before ih =>
        by_cases hMatch : partialLabelRuleMatch label entry.1
        · simp only [notifyWalk, hMatch, ↓reduceIte, Outcome.bind_eq_ok] at h
          obtain ⟨called, hCalled, more, hMore, -⟩ := h
          simp only [visited, List.takeWhile_cons, hMatch, ↓reduceIte, List.forall_mem_cons]
          exact ⟨⟨called, hCalled⟩, ih hMore⟩
        · simp [visited, hMatch]
  choose! called hCalled using hEach
  refine ⟨called, hCalled, fun call hCall => ?_⟩
  rw [notifyWalk_eq_flatMap hCalled, Except.ok.injEq] at h
  rw [← h, List.mem_flatMap] at hCall
  obtain ⟨entry, hEntry, hMem⟩ := hCall
  obtain ⟨l, hl, rfl⟩ := List.mem_map.mp hMem
  exact ⟨entry, hEntry, rfl, hl⟩

end Loops

section Walk

variable {t : ListenerTable Callback} {label : Str} (hQuery : NoQuery label)

include hQuery

theorem mem_visited_iff {entry : Str × List (ListenerInfo Callback)} :
    entry ∈ visited label (entriesUpTo t.rules label) ↔
      t.rules[entry.1]? = some entry.2 ∧ (compare entry.1 label).isLE ∧ t.Reached label entry.1 := by
  rw [visited, mem_takeWhile_entriesUpTo]
  refine and_congr_right fun _ => and_congr_right fun _ => ?_
  simp only [partialLabelRuleMatch_iff hQuery, Reached, Prod.forall]
  constructor
  · intro hAll other hOther hAfter hBound
    obtain ⟨listeners, hListeners⟩ := Option.isSome_iff_exists.mp
      (Std.ExtTreeMap.mem_iff_isSome_getElem?.mp hOther)
    exact hAll other listeners hListeners hAfter hBound
  · intro hAll other listeners hListeners hAfter hBound
    refine hAll other ?_ hAfter hBound
    rw [Std.ExtTreeMap.mem_iff_isSome_getElem?, hListeners]
    rfl

theorem mem_visited {entry : Str × List (ListenerInfo Callback)}
    (hStored : t.rules[entry.1]? = some entry.2) (hPrefix : entry.1 <+: label)
    (hReached : t.Reached label entry.1) : entry ∈ visited label (entriesUpTo t.rules label) :=
  (mem_visited_iff hQuery).mpr ⟨hStored, Str.compare_isLE_of_isPrefix hPrefix, hReached⟩

theorem prefix_of_mem_visited {entry : Str × List (ListenerInfo Callback)}
    (h : entry ∈ visited label (entriesUpTo t.rules label)) : entry.1 <+: label := by
  obtain ⟨hStored, hLe, hReached⟩ := (mem_visited_iff hQuery).mp h
  refine hReached entry.1 ?_ (by simp) hLe
  rw [Std.ExtTreeMap.mem_iff_isSome_getElem?, hStored]
  rfl

theorem notifiesExactly_of_walkCovers (hCovers : t.WalkCovers label) : t.NotifiesExactly label := by
  have hRule : ∀ entry ∈ visited label (entriesUpTo t.rules label),
      notifyRule label entry.1 entry.2 = .ok (entry.2.filter fun l => Due label entry.1 l) := by
    intro entry hEntry
    obtain ⟨hStored, -, hReached⟩ := (mem_visited_iff hQuery).mp hEntry
    apply notifyRule_eq_filter
    intro l hl
    apply shouldNotify_of_not_slashFree hQuery (prefix_of_mem_visited hQuery hEntry)
    intro hChild hFree
    have hReg : (entry.1, l) ∈ t.registrations := mem_registrations.mpr ⟨entry.2, hStored, hl⟩
    exact (hCovers _ hReg).2 hChild hFree hReached
  refine ⟨_, notifyWalk_eq_flatMap hRule, ?_⟩
  have hDue : t.dueRegistrations label = t.rules.toList.flatMap fun entry =>
      (entry.2.filter fun l => Due label entry.1 l).map fun l => (entry.1, l) := by
    rw [dueRegistrations, registrations, List.filter_flatMap]
    apply List.flatMap_congr
    intro entry _
    rw [List.filter_map]
    rfl
  rw [hDue]
  apply flatMap_takeWhile_entriesUpTo
  intro entry hStored hSome
  obtain ⟨l, hl⟩ := List.exists_mem_of_ne_nil _ (List.map_eq_nil_iff.not.mp hSome)
  have hMem := List.mem_filter.mp hl
  have hIsDue : Due label entry.1 l := of_decide_eq_true hMem.2
  have hReg : (entry.1, l) ∈ t.registrations := mem_registrations.mpr ⟨entry.2, hStored, hMem.1⟩
  exact mem_visited hQuery hStored hIsDue.isPrefix ((hCovers _ hReg).1 hIsDue)

theorem walkCovers_of_notifiesExactly (h : t.NotifiesExactly label) : t.WalkCovers label := by
  obtain ⟨calls, hOk, hPerm⟩ := h
  obtain ⟨called, hCalled, hFrom⟩ := notifyWalk_ok hOk
  have hDueCalled : ∀ reg ∈ t.registrations, Due label reg.1 reg.2 →
      ∃ entry ∈ visited label (entriesUpTo t.rules label), reg.1 = entry.1 ∧ reg.2 ∈ called entry := by
    intro reg hReg hDue
    apply hFrom
    rw [hPerm.mem_iff, dueRegistrations, List.mem_filter]
    exact ⟨hReg, decide_eq_true hDue⟩
  intro reg hReg
  refine ⟨fun hDue => ?_, fun hChild hFree hReached => ?_⟩
  · obtain ⟨entry, hEntry, hRule, -⟩ := hDueCalled reg hReg hDue
    rw [hRule]
    exact ((mem_visited_iff hQuery).mp hEntry).2.2
  · -- the entry of the slash-free rule is visited, yet its listener is not called
    obtain ⟨listeners, hStored, hListener⟩ := mem_registrations.mp hReg
    have hEntry : (reg.1, listeners) ∈ visited label (entriesUpTo t.rules label) :=
      mem_visited hQuery hStored hFree.2.2.1 hReached
    obtain ⟨b, hTest⟩ := (notifyRule_ok (hCalled _ hEntry)).1 reg.2 hListener
    obtain ⟨rfl, hDue⟩ := shouldNotify_of_slashFree hQuery hFree.2.2.1 reg.2 hChild hFree hTest
    obtain ⟨entry, hOther, hRule, hMem⟩ := hDueCalled reg hReg hDue
    have hTrue := ((notifyRule_ok (hCalled entry hOther)).2 reg.2 hMem).2
    rw [← hRule, hTest] at hTrue
    cases hTrue

end Walk

/-- For a label without a query, exactly the due listeners are called, each once,
if and only if every due rule is reached by the walk and no reached rule that
asks for children is a slash-free proper prefix of the label. -/
theorem notifiesExactly_iff (t : ListenerTable Callback) {label : Str} (hQuery : NoQuery label) :
    t.NotifiesExactly label ↔ t.WalkCovers label :=
  ⟨walkCovers_of_notifiesExactly hQuery, notifiesExactly_of_walkCovers hQuery⟩
/-- One listener below the root of a two-level tree. -/
theorem notifiesExactly_iff_two_levels :
    (empty.registerNodeListener (str "L") (str "A/B") true ()).NotifiesExactly (str "A/B/C") ↔
      (empty.registerNodeListener (str "L") (str "A/B") true ()).WalkCovers (str "A/B/C") :=
  notifiesExactly_iff _ (by unfold NoQuery; decide)

/-- A listener for `A` that asks for children is not told about `A/B`. -/
theorem not_notifiesExactly_top_level :
    NoQuery (str "A/B") ∧
      ¬ (empty.registerNodeListener (str "L") (str "A") true ()).NotifiesExactly (str "A/B") := by
  refine ⟨by unfold NoQuery; decide, ?_⟩
  rintro ⟨calls, hOk, hPerm⟩
  have hNone : (empty.registerNodeListener (str "L") (str "A") true ()).notifyListeners (str "A/B")
      = .ok [] := rfl
  have hOne : (empty.registerNodeListener (str "L") (str "A") true ()).dueRegistrations (str "A/B")
      = [(str "A", ⟨str "L", true, ()⟩)] := rfl
  rw [hNone, Except.ok.injEq] at hOk
  rw [hOne, ← hOk] at hPerm
  exact absurd hPerm.length_eq (by simp)

end ListenerTable
end Wwatp
