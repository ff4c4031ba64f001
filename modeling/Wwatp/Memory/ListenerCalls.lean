import Wwatp.Memory.ListenerDelivery

/-! The registrations that a call of `notifyListeners` which returns has called, for any label. -/
namespace Wwatp
namespace ListenerTable

open Cxx

variable {Callback : Type} {t : ListenerTable Callback} {label : Str}

/-- The backward walk from a label comes to a rule: every rule from it up to the label passes
the prefix test. -/
def WalksTo (t : ListenerTable Callback) (label rule : Str) : Prop :=
  (compare rule label).isLE ∧ ∀ other ∈ t.rules, (compare rule other).isLE → (compare other label).isLE →
    partialLabelRuleMatch label other = true

/-- A registration that is called: the walk comes to its rule, and it passes the test there. -/
structure Calls (t : ListenerTable Callback) (label : Str) (reg : Str × ListenerInfo Callback) : Prop where
  registered : reg ∈ t.registrations
  walksTo : t.WalksTo label reg.1
  passes : shouldNotify label reg.1 reg.2 = .ok true

/-- An inner loop that returns has called those that pass the test. -/
theorem notifyRule_eq {rule : Str} {listeners called : List (ListenerInfo Callback)}
    (h : notifyRule label rule listeners = .ok called) :
    called = listeners.filter fun l => shouldNotify label rule l = .ok true := by
  induction listeners generalizing called with
  | nil =>
      cases h
      rfl
  | cons l rest ih =>
      simp only [notifyRule, Outcome.bind_eq_ok, Outcome.pure_eq_ok, Except.ok.injEq] at h
      obtain ⟨passed, hTest, more, hMore, rfl⟩ := h
      rw [List.filter_cons, hTest, ← ih hMore]
      cases passed <;> simp

theorem mem_visited_iff_walksTo {entry : Str × List (ListenerInfo Callback)} :
    entry ∈ visited label (entriesUpTo t.rules label) ↔
      t.rules[entry.1]? = some entry.2 ∧ t.WalksTo label entry.1 := by
  rw [visited, mem_takeWhile_entriesUpTo]
  refine and_congr_right fun _ => and_congr_right fun _ => ?_
  constructor
  · intro hAll other hOther
    obtain ⟨listeners, hListeners⟩ := Option.isSome_iff_exists.mp
      (Std.ExtTreeMap.mem_iff_isSome_getElem?.mp hOther)
    exact hAll (other, listeners) hListeners
  · intro hAll between hStored
    exact hAll between.1 (Std.ExtTreeMap.mem_iff_isSome_getElem?.mpr (Option.isSome_of_eq_some hStored))

/-- What a call that returns has called, rule by rule. -/
theorem notifyListeners_eq {calls : List (Str × ListenerInfo Callback)} (h : t.notifyListeners label = .ok calls) :
    calls = (visited label (entriesUpTo t.rules label)).flatMap fun entry =>
      (entry.2.filter fun l => shouldNotify label entry.1 l = .ok true).map fun l => (entry.1, l) := by
  obtain ⟨called, hCalled, -⟩ := notifyWalk_ok h
  refine (Except.ok.inj ((notifyWalk_eq_flatMap hCalled).symm.trans h)).symm.trans ?_
  exact List.flatMap_congr fun entry hEntry => by rw [notifyRule_eq (hCalled entry hEntry)]

theorem mem_notifyListeners_iff {calls : List (Str × ListenerInfo Callback)}
    (h : t.notifyListeners label = .ok calls) {reg : Str × ListenerInfo Callback} :
    reg ∈ calls ↔ t.Calls label reg := by
  rw [notifyListeners_eq h, List.mem_flatMap]
  constructor
  · rintro ⟨entry, hEntry, hMem⟩
    obtain ⟨l, hl, rfl⟩ := List.mem_map.mp hMem
    obtain ⟨hListener, hPasses⟩ := List.mem_filter.mp hl
    obtain ⟨hStored, hWalksTo⟩ := mem_visited_iff_walksTo.mp hEntry
    exact ⟨mem_registrations.mpr ⟨entry.2, hStored, hListener⟩, hWalksTo, of_decide_eq_true hPasses⟩
  · intro hReg
    obtain ⟨listeners, hStored, hListener⟩ := mem_registrations.mp hReg.registered
    have hEntry : (reg.1, listeners) ∈ visited label (entriesUpTo t.rules label) :=
      mem_visited_iff_walksTo.mpr ⟨hStored, hReg.walksTo⟩
    refine ⟨_, hEntry, List.mem_map.mpr ⟨reg.2, ?_, rfl⟩⟩
    exact List.mem_filter.mpr ⟨hListener, decide_eq_true hReg.passes⟩

/-- No registration is called twice. -/
theorem nodup_calls {calls : List (Str × ListenerInfo Callback)} (h : t.notifyListeners label = .ok calls) :
    (calls.map fun reg => (reg.1, reg.2.name)).Nodup := by
  rw [notifyListeners_eq h, List.map_flatMap, List.nodup_flatMap]
  constructor
  · intro entry hEntry
    have hNames := t.names_nodup entry.1 entry.2 (mem_visited_iff_walksTo.mp hEntry).1
    rw [List.map_map]
    refine (List.Nodup.of_map Prod.snd ?_)
    rw [List.map_map]
    exact hNames.sublist (List.filter_sublist.map _)
  · refine ((entriesUpTo_descending t.rules label).sublist (List.takeWhile_sublist _)).imp ?_
    rintro first second hLess ⟨rule, name⟩ hFirst hSecond
    obtain ⟨reg, hReg, hEq⟩ := List.mem_map.mp hFirst
    obtain ⟨other, hOther, hSame⟩ := List.mem_map.mp hSecond
    obtain ⟨l, -, rfl⟩ := List.mem_map.mp hReg
    obtain ⟨l', -, rfl⟩ := List.mem_map.mp hOther
    have hRules : first.1 = second.1 := (Prod.mk.inj (hEq.trans hSame.symm)).1
    rw [hRules, Std.ReflOrd.compare_self] at hLess
    cases hLess

/-- Where every test of an inner loop returns, the loop does. -/
theorem notifyRule_returns {rule : Str} {listeners : List (ListenerInfo Callback)}
    (h : ∀ l ∈ listeners, ∃ called, shouldNotify label rule l = .ok called) :
    ∃ called, notifyRule label rule listeners = .ok called := by
  induction listeners with
  | nil => exact ⟨[], rfl⟩
  | cons l rest ih =>
      obtain ⟨⟨passed, hTest⟩, hRest⟩ := List.forall_mem_cons.mp h
      obtain ⟨called, hCalled⟩ := ih hRest
      rw [notifyRule, hTest, hCalled]
      exact ⟨_, rfl⟩

/-- The tests of the listeners that the walk comes to stay within the labels. -/
def WalkDefined (t : ListenerTable Callback) (label : Str) : Prop :=
  ∀ reg ∈ t.registrations, t.WalksTo label reg.1 → ∃ called, shouldNotify label reg.1 reg.2 = .ok called

theorem notifyListeners_returns_iff :
    (∃ calls, t.notifyListeners label = .ok calls) ↔ t.WalkDefined label := by
  constructor
  · rintro ⟨calls, hCalls⟩ reg hReg hWalks
    obtain ⟨called, hCalled, -⟩ := notifyWalk_ok hCalls
    obtain ⟨listeners, hStored, hListener⟩ := mem_registrations.mp hReg
    have hEntry : (reg.1, listeners) ∈ visited label (entriesUpTo t.rules label) :=
      mem_visited_iff_walksTo.mpr ⟨hStored, hWalks⟩
    exact (notifyRule_ok (hCalled _ hEntry)).1 reg.2 hListener
  · intro hDefined
    have hRules : ∀ entry ∈ visited label (entriesUpTo t.rules label),
        ∃ called, notifyRule label entry.1 entry.2 = .ok called := by
      intro entry hEntry
      obtain ⟨hStored, hWalks⟩ := mem_visited_iff_walksTo.mp hEntry
      exact notifyRule_returns fun l hl =>
        hDefined (entry.1, l) (mem_registrations.mpr ⟨entry.2, hStored, hl⟩) hWalks
    choose! called hCalled using hRules
    exact ⟨_, notifyWalk_eq_flatMap hCalled⟩

end ListenerTable
end Wwatp
