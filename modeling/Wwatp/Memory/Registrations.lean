import Wwatp.Memory.ListenerCalls

/-! What registering and deregistering do to a listener table, rule by rule. -/
namespace Wwatp
namespace ListenerTable

open Cxx

variable {Callback : Type} (t : ListenerTable Callback)

/-- The listeners under a rule, in the order in which they are called. -/
def under (rule : Str) : List (ListenerInfo Callback) := t.rules[rule]?.getD []

theorem mem_registrations_iff {reg : Str × ListenerInfo Callback} :
    reg ∈ t.registrations ↔ reg.2 ∈ t.under reg.1 := by
  rw [mem_registrations, under]
  cases t.rules[reg.1]? <;> simp

theorem mem_rules_iff {rule : Str} : rule ∈ t.rules ↔ t.under rule ≠ [] := by
  rw [Std.ExtTreeMap.mem_iff_isSome_getElem?, under]
  cases hStored : t.rules[rule]? with
  | none => simp
  | some listeners => simpa using t.listeners_ne_nil rule listeners hStored

theorem nodup_under (rule : Str) : ((t.under rule).map ListenerInfo.name).Nodup := by
  rw [under]
  cases hStored : t.rules[rule]? with
  | none => exact List.nodup_nil
  | some listeners => exact t.names_nodup rule listeners hStored

/-- Tables with the same listeners under every rule are the same. -/
theorem ext_under {t u : ListenerTable Callback} (h : ∀ rule, t.under rule = u.under rule) : t = u := by
  have hRules : t.rules = u.rules := by
    refine Std.ExtTreeMap.ext_getElem? fun rule => ?_
    have hRule := h rule
    rw [under, under] at hRule
    cases hT : t.rules[rule]? with
    | none =>
        cases hU : u.rules[rule]? with
        | none => rfl
        | some listeners =>
            rw [hT, hU] at hRule
            exact absurd hRule.symm (u.listeners_ne_nil rule listeners hU)
    | some listeners =>
        cases hU : u.rules[rule]? with
        | none =>
            rw [hT, hU] at hRule
            exact absurd hRule (t.listeners_ne_nil rule listeners hT)
        | some others =>
            rw [hT, hU] at hRule
            exact congrArg some hRule
  cases t
  cases u
  cases hRules
  rfl

@[simp] theorem under_empty (rule : Str) : (empty : ListenerTable Callback).under rule = [] := by
  simp [under, empty]

variable (listenerName rule : Str)

theorem under_deregister (key : Str) : (t.deregisterNodeListener listenerName rule).under key =
    if key = rule then (t.under rule).filter (fun l => l.name ≠ listenerName) else t.under key := by
  have hCompare : (compare rule key = .eq) ↔ key = rule := by
    rw [Std.LawfulEqCmp.compare_eq_iff_eq, eq_comm]
  unfold deregisterNodeListener
  split
  · next hNone =>
      split_ifs with hKey
      · simp [hKey, under, hNone]
      · rfl
  · next listeners hFound =>
      have hUnder : t.under rule = listeners := by rw [under, hFound, Option.getD_some]
      rw [hUnder]
      dsimp only
      split_ifs with hKept hKey hKey
      · rw [hKept, under, Std.ExtTreeMap.getElem?_erase, if_pos (hCompare.mpr hKey), Option.getD_none]
      · rw [under, Std.ExtTreeMap.getElem?_erase, if_neg (hCompare.not.mpr hKey), under]
      · rw [under, Std.ExtTreeMap.getElem?_insert, if_pos (hCompare.mpr hKey), Option.getD_some]
      · rw [under, Std.ExtTreeMap.getElem?_insert, if_neg (hCompare.not.mpr hKey), under]

theorem under_register (childNotify : Bool) (callback : Callback) (key : Str) :
    (t.registerNodeListener listenerName rule childNotify callback).under key =
      if key = rule then
        (t.under rule).filter (fun l => l.name ≠ listenerName) ++ [⟨listenerName, childNotify, callback⟩]
      else t.under key := by
  have hCompare : (compare rule key = .eq) ↔ key = rule := by
    rw [Std.LawfulEqCmp.compare_eq_iff_eq, eq_comm]
  have hCleared := t.under_deregister listenerName rule
  rw [registerNodeListener, under, Std.ExtTreeMap.getElem?_insert]
  split_ifs with hSame hKey hKey
  · rw [Option.getD_some]
    change (t.deregisterNodeListener listenerName rule).under rule ++ _ = _
    rw [hCleared, if_pos rfl]
  · exact absurd (hCompare.mp hSame) hKey
  · exact absurd (hCompare.mpr hKey) hSame
  · change (t.deregisterNodeListener listenerName rule).under key = _
    rw [hCleared, if_neg hKey]

/-- A listener that is deregistered before it is registered again is registered as before. -/
theorem register_deregister (childNotify : Bool) (callback : Callback) :
    (t.deregisterNodeListener listenerName rule).registerNodeListener listenerName rule childNotify callback =
      t.registerNodeListener listenerName rule childNotify callback := by
  refine ext_under fun key => ?_
  simp only [under_register, under_deregister]
  split_ifs <;> simp

variable {t} {label : Str}

theorem calls_iff {reg : Str × ListenerInfo Callback} : t.Calls label reg ↔
    reg.2 ∈ t.under reg.1 ∧ t.WalksTo label reg.1 ∧ shouldNotify label reg.1 reg.2 = .ok true := by
  rw [← t.mem_registrations_iff]
  exact ⟨fun h => ⟨h.registered, h.walksTo, h.passes⟩, fun ⟨hReg, hWalksTo, hPasses⟩ => ⟨hReg, hWalksTo, hPasses⟩⟩

/-- Every listener asks for the root with all that is below it. -/
structure RootOnly (t : ListenerTable Callback) : Prop where
  under_eq_nil : ∀ rule, rule ≠ [] → t.under rule = []
  childNotify : ∀ l ∈ t.under [], l.childNotify = true

/-- The walk has one entry, if any. -/
theorem RootOnly.entriesUpTo_eq (h : t.RootOnly) (label : Str) :
    entriesUpTo t.rules label = (t.rules[([] : Str)]?.map fun listeners => ([], listeners)).toList := by
  have hRoot : ∀ entry ∈ entriesUpTo t.rules label,
      entry.1 = [] ∧ t.rules[([] : Str)]? = some entry.2 := by
    intro entry hEntry
    have hStored := (mem_entriesUpTo.mp hEntry).1
    have hRule : entry.1 = [] := by
      by_contra hRule
      exact (t.mem_rules_iff.mp (Std.ExtTreeMap.mem_iff_isSome_getElem?.mpr
        (Option.isSome_of_eq_some hStored))) (h.under_eq_nil entry.1 hRule)
    exact ⟨hRule, hRule ▸ hStored⟩
  have hDescending := entriesUpTo_descending t.rules label
  cases hList : entriesUpTo t.rules label with
  | nil =>
      cases hStored : t.rules[([] : Str)]? with
      | none => rfl
      | some listeners =>
          have hMem : (([] : Str), listeners) ∈ entriesUpTo t.rules label :=
            mem_entriesUpTo.mpr ⟨hStored, Str.compare_isLE_of_isPrefix List.nil_prefix⟩
          rw [hList] at hMem
          cases hMem
  | cons first rest =>
      rw [hList] at hRoot hDescending
      obtain ⟨hFirst, hStored⟩ := hRoot first List.mem_cons_self
      cases rest with
      | nil => rw [hStored, ← hFirst]; rfl
      | cons second rest =>
          -- two entries would both be the root's
          have hLess := (List.pairwise_cons.mp hDescending).1 second List.mem_cons_self
          have hSecond := (hRoot second (List.mem_cons_of_mem _ List.mem_cons_self)).1
          rw [hFirst, hSecond, Std.ReflOrd.compare_self] at hLess
          cases hLess

/-- Listeners of the root are told of every label, in the order of their registration. -/
theorem RootOnly.notifyListeners (h : t.RootOnly) (label : Str) :
    t.notifyListeners label = .ok ((t.under []).map fun l => ([], l)) := by
  have hMatch : partialLabelRuleMatch label [] = true := by simp [partialLabelRuleMatch]
  rw [ListenerTable.notifyListeners, h.entriesUpTo_eq, under]
  cases hStored : t.rules[([] : Str)]? with
  | none => rfl
  | some listeners =>
      have hTests : ∀ l ∈ listeners, shouldNotify label [] l = .ok true := by
        intro l hl
        have hChild : l.childNotify = true := h.childNotify l (by rwa [under, hStored])
        rw [shouldNotify, if_pos hChild]
        split_ifs
        · rfl
        · simp [checkLabelRuleOverlap, stripQuery, Str.find]
      have hRule : notifyRule label [] listeners = .ok listeners := by
        obtain ⟨called, hCalled⟩ := notifyRule_returns fun l hl => ⟨true, hTests l hl⟩
        have hAll : listeners.filter (fun l => shouldNotify label [] l = .ok true) = listeners :=
          List.filter_eq_self.mpr fun l hl => decide_eq_true (hTests l hl)
        rw [hCalled, notifyRule_eq hCalled, hAll]
      simp only [Option.map_some, Option.toList_some, notifyWalk, hMatch, if_true, hRule, Outcome.ok_bind,
        Outcome.pure_eq_ok, List.append_nil, Option.getD_some]

end ListenerTable
end Wwatp
