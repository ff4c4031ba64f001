import Wwatp.Cxx.OrderedMap
import Wwatp.Memory.LabelRule

/-! The listener table of a `SimpleBackend` and the backward walk that notifies
it. A listener is due for a label when its rule is the label itself or, if it
asked for children, an ancestor of it. -/
namespace Wwatp

open Cxx

/-- `ListenerInfo`: the listener's name, its `child_notify` flag and its callback. -/
structure ListenerInfo (Callback : Type) where
  name : Str
  childNotify : Bool
  callback : Callback

/-- `node_listeners_`. A rule without listeners has no entry, and no name
occurs twice under one rule. -/
structure ListenerTable (Callback : Type) where
  rules : Std.ExtTreeMap Str (List (ListenerInfo Callback))
  listeners_ne_nil : ∀ (rule : Str) listeners, rules[rule]? = some listeners → listeners ≠ []
  names_nodup : ∀ (rule : Str) listeners, rules[rule]? = some listeners →
    (listeners.map ListenerInfo.name).Nodup

namespace ListenerTable

variable {Callback : Type}

def empty : ListenerTable Callback :=
  ⟨∅, by simp, by simp⟩

/-- `deregisterNodeListener`. -/
def deregisterNodeListener (t : ListenerTable Callback) (listenerName notificationRule : Str) :
    ListenerTable Callback :=
  match hFound : t.rules[notificationRule]? with
  | none => t
  | some listeners =>
      let kept := listeners.filter fun l => l.name ≠ listenerName
      if hKept : kept = [] then
        { rules := t.rules.erase notificationRule
          listeners_ne_nil := fun rule ls h => by
            rw [Std.ExtTreeMap.getElem?_erase] at h
            split_ifs at h
            exact t.listeners_ne_nil rule ls h
          names_nodup := fun rule ls h => by
            rw [Std.ExtTreeMap.getElem?_erase] at h
            split_ifs at h
            exact t.names_nodup rule ls h }
      else
        { rules := t.rules.insert notificationRule kept
          listeners_ne_nil := fun rule ls h => by
            rw [Std.ExtTreeMap.getElem?_insert] at h
            split_ifs at h
            · exact Option.some.inj h ▸ hKept
            · exact t.listeners_ne_nil rule ls h
          names_nodup := fun rule ls h => by
            rw [Std.ExtTreeMap.getElem?_insert] at h
            split_ifs at h
            · rw [← Option.some.inj h]
              exact (t.names_nodup _ _ hFound).sublist (List.filter_sublist.map _)
            · exact t.names_nodup rule ls h }

/-- After `deregisterNodeListener` the name is gone from the rule. -/
theorem name_not_mem_deregister (t : ListenerTable Callback) (listenerName rule : Str) :
    listenerName ∉ ((t.deregisterNodeListener listenerName rule).rules[rule]?.getD []).map
      ListenerInfo.name := by
  unfold deregisterNodeListener
  split
  · next hNone => simp [hNone]
  · next listeners hFound =>
      dsimp only
      split_ifs with hKept
      · simp
      · simp

/-- `registerNodeListener`: any listener of that name under the rule is replaced. -/
def registerNodeListener (t : ListenerTable Callback) (listenerName notificationRule : Str)
    (childNotify : Bool) (callback : Callback) : ListenerTable Callback :=
  let cleared := t.deregisterNodeListener listenerName notificationRule
  let listeners := cleared.rules[notificationRule]?.getD []
  { rules := cleared.rules.insert notificationRule (listeners ++ [⟨listenerName, childNotify, callback⟩])
    listeners_ne_nil := fun rule ls h => by
      rw [Std.ExtTreeMap.getElem?_insert] at h
      split_ifs at h
      · exact Option.some.inj h ▸ by simp
      · exact cleared.listeners_ne_nil rule ls h
    names_nodup := fun rule ls h => by
      rw [Std.ExtTreeMap.getElem?_insert] at h
      split_ifs at h
      · rw [← Option.some.inj h, List.map_append, List.nodup_append]
        refine ⟨?_, by simp, ?_⟩
        · cases hOld : cleared.rules[notificationRule]? with
          | none => simp [listeners, hOld]
          | some old => simpa [listeners, hOld] using cleared.names_nodup _ _ hOld
        · rintro name hName _ hNew rfl
          simp only [List.map_cons, List.map_nil, List.mem_singleton] at hNew
          have hListed : listenerName ∈ listeners.map ListenerInfo.name :=
            (congrArg (· ∈ listeners.map ListenerInfo.name) hNew).mp hName
          exact name_not_mem_deregister t listenerName notificationRule hListed
      · exact cleared.names_nodup rule ls h }

/-- Whether the loop body calls a listener found under `rule`. -/
def shouldNotify (labelRule rule : Str) (listener : ListenerInfo Callback) : Outcome Bool :=
  if rule = labelRule then .ok true
  else if listener.childNotify then checkLabelRuleOverlap labelRule rule
  else .ok false

/-- The inner loop of `notifyListeners`: the listeners it calls, in order. -/
def notifyRule (labelRule rule : Str) :
    List (ListenerInfo Callback) → Outcome (List (ListenerInfo Callback))
  | [] => .ok []
  | listener :: rest => do
      let called ← shouldNotify labelRule rule listener
      let more ← notifyRule labelRule rule rest
      return if called then listener :: more else more

/-- The outer loop of `notifyListeners`, over the entries from the label downwards. -/
def notifyWalk (labelRule : Str) :
    List (Str × List (ListenerInfo Callback)) → Outcome (List (Str × ListenerInfo Callback))
  | [] => .ok []
  | (rule, listeners) :: before =>
      if partialLabelRuleMatch labelRule rule then do
        let called ← notifyRule labelRule rule listeners
        let more ← notifyWalk labelRule before
        return called.map (fun listener => (rule, listener)) ++ more
      else .ok []

/-- `notifyListeners`: the registrations whose callback is called with the label. -/
def notifyListeners (t : ListenerTable Callback) (labelRule : Str) :
    Outcome (List (Str × ListenerInfo Callback)) :=
  notifyWalk labelRule (entriesUpTo t.rules labelRule)

/-- A call that fails has run past the end of a label. -/
theorem shouldNotify_error {labelRule rule : Str} {listener : ListenerInfo Callback} {e : Fault}
    (h : shouldNotify labelRule rule listener = .error e) : e = .undefined .index := by
  unfold shouldNotify at h
  split_ifs at h
  exact checkLabelRuleOverlap_error h

theorem notifyRule_error {labelRule rule : Str} {listeners : List (ListenerInfo Callback)} {e : Fault}
    (h : notifyRule labelRule rule listeners = .error e) : e = .undefined .index := by
  induction listeners with
  | nil => cases h
  | cons listener rest ih =>
      rcases Outcome.bind_eq_error.mp h with hOne | ⟨called, -, h⟩
      · exact shouldNotify_error hOne
      · rcases Outcome.bind_eq_error.mp h with hRest | ⟨more, -, h⟩
        · exact ih hRest
        · cases h

theorem notifyWalk_error {labelRule : Str} {walk : List (Str × List (ListenerInfo Callback))} {e : Fault}
    (h : notifyWalk labelRule walk = .error e) : e = .undefined .index := by
  induction walk with
  | nil => cases h
  | cons entry before ih =>
      rw [notifyWalk] at h
      split_ifs at h
      rcases Outcome.bind_eq_error.mp h with hOne | ⟨called, -, h⟩
      · exact notifyRule_error hOne
      · rcases Outcome.bind_eq_error.mp h with hRest | ⟨more, -, h⟩
        · exact ih hRest
        · cases h

theorem notifyListeners_error {t : ListenerTable Callback} {labelRule : Str} {e : Fault}
    (h : t.notifyListeners labelRule = .error e) : e = .undefined .index :=
  notifyWalk_error h

end ListenerTable
end Wwatp
