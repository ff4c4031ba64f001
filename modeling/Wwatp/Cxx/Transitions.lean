import Mathlib.Data.Option.Basic

/-! Transition systems whose steps may be disabled: what is reached by allowed steps,
and the rule for an invariant of these steps. -/
namespace Cxx

variable {State Action : Type*}

/-- `t` is reached from `s` by steps that are all allowed in the state they are taken in. -/
inductive Reaches (step : State → Action → Option State) (allowed : State → Action → Prop)
    (s : State) : State → Prop where
  | refl : Reaches step allowed s s
  | tail {t u : State} {action : Action} (prior : Reaches step allowed s t)
      (hAllowed : allowed t action) (last : step t action = some u) : Reaches step allowed s u

/-- Any step of the system. -/
def anyStep (_ : State) (_ : Action) : Prop := True

instance (s : State) (action : Action) : Decidable (anyStep s action) := inferInstanceAs (Decidable True)

namespace Reaches

variable {step : State → Action → Option State} {allowed : State → Action → Prop}
  {s t u : State} {P : State → Prop}

/-- What the first state has and each allowed step keeps, every reached state has. -/
theorem invariant (hReaches : Reaches step allowed s t) (hStart : P s)
    (hStep : ∀ t a u, P t → allowed t a → step t a = some u → P u) : P t := by
  induction hReaches with
  | refl => exact hStart
  | tail _ hAllowed last ih => exact hStep _ _ _ ih hAllowed last

theorem mono {weaker : State → Action → Prop} (hReaches : Reaches step allowed s t)
    (hWeaker : ∀ t a, allowed t a → weaker t a) : Reaches step weaker s t := by
  induction hReaches with
  | refl => exact .refl
  | tail _ hAllowed last ih => exact ih.tail (hWeaker _ _ hAllowed) last

theorem trans (hFirst : Reaches step allowed s t) (hSecond : Reaches step allowed t u) :
    Reaches step allowed s u := by
  induction hSecond with
  | refl => exact hFirst
  | tail _ hAllowed last ih => exact ih.tail hAllowed last

theorem single {action : Action} (hAllowed : allowed s action) (hStep : step s action = some t) :
    Reaches step allowed s t :=
  .tail .refl hAllowed hStep

end Reaches

/-- The steps of a list of actions, one after another, each of them allowed. -/
def runAllowed (step : State → Action → Option State) (allowed : State → Action → Prop)
    [∀ s a, Decidable (allowed s a)] (s : State) : List Action → Option State
  | [] => some s
  | action :: rest =>
    if allowed s action then (step s action).bind fun t => runAllowed step allowed t rest else none

theorem reaches_of_runAllowed {step : State → Action → Option State}
    {allowed : State → Action → Prop} [∀ s a, Decidable (allowed s a)] {s t : State}
    {actions : List Action} (hRun : runAllowed step allowed s actions = some t) :
    Reaches step allowed s t := by
  induction actions generalizing s with
  | nil =>
    cases hRun
    exact .refl
  | cons action rest ih =>
    rw [runAllowed, Option.ite_none_right_eq_some, Option.bind_eq_some_iff] at hRun
    obtain ⟨hAllowed, u, hStep, hRest⟩ := hRun
    exact (Reaches.single hAllowed hStep).trans (ih hRest)

end Cxx
