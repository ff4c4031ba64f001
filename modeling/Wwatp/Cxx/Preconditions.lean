import Wwatp.Cxx.Effects

/-! Preconditions of calls. What should hold is given apart for a call that returns and for one
that throws; of a call that runs into undefined behaviour, or never ends, nothing is asked. -/
namespace Cxx.Effectful

variable {σ α β : Type}

/-- After the call from a state, one of the two postconditions holds. -/
def Wlp (x : Effectful σ α) (returns : α → σ → Prop) (throws : σ → Prop) (s : σ) : Prop :=
  match x s with
  | (.ok a, s') => returns a s'
  | (.error (.undefined _), _) => True
  | (.error _, s') => throws s'

section Rules

variable {returns : α → σ → Prop} {throws : σ → Prop} {s s' : σ} {x : Effectful σ α}

theorem wlp_of_ok {a : α} (h : x s = (.ok a, s')) : Wlp x returns throws s ↔ returns a s' := by
  rw [Wlp, h]

@[simp] theorem wlp_pure (a : α) : Wlp (pure a) returns throws s ↔ returns a s := .rfl

@[simp] theorem wlp_look (f : σ → α) : Wlp (look f) returns throws s ↔ returns (f s) s := .rfl

@[simp] theorem wlp_change {returns : Unit → σ → Prop} (f : σ → σ) : Wlp (change f) returns throws s ↔ returns () (f s) :=
  .rfl

/-- A sequence of two calls: the second starts where the first has returned. -/
@[simp] theorem wlp_bind {returns : β → σ → Prop} (f : α → Effectful σ β) :
    Wlp (x >>= f) returns throws s ↔ Wlp x (fun a s => Wlp (f a) returns throws s) throws s := by
  rcases hCall : x s with ⟨e | a, s'⟩
  · rw [Wlp, Wlp, bind_error hCall, hCall]
    cases e <;> rfl
  · rw [wlp_of_ok hCall, Wlp, bind_ok hCall, Wlp]

theorem wlp_mono {returns' : α → σ → Prop} (h : ∀ a s, returns a s → returns' a s) (hPre : Wlp x returns throws s) :
    Wlp x returns' throws s := by
  unfold Wlp at hPre ⊢
  split at hPre
  · exact h _ _ hPre
  · trivial
  · exact hPre

theorem wlp_congr {returns' : α → σ → Prop} (h : ∀ a s, returns a s ↔ returns' a s) :
    Wlp x returns throws s ↔ Wlp x returns' throws s :=
  ⟨wlp_mono fun a s => (h a s).mp, wlp_mono fun a s => (h a s).mpr⟩

/-- A computation without effects. -/
def Yields (outcome : Outcome α) (returns : α → Prop) (throws : Prop) : Prop :=
  match outcome with
  | .ok a => returns a
  | .error (.undefined _) => True
  | .error _ => throws

theorem yields_congr {outcome : Outcome α} {returns returns' : α → Prop} {throws : Prop}
    (h : ∀ a, returns a ↔ returns' a) : Yields outcome returns throws ↔ Yields outcome returns' throws := by
  unfold Yields
  split
  · exact h _
  · rfl
  · rfl

@[simp] theorem wlp_inspect (f : σ → Outcome α) :
    Wlp (inspect f) returns throws s ↔ Yields (f s) (returns · s) (throws s) := by
  unfold Wlp inspect Yields
  rcases f s with e | a
  · cases e <;> rfl
  · rfl

end Rules

end Cxx.Effectful
