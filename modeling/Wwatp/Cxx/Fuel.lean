import Wwatp.Cxx.Effects

/-! Recursion bounded by fuel. A call that is given more fuel does what it did before, unless
its fuel gave out. -/
namespace Cxx
namespace Effectful

variable {σ α β : Type}

/-- Wherever the first call does not run out of fuel, the second does the same. -/
def Approximates (x y : Effectful σ α) : Prop :=
  ∀ s, (x s).1 = .error (.undefined .nonTermination) ∨ y s = x s

theorem Approximates.refl (x : Effectful σ α) : Approximates x x := fun _ => .inr rfl

theorem approximates_raise (y : Effectful σ α) : Approximates (raise (.undefined .nonTermination)) y :=
  fun _ => .inl rfl

theorem Approximates.bind {x y : Effectful σ α} {f g : α → Effectful σ β} (hx : Approximates x y)
    (hf : ∀ a, Approximates (f a) (g a)) : Approximates (x >>= f) (y >>= g) := by
  intro s
  rcases hCall : x s with ⟨e | a, s'⟩
  · rcases hx s with hOut | hSame
    · rw [hCall] at hOut
      left
      rw [bind_error hCall]
      exact congrArg Except.error (Except.error.inj hOut)
    · right
      rw [bind_error hCall, bind_error (hSame.trans hCall)]
  · rcases hx s with hOut | hSame
    · rw [hCall] at hOut
      cases hOut
    · rw [bind_ok hCall, bind_ok (hSame.trans hCall)]
      exact hf a s'

theorem Approximates.forEach {f g : α → Effectful σ Unit} (h : ∀ a, Approximates (f a) (g a)) (l : List α) :
    Approximates (forEach f l) (forEach g l) := by
  induction l with
  | nil => exact .refl _
  | cons a l ih => exact (h a).bind fun _ => ih

theorem Approximates.eq_of_ok {x y : Effectful σ α} (h : Approximates x y) {s s' : σ} {a : α}
    (hCall : x s = (.ok a, s')) : y s = (.ok a, s') := by
  rcases h s with hOut | hSame
  · rw [hCall] at hOut
    cases hOut
  · rw [hSame, hCall]

end Effectful
end Cxx
