import Mathlib.Init

/-! Computations on a state that can throw, and which of them leave the state as it is when they do. -/
namespace Cxx

universe u

variable {ε σ α β : Type u}

/-- A computation that does not change the state. -/
def ReadsOnly (x : EStateM ε σ α) : Prop := ∀ s, (∃ a, x s = .ok a s) ∨ ∃ e, x s = .error e s

/-- A computation that does not throw. -/
def NeverThrows (x : EStateM ε σ α) : Prop := ∀ s, ∃ a t, x s = .ok a t

/-- A computation that has changed nothing when it throws. -/
def Atomic (x : EStateM ε σ α) : Prop := ∀ s e t, x s = .error e t → t = s

section Runs

variable {x : EStateM ε σ α} {f : α → EStateM ε σ β} {s t : σ}

theorem bind_of_ok {a : α} (h : x s = .ok a t) : (x >>= f) s = f a t := by
  show EStateM.bind x f s = _
  rw [EStateM.bind, h]

theorem bind_of_error {e : ε} (h : x s = .error e t) : (x >>= f) s = .error e t := by
  show EStateM.bind x f s = _
  rw [EStateM.bind, h]

theorem ReadsOnly.atomic (h : ReadsOnly x) : Atomic x := by
  intro s e t hThrown
  rcases h s with ⟨a, hOk⟩ | ⟨_, hError⟩
  · rw [hOk] at hThrown
    cases hThrown
  · rw [hError] at hThrown
    cases hThrown
    rfl

theorem NeverThrows.atomic (h : NeverThrows x) : Atomic x := by
  intro s e t hThrown
  obtain ⟨a, next, hOk⟩ := h s
  rw [hOk] at hThrown
  cases hThrown

/-- What goes before an atomic computation may read. -/
theorem ReadsOnly.bind (h : ReadsOnly x) (hNext : ∀ a, Atomic (f a)) : Atomic (x >>= f) := by
  intro s e t hThrown
  rcases h s with ⟨a, hOk⟩ | ⟨e', hError⟩
  · rw [bind_of_ok hOk] at hThrown
    exact hNext a s e t hThrown
  · rw [bind_of_error hError] at hThrown
    cases hThrown
    rfl

/-- What a computation that reads has given to the one behind it. -/
theorem ReadsOnly.of_bind_ok (h : ReadsOnly x) {b : β} (hOk : (x >>= f) s = .ok b t) :
    ∃ a, x s = .ok a s ∧ f a s = .ok b t := by
  rcases h s with ⟨a, hFirst⟩ | ⟨e, hError⟩
  · rw [bind_of_ok hFirst] at hOk
    exact ⟨a, hFirst, hOk⟩
  · rw [bind_of_error hError] at hOk
    cases hOk

theorem NeverThrows.bind (h : NeverThrows x) (hNext : ∀ a, NeverThrows (f a)) : NeverThrows (x >>= f) := by
  intro s
  obtain ⟨a, t, hOk⟩ := h s
  rw [bind_of_ok hOk]
  exact hNext a t

theorem readsOnly_get : ReadsOnly (get : EStateM ε σ σ) := fun s => Or.inl ⟨s, rfl⟩

theorem neverThrows_modify (g : σ → σ) : NeverThrows (modify g : EStateM ε σ PUnit) := fun s => ⟨⟨⟩, g s, rfl⟩

end Runs

end Cxx
