import Wwatp.Cxx.Effects
import Wwatp.Cxx.InputStream

/-! Calls that never run into one kind of undefined behaviour, whatever else becomes of them. -/
namespace Cxx

variable {α β σ : Type} {kind : Undefined}

namespace Outcome

/-- The call does not run into this kind of undefined behaviour. -/
def Avoids (kind : Undefined) (x : Outcome α) : Prop := x ≠ .error (.undefined kind)

variable {x : Outcome α}

@[simp] theorem avoids_ok (a : α) : Avoids kind (.ok a) := nofun

@[simp] theorem avoids_error {e : Fault} : Avoids kind (.error e : Outcome α) ↔ e ≠ .undefined kind := by
  simp [Avoids]

/-- A sequence of two calls: the second is looked at where the first returns. -/
@[simp] theorem avoids_bind {f : α → Outcome β} :
    Avoids kind (x >>= f) ↔ Avoids kind x ∧ ∀ a, x = .ok a → Avoids kind (f a) := by
  cases x with
  | ok a => simp
  | error e => simp

@[simp] theorem avoids_map {f : α → β} : Avoids kind (f <$> x) ↔ Avoids kind x := by
  cases x <;> simp [Avoids]

@[simp] theorem avoids_ite {p : Prop} [Decidable p] {y : Outcome α} :
    Avoids kind (if p then x else y) ↔ (p → Avoids kind x) ∧ (¬p → Avoids kind y) := by
  split_ifs with h <;> simp [h]

@[simp] theorem avoids_orElse {caught : α} : Avoids kind (x.orElse caught) ↔ Avoids kind x := by
  unfold orElse
  split
  · simp
  · next e hOther =>
      simp only [avoids_ok, avoids_error, true_iff]
      exact hOther kind
  · simp

end Outcome

open Outcome

namespace Reader

variable {r : Reader α} {s : IStream}

@[simp] theorem avoids_pure (a : α) : Avoids kind ((pure a : Reader α) s) := avoids_ok _

@[simp] theorem avoids_throw {e : Fault} : Avoids kind ((throw e : Reader α) s) ↔ e ≠ .undefined kind := avoids_error

@[simp] theorem avoids_bind {f : α → Reader β} :
    Avoids kind ((r >>= f) s) ↔ Avoids kind (r s) ∧ ∀ a t, r s = .ok (a, t) → Avoids kind (f a t) := by
  change Avoids kind (r s >>= fun p => f p.1 p.2) ↔ _
  simp

@[simp] theorem avoids_map {f : α → β} : Avoids kind ((f <$> r) s) ↔ Avoids kind (r s) := by
  change Avoids kind (r s >>= fun p => pure (f p.1, p.2)) ↔ _
  simp

@[simp] theorem avoids_ite {p : Prop} [Decidable p] {q : Reader α} :
    Avoids kind ((if p then r else q) s) ↔ (p → Avoids kind (r s)) ∧ (¬p → Avoids kind (q s)) := by
  split_ifs with h <;> simp [h]

@[simp] theorem avoids_lift {x : Outcome α} : Avoids kind ((liftM x : Reader α) s) ↔ Avoids kind x := by
  change Avoids kind (x >>= fun a => pure (a, s)) ↔ _
  simp

@[simp] theorem avoids_word (old : Str) : Avoids kind (word old s) := by
  unfold word
  split <;> simp

@[simp] theorem avoids_get : Avoids kind (Reader.get s) := by
  unfold Reader.get
  split_ifs
  · split <;> simp
  · simp

@[simp] theorem avoids_peek : Avoids kind (peek s) := by
  unfold peek
  split_ifs
  · split <;> simp
  · simp

@[simp] theorem avoids_read (count : ℕ) : Avoids kind (read count s) := by
  unfold read
  split_ifs <;> simp

@[simp] theorem avoids_unsigned (base width : ℕ) : Avoids kind (unsigned base width s) := by
  unfold unsigned
  split <;> simp

@[simp] theorem avoids_int (base : ℕ) : Avoids kind (int base s) := by
  unfold int
  split <;> simp

theorem avoids_written {a : Option α} (hKind : kind ≠ .indeterminate) : Avoids kind (written a s) := by
  cases a with
  | none => simpa [written] using hKind.symm
  | some a => simp [written]

/-- A loop whose rounds avoid what also a loop without an end is not. -/
theorem avoids_untilPeek {stop : UInt8} {body : Reader α} (hKind : kind ≠ .nonTermination)
    (hBody : ∀ s, Avoids kind (body s)) : Avoids kind (untilPeek stop body s) := by
  have hRounds : ∀ fuel t, Avoids kind (untilPeekFuel stop body fuel t) := by
    intro fuel
    induction fuel with
    | zero =>
        intro t
        simpa [untilPeekFuel] using hKind.symm
    | succ fuel ih =>
        intro t
        simp [untilPeekFuel, hBody, ih]
  exact hRounds _ s

end Reader

namespace Effectful

variable {x : Effectful σ α} {s : σ}

@[simp] theorem avoids_pure (a : α) : Avoids kind ((pure a : Effectful σ α) s).1 := avoids_ok a

@[simp] theorem avoids_raise {e : Fault} : Avoids kind ((raise e : Effectful σ α) s).1 ↔ e ≠ .undefined kind := avoids_error

@[simp] theorem avoids_inspect {f : σ → Outcome α} : Avoids kind (inspect f s).1 ↔ Avoids kind (f s) := .rfl

@[simp] theorem avoids_look (f : σ → α) : Avoids kind (look f s).1 := avoids_ok _

@[simp] theorem avoids_call (f : σ → α × σ) : Avoids kind (call f s).1 := avoids_ok _

@[simp] theorem avoids_bind {f : α → Effectful σ β} :
    Avoids kind ((x >>= f) s).1 ↔ Avoids kind (x s).1 ∧ ∀ a t, x s = (.ok a, t) → Avoids kind (f a t).1 := by
  rcases hCall : x s with ⟨e | a, t⟩
  · rw [bind_error hCall]
    simp
  · rw [bind_ok hCall]
    simp

@[simp] theorem avoids_orElse {caught : α} : Avoids kind (orElse x caught s).1 ↔ Avoids kind (x s).1 := by
  unfold orElse
  split
  · next h => simp [h]
  · next e t hOther h =>
      simp only [h, avoids_ok, avoids_error, true_iff]
      exact hOther kind
  · next h => simp [h]

@[simp] theorem avoids_ite {p : Prop} [Decidable p] {y : Effectful σ α} :
    Avoids kind ((if p then x else y) s).1 ↔ (p → Avoids kind (x s).1) ∧ (¬p → Avoids kind (y s).1) := by
  split_ifs with h <;> simp [h]

theorem avoids_forEach {body : α → Effectful σ Unit} {l : List α} (h : ∀ a ∈ l, ∀ s, Avoids kind (body a s).1) :
    Avoids kind (forEach body l s).1 := by
  induction l generalizing s with
  | nil => exact avoids_pure ()
  | cons a l ih =>
      rw [forEach, avoids_bind]
      exact ⟨h a List.mem_cons_self s, fun _ t _ => ih fun b hb => h b (List.mem_cons_of_mem a hb)⟩

theorem avoids_forAll {body : α → Effectful σ Bool} {l : List α} (h : ∀ a ∈ l, ∀ s, Avoids kind (body a s).1) :
    Avoids kind (forAll body l s).1 := by
  induction l generalizing s with
  | nil => exact avoids_pure true
  | cons a l ih =>
      rw [forAll, avoids_bind]
      refine ⟨h a List.mem_cons_self s, fun more t _ => ?_⟩
      cases more with
      | false => exact avoids_pure false
      | true => exact ih fun b hb => h b (List.mem_cons_of_mem a hb)

end Effectful

end Cxx
