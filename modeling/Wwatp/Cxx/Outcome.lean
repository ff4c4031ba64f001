import Wwatp.Cxx.ByteString

/-! Results of C++ calls. A call returns a value, throws, or runs into
undefined behaviour; the last is kept apart so that a theorem can say that a
call never reaches it. -/
namespace Cxx

/-- The undefined behaviour a call can reach. -/
inductive Undefined
  /-- a subscript or subspan past the end of a string, span or array -/
  | index
  /-- a list iterator advanced past the end of its list -/
  | iterator
  /-- the value of a variable that was never written -/
  | indeterminate
  /-- `front()` or `back()` of an empty string -/
  | emptyString
  | divisionByZero
  /-- a binary search in a range that is not partitioned by its test -/
  | unpartitioned
  /-- a loop that never ends -/
  | nonTermination
  deriving DecidableEq, Repr

/-- Why a call did not return. The standard exceptions carry their text. -/
inductive Fault
  | invalidArgument (what : Str)
  | runtimeError (what : Str)
  /-- `std::out_of_range`, thrown by a checked subscript -/
  | outOfRange
  /-- `std::length_error`, thrown by a resize past `max_size` -/
  | lengthError
  | undefined (kind : Undefined)
  deriving DecidableEq, Repr

/-- The outcome of a call. -/
abbrev Outcome := Except Fault

namespace Outcome

variable {α β : Type}

@[simp] theorem ok_bind (a : α) (f : α → Outcome β) : ((Except.ok a : Outcome α) >>= f) = f a := rfl

@[simp] theorem error_bind (e : Fault) (f : α → Outcome β) :
    ((Except.error e : Outcome α) >>= f) = .error e := rfl

@[simp] theorem pure_eq_ok (a : α) : (pure a : Outcome α) = .ok a := rfl

@[simp] theorem throw_eq_error (e : Fault) : (throw e : Outcome α) = .error e := rfl

/-- A sequence of two calls returns exactly when both do. -/
theorem bind_eq_ok {x : Outcome α} {f : α → Outcome β} {b : β} :
    (x >>= f) = .ok b ↔ ∃ a, x = .ok a ∧ f a = .ok b := by
  cases x <;> simp

/-- A sequence of two calls fails in the first call or in the second. -/
theorem bind_eq_error {x : Outcome α} {f : α → Outcome β} {e : Fault} :
    (x >>= f) = .error e ↔ x = .error e ∨ ∃ a, x = .ok a ∧ f a = .error e := by
  cases x <;> simp

/-- `try { ... } catch (const std::exception&) { return ...; }` -/
def orElse (outcome : Outcome α) (caught : α) : Outcome α :=
  match outcome with
  | .error (.undefined kind) => .error (.undefined kind)
  | .error _ => .ok caught
  | .ok a => .ok a

/-- A value other than the one for exceptions is the value of the call. -/
theorem orElse_eq_ok {outcome : Outcome α} {caught a : α} (h : outcome.orElse caught = .ok a) (hNe : a ≠ caught) :
    outcome = .ok a := by
  unfold orElse at h
  split at h
  · cases h
  · exact absurd (Except.ok.inj h).symm hNe
  · exact h

/-- The call returns or throws. -/
def Defined (outcome : Outcome α) : Prop := ∀ kind, outcome ≠ .error (.undefined kind)

/-- The call throws. -/
def Throws (outcome : Outcome α) : Prop := ∃ e, outcome = .error e ∧ ∀ kind, e ≠ .undefined kind

theorem defined_ok (a : α) : Defined (.ok a) := fun _ => nofun

theorem Throws.defined {outcome : Outcome α} (h : outcome.Throws) : outcome.Defined := by
  obtain ⟨e, rfl, hOther⟩ := h
  exact fun kind hEq => hOther kind (Except.error.inj hEq)

theorem not_throws_ok (a : α) : ¬Throws (.ok a) := nofun

/-- A call with defined behaviour that does not throw returns. -/
theorem Defined.returns {outcome : Outcome α} (h : outcome.Defined) (hThrows : ¬outcome.Throws) :
    ∃ a, outcome = .ok a := by
  cases outcome with
  | ok a => exact ⟨a, rfl⟩
  | error e => exact absurd ⟨e, rfl, fun kind hEq => h kind (congrArg Except.error hEq)⟩ hThrows

theorem defined_error_iff {e : Fault} :
    Defined (.error e : Outcome α) ↔ ∀ kind, e ≠ .undefined kind :=
  forall_congr' fun _ => not_congr ⟨Except.error.inj, congrArg Except.error⟩

theorem defined_bind_iff {x : Outcome α} {f : α → Outcome β} :
    (x >>= f).Defined ↔ x.Defined ∧ ∀ a, x = .ok a → (f a).Defined := by
  cases x with
  | ok a => exact ⟨fun h => ⟨defined_ok a, fun _ hEq => Except.ok.inj hEq ▸ h⟩, fun h => h.2 a rfl⟩
  | error e =>
    rw [error_bind, defined_error_iff, defined_error_iff]
    exact ⟨fun h => ⟨h, nofun⟩, fun h => h.1⟩

end Outcome
end Cxx
