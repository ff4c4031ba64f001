import Mathlib.Data.Set.Insert
import Mathlib.Logic.Function.Basic
import Wwatp.Cxx.Effects

/-! Non-recursive mutexes as one thread meets them. A thread that locks a mutex it holds
already waits for itself; one that only ever locks what it does not hold runs to the end, and
then holds what it held before. -/
namespace Cxx

/-- How a call of a thread ends: with an outcome, or waiting for a mutex that the thread holds. -/
inductive Ending (α : Type)
  | finished (outcome : Outcome α)
  | blocked

/-- What a thread works on: a state, and the mutexes that it holds. -/
structure Holding (μ σ : Type) where
  state : σ
  held : μ → Bool

/-- A call of a thread. -/
def Locking (μ σ α : Type) := Holding μ σ → Ending α × Holding μ σ

namespace Locking

variable {μ σ α β : Type}

instance : Monad (Locking μ σ) where
  pure a := fun s => (.finished (.ok a), s)
  bind x f := fun s =>
    match x s with
    | (.finished (.ok a), s') => f a s'
    | (.finished (.error e), s') => (.finished (.error e), s')
    | (.blocked, s') => (.blocked, s')

/-- A call that locks nothing. -/
def run (x : Effectful σ α) : Locking μ σ α := fun s =>
  (.finished (x s.state).1, { s with state := (x s.state).2 })

/-- A block under a `std::lock_guard`: the mutex is released in the end, also by an exception. -/
def guarded [DecidableEq μ] (m : μ) (body : Locking μ σ α) : Locking μ σ α := fun s =>
  if s.held m then (.blocked, s)
  else
    match body { s with held := Function.update s.held m true } with
    | (.finished outcome, s') => (.finished outcome, { s' with held := Function.update s'.held m false })
    | (.blocked, s') => (.blocked, s')

/-- A loop over the elements of a list. -/
def forEach (body : α → Locking μ σ Unit) : List α → Locking μ σ Unit
  | [] => pure ()
  | a :: rest => do
      body a
      forEach body rest

theorem bind_ok {x : Locking μ σ α} {f : α → Locking μ σ β} {a : α} {s s' : Holding μ σ}
    (h : x s = (.finished (.ok a), s')) : (x >>= f) s = f a s' := by
  change (match x s with
    | (.finished (.ok a), s') => f a s'
    | (.finished (.error e), s') => (.finished (.error e), s')
    | (.blocked, s') => (.blocked, s')) = _
  rw [h]

theorem bind_error {x : Locking μ σ α} {f : α → Locking μ σ β} {e : Fault} {s s' : Holding μ σ}
    (h : x s = (.finished (.error e), s')) : (x >>= f) s = (.finished (.error e), s') := by
  change (match x s with
    | (.finished (.ok a), s') => f a s'
    | (.finished (.error e), s') => (.finished (.error e), s')
    | (.blocked, s') => (.blocked, s')) = _
  rw [h]

theorem bind_blocked {x : Locking μ σ α} {f : α → Locking μ σ β} {s s' : Holding μ σ}
    (h : x s = (.blocked, s')) : (x >>= f) s = (.blocked, s') := by
  change (match x s with
    | (.finished (.ok a), s') => f a s'
    | (.finished (.error e), s') => (.finished (.error e), s')
    | (.blocked, s') => (.blocked, s')) = _
  rw [h]

section Guarded

variable [DecidableEq μ] {m : μ} {body : Locking μ σ α} {s : Holding μ σ}

theorem guarded_of_held (h : s.held m = true) : guarded m body s = (.blocked, s) := by
  rw [guarded, if_pos h]

theorem guarded_of_finished {s' : Holding μ σ} {outcome : Outcome α} (h : s.held m = false)
    (hBody : body { s with held := Function.update s.held m true } = (.finished outcome, s')) :
    guarded m body s = (.finished outcome, { s' with held := Function.update s'.held m false }) := by
  simp only [guarded, h, Bool.false_eq_true, if_false, hBody]

theorem guarded_of_blocked {s' : Holding μ σ} (h : s.held m = false)
    (hBody : body { s with held := Function.update s.held m true } = (.blocked, s')) :
    guarded m body s = (.blocked, s') := by
  simp only [guarded, h, Bool.false_eq_true, if_false, hBody]

/-- Unlocking a mutex that was free before it was locked leaves all as it was. -/
theorem update_unlocked {held : μ → Bool} (h : held m = false) :
    Function.update (Function.update held m true) m false = held := by
  rw [Function.update_idem, ← h, Function.update_eq_self]

theorem guarded_run (h : s.held m = false) (x : Effectful σ α) :
    guarded m (run x) s = (.finished (x s.state).1, { s with state := (x s.state).2 }) := by
  have hRun : guarded m (run x) s = _ := guarded_of_finished h rfl
  rwa [update_unlocked h] at hRun

end Guarded

/-- The call runs to its end and leaves the mutexes as they were. -/
def CompletesFrom (s : Holding μ σ) (x : Locking μ σ α) : Prop :=
  ∃ outcome after, x s = (.finished outcome, ⟨after, s.held⟩)

/-- The call completes wherever some mutexes are free. -/
def Completes (free : Set μ) (x : Locking μ σ α) : Prop :=
  ∀ s, (∀ m ∈ free, s.held m = false) → CompletesFrom s x

section Completes

variable {free : Set μ} {x : Locking μ σ α} {s : Holding μ σ}

theorem CompletesFrom.not_blocked (h : CompletesFrom s x) : (x s).1 ≠ .blocked := by
  obtain ⟨outcome, after, hCall⟩ := h
  rw [hCall]
  nofun

theorem completesFrom_run (x : Effectful σ α) : CompletesFrom s (run x) :=
  ⟨(x s.state).1, (x s.state).2, rfl⟩

theorem completesFrom_bind {f : α → Locking μ σ β} (hx : CompletesFrom s x)
    (hf : ∀ a after, x s = (.finished (.ok a), ⟨after, s.held⟩) → CompletesFrom ⟨after, s.held⟩ (f a)) :
    CompletesFrom s (x >>= f) := by
  obtain ⟨outcome, after, hFirst⟩ := hx
  cases outcome with
  | error e => exact ⟨.error e, after, bind_error hFirst⟩
  | ok a =>
      obtain ⟨outcome', after', hSecond⟩ := hf a after hFirst
      exact ⟨outcome', after', (bind_ok hFirst).trans hSecond⟩

/-- Locking a free mutex leaves the others as they are to the block. -/
theorem completesFrom_guarded [DecidableEq μ] {m : μ} (hm : s.held m = false)
    (hx : CompletesFrom { s with held := Function.update s.held m true } x) :
    CompletesFrom s (guarded m x) := by
  obtain ⟨outcome, after, hBody⟩ := hx
  refine ⟨outcome, after, ?_⟩
  rw [guarded_of_finished hm hBody]
  rw [update_unlocked hm]

theorem completes_pure (a : α) : Completes free (pure a : Locking μ σ α) :=
  fun s _ => ⟨.ok a, s.state, rfl⟩

theorem completes_run (x : Effectful σ α) : Completes free (run x : Locking μ σ α) :=
  fun _ _ => completesFrom_run x

theorem completes_bind {f : α → Locking μ σ β} (hx : Completes free x)
    (hf : ∀ a, Completes free (f a)) : Completes free (x >>= f) :=
  fun s hFree => completesFrom_bind (hx s hFree) fun a after _ => hf a ⟨after, s.held⟩ hFree

theorem completes_forEach {body : α → Locking μ σ Unit} {l : List α}
    (h : ∀ a ∈ l, Completes free (body a)) : Completes free (forEach body l) := by
  induction l with
  | nil => exact completes_pure ()
  | cons a l ih =>
      exact completes_bind (h a List.mem_cons_self) fun _ => ih fun b hb => h b (List.mem_cons_of_mem a hb)

theorem completes_guarded [DecidableEq μ] {m : μ} (hm : m ∈ free) (hx : Completes (free \ {m}) x) :
    Completes free (guarded m x) := by
  intro s hFree
  refine completesFrom_guarded (hFree m hm) (hx _ ?_)
  rintro n ⟨hn, hNe⟩
  exact (Function.update_of_ne hNe true s.held).trans (hFree n hn)

end Completes

/-- A call keeps an invariant of the state, however it ends. -/
def Keeps (I : σ → Prop) (x : Locking μ σ α) : Prop := ∀ s, I s.state → I (x s).2.state

section Keeps

variable {I : σ → Prop} {x : Locking μ σ α}

theorem keeps_pure (a : α) : Keeps I (pure a : Locking μ σ α) := fun _ h => h

theorem keeps_run {x : Effectful σ α} (h : Effectful.Keeps I x) : Keeps I (run x : Locking μ σ α) :=
  fun s hs => h s.state hs

theorem keeps_bind {f : α → Locking μ σ β} (hx : Keeps I x) (hf : ∀ a, Keeps I (f a)) :
    Keeps I (x >>= f) := by
  intro s hs
  have hFirst := hx s hs
  rcases hCall : x s with ⟨(e | a) | _, s'⟩
  · rw [bind_error hCall]
    rwa [hCall] at hFirst
  · rw [bind_ok hCall]
    rw [hCall] at hFirst
    exact hf a s' hFirst
  · rw [bind_blocked hCall]
    rwa [hCall] at hFirst

theorem keeps_forEach {body : α → Locking μ σ Unit} {l : List α} (h : ∀ a ∈ l, Keeps I (body a)) :
    Keeps I (forEach body l) := by
  induction l with
  | nil => exact keeps_pure ()
  | cons a l ih =>
      exact keeps_bind (h a List.mem_cons_self) fun _ => ih fun b hb => h b (List.mem_cons_of_mem a hb)

theorem keeps_guarded [DecidableEq μ] {m : μ} (hx : Keeps I x) : Keeps I (guarded m x) := by
  intro s hs
  have hBody := hx { s with held := Function.update s.held m true } hs
  unfold guarded
  split_ifs
  · exact hs
  · split
    · next hRun => rwa [hRun] at hBody
    · next hRun => rwa [hRun] at hBody

end Keeps

end Locking
end Cxx
