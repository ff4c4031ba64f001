import Wwatp.Cxx.Outcome

/-! Calls that change a state step by step. An exception ends the call and leaves the
changes made before it in place. -/
namespace Cxx

/-- A call on a state `σ`: its outcome, and the state it leaves behind. -/
def Effectful (σ α : Type) := σ → Outcome α × σ

namespace Effectful

variable {σ α β : Type}

instance : Monad (Effectful σ) where
  pure a := fun s => (.ok a, s)
  bind x f := fun s =>
    match x s with
    | (.ok a, s') => f a s'
    | (.error e, s') => (.error e, s')

/-- A thrown exception. -/
def raise (e : Fault) : Effectful σ α := fun s => (.error e, s)

/-- A call whose outcome depends on the state and leaves it alone. -/
def inspect (f : σ → Outcome α) : Effectful σ α := fun s => (f s, s)

/-- A change of the state that cannot fail. -/
def change (f : σ → σ) : Effectful σ Unit := fun s => (.ok (), f s)

/-- A look at the state. -/
def look (f : σ → α) : Effectful σ α := fun s => (.ok (f s), s)

/-- A call of another component, which reports its own errors. -/
def call (f : σ → α × σ) : Effectful σ α := fun s => (.ok (f s).1, (f s).2)

/-- `try { ... } catch (const std::exception&) { return ...; }` -/
def orElse (x : Effectful σ α) (caught : α) : Effectful σ α := fun s =>
  match x s with
  | (.error (.undefined kind), s') => (.error (.undefined kind), s')
  | (.error _, s') => (.ok caught, s')
  | (.ok a, s') => (.ok a, s')

/-- A loop that ends at the first element for which the body returns false. -/
def forAll (body : α → Effectful σ Bool) : List α → Effectful σ Bool
  | [] => pure true
  | a :: rest => do
      if ← body a then forAll body rest else return false

/-- A loop over the elements of a list. -/
def forEach (body : α → Effectful σ Unit) : List α → Effectful σ Unit
  | [] => pure ()
  | a :: rest => do
      body a
      forEach body rest

/-- After a call that returns, the next one runs in the state it left. -/
theorem bind_ok {x : Effectful σ α} {f : α → Effectful σ β} {a : α} {s s' : σ}
    (h : x s = (.ok a, s')) : (x >>= f) s = f a s' := by
  change (match x s with
    | (.ok a, s') => f a s'
    | (.error e, s') => (.error e, s')) = _
  rw [h]

/-- A look at the state that returns leaves the rest to run in the same state. -/
theorem bind_inspect {f : σ → Outcome α} {k : α → Effectful σ β} {a : α} {s : σ}
    (h : f s = .ok a) : (inspect f >>= k) s = k a s :=
  bind_ok (by rw [inspect, h])

theorem bind_change (f : σ → σ) (k : Unit → Effectful σ β) (s : σ) :
    (change f >>= k) s = k () (f s) := rfl

/-- A call that throws is the last one. -/
theorem bind_error {x : Effectful σ α} {f : α → Effectful σ β} {e : Fault} {s s' : σ}
    (h : x s = (.error e, s')) : (x >>= f) s = (.error e, s') := by
  change (match x s with
    | (.ok a, s') => f a s'
    | (.error e, s') => (.error e, s')) = _
  rw [h]

/-- Two calls that return one after the other. -/
theorem bind_eq_ok {x : Effectful σ α} {f : α → Effectful σ β} {b : β} {s t : σ} (h : (x >>= f) s = (.ok b, t)) :
    ∃ a s', x s = (.ok a, s') ∧ f a s' = (.ok b, t) := by
  rcases hCall : x s with ⟨e | a, s'⟩
  · rw [bind_error hCall] at h
    cases congrArg Prod.fst h
  · rw [bind_ok hCall] at h
    exact ⟨a, s', rfl, h⟩

theorem bind_congr {x y : Effectful σ α} {s t : σ} (h : x s = y t) (f : α → Effectful σ β) :
    (x >>= f) s = (y >>= f) t := by
  change (match x s with
    | (.ok a, s') => f a s'
    | (.error e, s') => (.error e, s')) = _
  rw [h]
  rfl

theorem forEach_singleton (body : α → Effectful σ Unit) (a : α) : forEach body [a] = body a := by
  funext s
  rcases hBody : body a s with ⟨_ | _, s'⟩
  · exact bind_error hBody
  · exact bind_ok hBody

/-- A loop over the images of some elements. -/
theorem forEach_map (f : α → β) (body : β → Effectful σ Unit) (l : List α) :
    forEach body (l.map f) = forEach (fun a => body (f a)) l := by
  induction l with
  | nil => rfl
  | cons a l ih =>
      rw [List.map_cons, forEach, forEach, ih]

/-- What is returned in the end does not change the state. -/
theorem bind_pure_state (x : Effectful σ α) (f : α → β) (s : σ) :
    ((x >>= fun a => pure (f a)) s).2 = (x s).2 := by
  rcases hCall : x s with ⟨_ | _, s'⟩
  · rw [bind_error hCall]
  · rw [bind_ok hCall]
    rfl

/-- A call keeps an invariant of the state, however it ends. -/
def Keeps (I : σ → Prop) (x : Effectful σ α) : Prop := ∀ s, I s → I (x s).2

section Invariants

variable {I : σ → Prop} {x : Effectful σ α}

theorem keeps_pure (a : α) : Keeps I (pure a : Effectful σ α) := fun _ h => h

theorem keeps_raise (e : Fault) : Keeps I (raise e : Effectful σ α) := fun _ h => h

theorem keeps_inspect (f : σ → Outcome α) : Keeps I (inspect f) := fun _ h => h

theorem keeps_look (f : σ → α) : Keeps I (look f) := fun _ h => h

/-- What holds after the first call and is kept by the second. -/
theorem state_bind {f : α → Effectful σ β} {s : σ} (hx : I (x s).2) (hf : ∀ a, Keeps I (f a)) :
    I ((x >>= f) s).2 := by
  rcases hCall : x s with ⟨e | a, s'⟩
  · rw [bind_error hCall]
    rwa [hCall] at hx
  · rw [bind_ok hCall]
    rw [hCall] at hx
    exact hf a s' hx

/-- A sequence of two calls; the second may rely on what the first returned. -/
theorem keeps_bind {f : α → Effectful σ β} (hx : Keeps I x)
    (hf : ∀ s a, (x s).1 = .ok a → Keeps I (f a)) : Keeps I (x >>= f) := by
  intro s hs
  have hFirst := hx s hs
  rcases hCall : x s with ⟨e | a, s'⟩
  · rw [bind_error hCall]
    rwa [hCall] at hFirst
  · rw [bind_ok hCall]
    rw [hCall] at hFirst
    exact hf s a (by rw [hCall]) s' hFirst

theorem keeps_orElse (hx : Keeps I x) (caught : α) : Keeps I (orElse x caught) := by
  intro s hs
  have hCall := hx s hs
  unfold orElse
  split
  · next h => rwa [h] at hCall
  · next h => rwa [h] at hCall
  · next h => rwa [h] at hCall

theorem keeps_forEach {body : α → Effectful σ Unit} {l : List α} (h : ∀ a ∈ l, Keeps I (body a)) :
    Keeps I (forEach body l) := by
  induction l with
  | nil => exact keeps_pure ()
  | cons a l ih =>
    exact keeps_bind (h a List.mem_cons_self) fun _ _ _ => ih fun b hb => h b (List.mem_cons_of_mem a hb)

theorem keeps_forAll {body : α → Effectful σ Bool} {l : List α} (h : ∀ a ∈ l, Keeps I (body a)) :
    Keeps I (forAll body l) := by
  induction l with
  | nil => exact keeps_pure true
  | cons a l ih =>
    refine keeps_bind (h a List.mem_cons_self) fun _ more _ => ?_
    cases more
    · exact keeps_pure false
    · exact ih fun b hb => h b (List.mem_cons_of_mem a hb)

end Invariants

/-- A loop over changes that cannot fail. -/
theorem forEach_of_ok {body : α → Effectful σ Unit} (step : σ → α → σ)
    (h : ∀ a s, body a s = (.ok (), step s a)) (l : List α) (s : σ) :
    forEach body l s = (.ok (), l.foldl step s) := by
  induction l generalizing s with
  | nil => rfl
  | cons a l ih => rw [forEach, bind_ok (h a s), ih, List.foldl_cons]

end Effectful
end Cxx
