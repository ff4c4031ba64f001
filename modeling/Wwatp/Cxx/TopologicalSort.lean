import Mathlib

/-! Kahn's algorithm over lists of dependencies that can name one another several times. A degree
counts every mention, and each finished dependency lowers it once. -/
namespace Cxx

variable {α : Type} [DecidableEq α]

/-- The queue, the names that are finished, and the degrees. -/
structure Kahn (α : Type) where
  queue : List α
  result : List α
  inDegree : α → ℤ

namespace Kahn

variable {names : List α} {dependencies : α → List α} {s : Kahn α}

/-- A finished name lowers the degree of one that depends on it. -/
def lower (dependencies : α → List α) (current : α) (s : Kahn α) (name : α) : Kahn α :=
  if current ∈ dependencies name then
    let degree := s.inDegree name - 1
    { s with
      inDegree := Function.update s.inDegree name degree
      queue := if degree = 0 then s.queue ++ [name] else s.queue }
  else s

/-- One turn of the loop, for the front of the queue. -/
def finish (names : List α) (dependencies : α → List α) (current : α) (rest : List α) (s : Kahn α) : Kahn α :=
  names.foldl (lower dependencies current) { s with queue := rest, result := s.result ++ [current] }

def run (names : List α) (dependencies : α → List α) : ℕ → Kahn α → Option (Kahn α)
  | 0, _ => none
  | fuel + 1, s =>
    match s.queue with
    | [] => some s
    | current :: rest => run names dependencies fuel (s.finish names dependencies current rest)

/-- The names without dependencies are queued. -/
def start (names : List α) (dependencies : α → List α) : Kahn α where
  queue := names.filter fun name => ((dependencies name).length : ℤ) = 0
  result := []
  inDegree name := (dependencies name).length

/-- Every name once, with its dependencies before it. -/
structure Orders (names : List α) (dependencies : α → List α) (order : List α) : Prop where
  perm : order.Perm names
  before : ∀ front name back, order = front ++ name :: back → ∀ d ∈ dependencies name, d ∈ front

/-- No name depends on itself, through whatever others. -/
def Acyclic (names : List α) (dependencies : α → List α) : Prop :=
  ∀ name, ¬Relation.TransGen (fun a b => a ∈ names ∧ b ∈ dependencies a) name name

theorem foldl_lower (hNames : names.Nodup) (dependencies : α → List α) (current : α) (s : Kahn α) :
    (names.foldl (lower dependencies current) s).result = s.result ∧
      (names.foldl (lower dependencies current) s).queue =
        s.queue ++ names.filter (fun name => current ∈ dependencies name ∧ s.inDegree name = 1) ∧
      ∀ name, (names.foldl (lower dependencies current) s).inDegree name =
        if name ∈ names ∧ current ∈ dependencies name then s.inDegree name - 1 else s.inDegree name := by
  induction names generalizing s with
  | nil => simp
  | cons first rest ih =>
      obtain ⟨hFirst, hRest⟩ := List.nodup_cons.mp hNames
      obtain ⟨hResult, hQueue, hDegree⟩ := ih hRest (lower dependencies current s first)
      have hKept (name : α) (hName : name ∈ rest) : (lower dependencies current s first).inDegree name = s.inDegree name := by
        unfold lower
        split_ifs
        · exact Function.update_of_ne (fun hSame => hFirst (by rwa [← hSame])) _ _
        · rfl
      have hFilter : rest.filter (fun name => current ∈ dependencies name ∧
          (lower dependencies current s first).inDegree name = 1) =
          rest.filter (fun name => current ∈ dependencies name ∧ s.inDegree name = 1) := by
        apply List.filter_congr
        intro name hName
        rw [hKept name hName]
      rw [List.foldl_cons, hResult, hQueue, hFilter]
      refine ⟨?_, ?_, fun name => ?_⟩
      · unfold lower
        split_ifs <;> rfl
      · rw [List.filter_cons]
        unfold lower
        by_cases hDepends : current ∈ dependencies first
        · by_cases hLast : s.inDegree first = 1
          · simp [hDepends, hLast]
          · have hMore : ¬s.inDegree first - 1 = 0 := by omega
            simp [hDepends, hLast, hMore]
        · simp [hDepends]
      · rw [hDegree]
        by_cases hName : name = first
        · subst hName
          rw [if_neg fun h => hFirst h.1]
          unfold lower
          by_cases hDepends : current ∈ dependencies name <;> simp [hDepends]
        · have hSame : (lower dependencies current s first).inDegree name = s.inDegree name := by
            unfold lower
            split_ifs
            · exact Function.update_of_ne hName _ _
            · rfl
          simp [hSame, hName]

/-- What holds before every turn of the loop. -/
structure Invariant (names : List α) (dependencies : α → List α) (s : Kahn α) : Prop where
  nodup : (s.result ++ s.queue).Nodup
  degree : ∀ name ∈ names, s.inDegree name =
    (dependencies name).length - (s.result.filter fun d => d ∈ dependencies name).length
  ready : ∀ name, name ∈ s.result ++ s.queue ↔ name ∈ names ∧ s.inDegree name = 0
  before : ∀ front name back, s.result = front ++ name :: back → ∀ d ∈ dependencies name, d ∈ front

/-- A degree of zero says that no dependency is missing and none is named twice. -/
theorem Invariant.of_degree_zero (h : Invariant names dependencies s) {name : α} (hName : name ∈ names)
    (hZero : s.inDegree name = 0) : (∀ d ∈ dependencies name, d ∈ s.result) ∧ (dependencies name).Nodup := by
  have hDegree := h.degree name hName
  have hLength : (dependencies name).length = (s.result.filter fun d => d ∈ dependencies name).length := by omega
  have hNodup : (s.result.filter fun d => d ∈ dependencies name).Nodup :=
    (List.nodup_append.mp h.nodup).1.filter _
  have hPerm : (s.result.filter fun d => d ∈ dependencies name).Perm (dependencies name) := by
    refine (List.subperm_of_subset hNodup fun d hd => ?_).perm_of_length_le (Nat.le_of_eq hLength)
    exact of_decide_eq_true (List.mem_filter.mp hd).2
  exact ⟨fun d hd => (List.mem_filter.mp (hPerm.mem_iff.mpr hd)).1, hPerm.nodup_iff.mp hNodup⟩

theorem invariant_start (dependencies : α → List α) (hNames : names.Nodup) : Invariant names dependencies (start names dependencies) where
  nodup := hNames.filter _
  degree name _ := by simp [start]
  ready name := by simp [start]
  before front name back h := by simp [start] at h

theorem Invariant.finish (h : Invariant names dependencies s) (hNames : names.Nodup) {current : α} {rest : List α}
    (hQueue : s.queue = current :: rest) : Invariant names dependencies (s.finish names dependencies current rest) := by
  obtain ⟨hResult, hQueue', hDegree⟩ := foldl_lower hNames dependencies current
    { s with queue := rest, result := s.result ++ [current] }
  have hReady : current ∈ names ∧ s.inDegree current = 0 := by
    rw [← h.ready, hQueue]
    simp
  have hDone := (h.of_degree_zero hReady.1 hReady.2).1
  have hNodup := h.nodup
  rw [hQueue] at hNodup
  have hNew : current ∉ s.result := fun hMem => (List.nodup_append.mp hNodup).2.2 _ hMem _ List.mem_cons_self rfl
  -- a name that is ready does not wait for the one that is finished now
  have hFree (name : α) (hName : name ∈ names) (hZero : s.inDegree name = 0) : current ∉ dependencies name :=
    fun hDepends => hNew ((h.of_degree_zero hName hZero).1 current hDepends)
  have hSplit : s.result ++ [current] ++ rest = s.result ++ s.queue := by rw [hQueue]; simp
  unfold Kahn.finish
  refine ⟨?_, fun name hName => ?_, fun name => ?_, ?_⟩
  · rw [hResult, hQueue', ← List.append_assoc, hSplit]
    refine List.nodup_append.mpr ⟨h.nodup, hNames.filter _, fun a ha b hb hSame => ?_⟩
    subst hSame
    have hOne := (of_decide_eq_true (List.mem_filter.mp hb).2).2
    have hZero := ((h.ready a).mp ha).2
    dsimp only at hOne
    omega
  · have hBefore := h.degree name hName
    rw [hDegree, hResult, List.filter_append]
    dsimp only
    by_cases hDepends : current ∈ dependencies name
    · have hOne : [current].filter (fun d => d ∈ dependencies name) = [current] := by simp [hDepends]
      rw [if_pos ⟨hName, hDepends⟩, hOne, List.length_append, List.length_singleton]
      omega
    · have hNone : [current].filter (fun d => d ∈ dependencies name) = [] := by simp [hDepends]
      rw [if_neg fun hBoth => hDepends hBoth.2, hNone, List.append_nil]
      exact hBefore
  · rw [hResult, hQueue', ← List.append_assoc, hSplit, List.mem_append, h.ready, hDegree, List.mem_filter]
    dsimp only
    by_cases hName : name ∈ names
    · by_cases hDepends : current ∈ dependencies name
      · rw [if_pos ⟨hName, hDepends⟩]
        have hNotZero : s.inDegree name ≠ 0 := fun hZero => hFree name hName hZero hDepends
        simp only [hName, hDepends, hNotZero, decide_eq_true_eq, true_and, false_or]
        omega
      · simp [hName, hDepends]
    · simp [hName]
  · rw [hResult]
    intro front name back hEq d hd
    rcases List.eq_nil_or_concat back with rfl | ⟨back, last, rfl⟩
    · obtain ⟨rfl, hLast⟩ := List.append_inj' hEq rfl
      obtain rfl := List.singleton_inj.mp hLast
      exact hDone d hd
    · have hEq : s.result ++ [current] = front ++ name :: back ++ [last] := by simpa using hEq
      exact h.before front name back (List.append_inj' hEq rfl).1 d hd

theorem Invariant.length_le (h : Invariant names dependencies s) : (s.result ++ s.queue).length ≤ names.length :=
  (List.subperm_of_subset h.nodup fun name hName => ((h.ready name).mp hName).1).length_le

/-- The loop ends, with nothing in the queue. -/
theorem run_ends (hNames : names.Nodup) (fuel : ℕ) (h : Invariant names dependencies s)
    (hFuel : names.length < fuel + s.result.length) :
    ∃ s', run names dependencies fuel s = some s' ∧ Invariant names dependencies s' ∧ s'.queue = [] := by
  induction fuel generalizing s with
  | zero =>
      have hLe := h.length_le
      rw [List.length_append] at hLe
      omega
  | succ fuel ih =>
      rw [run]
      cases hQueue : s.queue with
      | nil => exact ⟨s, rfl, h, hQueue⟩
      | cons current rest =>
          have hResult := (foldl_lower hNames dependencies current
            { s with queue := rest, result := s.result ++ [current] }).1
          refine ih (h.finish hNames hQueue) ?_
          rw [Kahn.finish, hResult, List.length_append, List.length_singleton]
          omega

theorem mem_result (h : Invariant names dependencies s) (hEmpty : s.queue = []) (name : α) :
    name ∈ s.result ↔ name ∈ names ∧ s.inDegree name = 0 := by
  rw [← h.ready, hEmpty, List.append_nil]

/-- A full result is an order, and shows that no dependency is named twice. -/
theorem Invariant.orders (h : Invariant names dependencies s) (hEmpty : s.queue = [])
    (hFull : s.result.length = names.length) :
    Orders names dependencies s.result ∧ ∀ name ∈ names, (dependencies name).Nodup := by
  have hNodup := h.nodup
  rw [hEmpty, List.append_nil] at hNodup
  have hPerm : s.result.Perm names :=
    (List.subperm_of_subset hNodup fun name hName => ((mem_result h hEmpty name).mp hName).1).perm_of_length_le
      (Nat.le_of_eq hFull.symm)
  refine ⟨⟨hPerm, h.before⟩, fun name hName => ?_⟩
  exact (h.of_degree_zero hName ((mem_result h hEmpty name).mp (hPerm.mem_iff.mpr hName)).2).2

/-- Something that can be ordered has no cycles, and no dependency is missing. -/
theorem Orders.acyclic {order : List α} (h : Orders names dependencies order) (hNames : names.Nodup) :
    Acyclic names dependencies ∧ ∀ name ∈ names, ∀ d ∈ dependencies name, d ∈ names := by
  have hNodup : order.Nodup := h.perm.nodup_iff.mpr hNames
  have hEarlier {a b : α} (hEdge : a ∈ names ∧ b ∈ dependencies a) : order.idxOf b < order.idxOf a ∧ b ∈ names := by
    obtain ⟨front, back, hSplit⟩ := List.append_of_mem (h.perm.mem_iff.mpr hEdge.1)
    have hFront := h.before front a back hSplit b hEdge.2
    rw [hSplit] at hNodup
    have hLater : a ∉ front := fun hMem => (List.nodup_append.mp hNodup).2.2 _ hMem _ List.mem_cons_self rfl
    refine ⟨?_, h.perm.mem_iff.mp (by rw [hSplit]; exact List.mem_append_left _ hFront)⟩
    rw [hSplit, List.idxOf_append_of_mem hFront, List.idxOf_append_of_notMem hLater]
    have hLt := List.idxOf_lt_length_of_mem hFront
    omega
  refine ⟨fun name hCycle => ?_, fun name hName d hd => (hEarlier ⟨hName, hd⟩).2⟩
  have hLess {a b : α} (hPath : Relation.TransGen (fun a b => a ∈ names ∧ b ∈ dependencies a) a b) :
      order.idxOf b < order.idxOf a := by
    induction hPath with
    | single hEdge => exact (hEarlier hEdge).1
    | tail _ hEdge ih => exact (hEarlier hEdge).1.trans ih
  exact Nat.lt_irrefl _ (hLess hCycle)

theorem Invariant.dependency_mem (h : Invariant names dependencies s) (hEmpty : s.queue = []) {name d : α}
    (hName : name ∈ s.result) (hd : d ∈ dependencies name) : d ∈ s.result := by
  obtain ⟨hKnown, hZero⟩ := (mem_result h hEmpty name).mp hName
  exact (h.of_degree_zero hKnown hZero).1 d hd

/-- A finished name has all that it depends on before it. -/
theorem Invariant.idxOf_lt (h : Invariant names dependencies s) {name d : α} (hName : name ∈ s.result)
    (hd : d ∈ dependencies name) : s.result.idxOf d < s.result.idxOf name := by
  have hNodup := (List.nodup_append.mp h.nodup).1
  obtain ⟨front, back, hSplit⟩ := List.append_of_mem hName
  have hFront := h.before front name back hSplit d hd
  rw [hSplit] at hNodup
  have hLater : name ∉ front := fun hMem => (List.nodup_append.mp hNodup).2.2 _ hMem _ List.mem_cons_self rfl
  rw [hSplit, List.idxOf_append_of_mem hFront, List.idxOf_append_of_notMem hLater]
  have hLt := List.idxOf_lt_length_of_mem hFront
  omega

/-- What a finished name leads to is finished before it. -/
theorem Invariant.finished_of_transGen (h : Invariant names dependencies s) (hEmpty : s.queue = []) {name last : α}
    (hName : name ∈ s.result) (hPath : Relation.TransGen (fun a b => a ∈ names ∧ b ∈ dependencies a) name last) :
    last ∈ s.result ∧ s.result.idxOf last < s.result.idxOf name := by
  induction hPath with
  | single hEdge => exact ⟨h.dependency_mem hEmpty hName hEdge.2, h.idxOf_lt hName hEdge.2⟩
  | tail _ hEdge ih =>
      obtain ⟨hMiddle, hEarlier⟩ := ih
      exact ⟨h.dependency_mem hEmpty hMiddle hEdge.2, (h.idxOf_lt hMiddle hEdge.2).trans hEarlier⟩

/-- A name is left over that waits for one that is left over, or for one dependency twice. -/
theorem Invariant.waits (h : Invariant names dependencies s) (hEmpty : s.queue = []) {name : α} (hName : name ∈ names)
    (hLeft : name ∉ s.result) : ¬(dependencies name).Nodup ∨ ∃ d ∈ dependencies name, d ∉ s.result := by
  by_contra hNot
  push Not at hNot
  obtain ⟨hOnce, hAll⟩ := hNot
  have hNodup := h.nodup
  rw [hEmpty, List.append_nil] at hNodup
  have hPerm : (s.result.filter fun d => d ∈ dependencies name).Perm (dependencies name) := by
    refine (List.perm_ext_iff_of_nodup (hNodup.filter _) hOnce).mpr fun d => ?_
    rw [List.mem_filter, decide_eq_true_eq]
    exact ⟨fun hd => hd.2, fun hd => ⟨hAll d hd, hd⟩⟩
  refine hLeft ((mem_result h hEmpty name).mpr ⟨hName, ?_⟩)
  rw [h.degree name hName, hPerm.length_eq, Int.sub_self]

theorem Invariant.exists_leftOver (h : Invariant names dependencies s) (hNames : names.Nodup) (hEmpty : s.queue = [])
    (hLength : s.result.length ≠ names.length) : ∃ name ∈ names, name ∉ s.result := by
  by_contra hNone
  push Not at hNone
  have hLe := h.length_le
  rw [hEmpty, List.append_nil] at hLe
  exact hLength (Nat.le_antisymm hLe (List.subperm_of_subset hNames hNone).length_le)

/-- The names that are left over are those that lead to a cycle, or to a name with a dependency twice. -/
theorem Invariant.not_mem_result_iff (h : Invariant names dependencies s) (hEmpty : s.queue = [])
    (hKnown : ∀ name ∈ names, ∀ d ∈ dependencies name, d ∈ names) {name : α} (hName : name ∈ names) :
    name ∉ s.result ↔ ∃ last, Relation.ReflTransGen (fun a b => a ∈ names ∧ b ∈ dependencies a) name last ∧
      (¬(dependencies last).Nodup ∨ Relation.TransGen (fun a b => a ∈ names ∧ b ∈ dependencies a) last last) := by
  constructor
  · intro hLeft
    by_contra hNone
    push Not at hNone
    -- without a cycle in reach, one of the names in reach waits for nothing that is left over
    let Deep : {a // Relation.ReflTransGen (fun a b => a ∈ names ∧ b ∈ dependencies a) name a ∧ a ∈ names} →
        {a // Relation.ReflTransGen (fun a b => a ∈ names ∧ b ∈ dependencies a) name a ∧ a ∈ names} → Prop :=
      fun b a => Relation.TransGen (fun a b => a ∈ names ∧ b ∈ dependencies a) a.1 b.1
    have hTrans : IsTrans _ Deep := ⟨fun _ _ _ hab hbc => hbc.trans hab⟩
    have hIrrefl : Std.Irrefl Deep := ⟨fun a => (hNone a.1 a.2.1).2⟩
    have hFinite : Finite {a // Relation.ReflTransGen (fun a b => a ∈ names ∧ b ∈ dependencies a) name a ∧ a ∈ names} :=
      names.finite_toSet.subset fun _ hMem => hMem.2
    obtain ⟨⟨least, hReach, hLeast⟩, hOut, hMin⟩ := (Finite.wellFounded_of_trans_of_irrefl Deep).has_min
      {a | a.1 ∉ s.result} ⟨⟨name, .refl, hName⟩, hLeft⟩
    rcases h.waits hEmpty hLeast hOut with hTwice | ⟨d, hd, hWaiting⟩
    · exact hTwice (hNone least hReach).1
    · exact hMin ⟨d, hReach.tail ⟨hLeast, hd⟩, hKnown least hLeast d hd⟩ hWaiting (.single ⟨hLeast, hd⟩)
  · rintro ⟨last, hReach, hStuck⟩ hFinished
    have hLast : last ∈ s.result := by
      rcases Relation.reflTransGen_iff_eq_or_transGen.mp hReach with rfl | hPath
      · exact hFinished
      · exact (h.finished_of_transGen hEmpty hFinished hPath).1
    obtain ⟨hMem, hZero⟩ := (mem_result h hEmpty last).mp hLast
    rcases hStuck with hTwice | hCycle
    · exact hTwice (h.of_degree_zero hMem hZero).2
    · exact Nat.lt_irrefl _ (h.finished_of_transGen hEmpty hLast hCycle).2

/-- Without cycles, missing and repeated dependencies everything is finished. -/
theorem Invariant.full (h : Invariant names dependencies s) (hEmpty : s.queue = [])
    (hAcyclic : Acyclic names dependencies) (hKnown : ∀ name ∈ names, ∀ d ∈ dependencies name, d ∈ names)
    (hOnce : ∀ name ∈ names, (dependencies name).Nodup) : ∀ name ∈ names, name ∈ s.result := by
  intro name hName
  by_contra hLeft
  obtain ⟨last, hReach, hStuck⟩ := (h.not_mem_result_iff hEmpty hKnown hName).mp hLeft
  have hLast : last ∈ names := by
    rcases hReach.cases_tail with rfl | ⟨before, -, hEdge⟩
    · exact hName
    · exact hKnown before hEdge.1 last hEdge.2
  rcases hStuck with hTwice | hCycle
  · exact hTwice (hOnce last hLast)
  · exact hAcyclic last hCycle

/-- The algorithm finishes all names exactly when there are no cycles and no dependency is named
twice. -/
theorem full_iff (hNames : names.Nodup) (h : Invariant names dependencies s) (hEmpty : s.queue = [])
    (hKnown : ∀ name ∈ names, ∀ d ∈ dependencies name, d ∈ names) :
    s.result.length = names.length ↔ Acyclic names dependencies ∧ ∀ name ∈ names, (dependencies name).Nodup := by
  constructor
  · intro hFull
    obtain ⟨hOrders, hOnce⟩ := h.orders hEmpty hFull
    exact ⟨(hOrders.acyclic hNames).1, hOnce⟩
  · rintro ⟨hAcyclic, hOnce⟩
    have hLe := h.length_le
    rw [hEmpty, List.append_nil] at hLe
    exact Nat.le_antisymm hLe (List.subperm_of_subset hNames (h.full hEmpty hAcyclic hKnown hOnce)).length_le

end Kahn
end Cxx
