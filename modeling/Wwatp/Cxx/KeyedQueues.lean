import Mathlib

/-! Queues kept in a `std::map`: values are appended to the queue of a key, and taken from
the fronts of the queues of several keys, up to a number for all of them together. -/
namespace Cxx

/-- A map from keys to queues. -/
abbrev KeyedQueues (K V : Type) [Ord K] := Std.ExtTreeMap K (List V)

namespace KeyedQueues

variable {K V : Type} [Ord K] [Std.TransOrd K] [Std.LawfulEqOrd K] [DecidableEq K]

/-- The queue of a key; a key without an entry has an empty one. -/
def queued (q : KeyedQueues K V) (key : K) : List V := q[key]?.getD []

/-- The values appended to the queue of a key, which gets an entry if it has none. -/
def append (q : KeyedQueues K V) (key : K) (values : List V) : KeyedQueues K V :=
  q.insert key (q.queued key ++ values)

/-- Up to `n` values taken from the fronts of the queues of the keys in turn, kept apart by
key. An entry whose queue is left empty is erased. -/
def takeEach (q : KeyedQueues K V) : List K → ℕ → KeyedQueues K V × List (K × List V)
  | [], _ => (q, [])
  | key :: keys, n =>
    match q[key]? with
    | none => takeEach q keys n
    | some queue =>
      let count := min n queue.length
      let rest := queue.drop count
      let left : KeyedQueues K V := if rest = [] then q.erase key else q.insert key rest
      let (last, more) := takeEach left keys (n - count)
      (last, (key, queue.take count) :: more)

/-- What was taken from the queue of a key. -/
def takenFrom (pieces : List (K × List V)) (key : K) : List V :=
  (pieces.filter (·.1 = key)).flatMap Prod.snd

theorem queued_append (q : KeyedQueues K V) (key : K) (values : List V) :
    (q.append key values).queued = Function.update q.queued key (q.queued key ++ values) := by
  funext other
  rw [queued, append, Std.ExtTreeMap.getElem?_insert, Function.update_apply]
  by_cases hKey : key = other
  · rw [if_pos (Std.LawfulEqCmp.compare_eq_iff_eq.mpr hKey), if_pos hKey.symm]
    rfl
  · rw [if_neg (mt Std.LawfulEqCmp.compare_eq_iff_eq.mp hKey), if_neg (Ne.symm hKey)]
    rfl

theorem queued_erase (q : KeyedQueues K V) (key : K) :
    queued (q.erase key) = Function.update q.queued key [] := by
  funext other
  rw [queued, Std.ExtTreeMap.getElem?_erase, Function.update_apply]
  by_cases hKey : key = other
  · rw [if_pos (Std.LawfulEqCmp.compare_eq_iff_eq.mpr hKey), if_pos hKey.symm]
    rfl
  · rw [if_neg (mt Std.LawfulEqCmp.compare_eq_iff_eq.mp hKey), if_neg (Ne.symm hKey)]
    rfl

theorem queued_insert (q : KeyedQueues K V) (key : K) (values : List V) :
    queued (q.insert key values) = Function.update q.queued key values := by
  funext other
  rw [queued, Std.ExtTreeMap.getElem?_insert, Function.update_apply]
  by_cases hKey : key = other
  · rw [if_pos (Std.LawfulEqCmp.compare_eq_iff_eq.mpr hKey), if_pos hKey.symm]
    rfl
  · rw [if_neg (mt Std.LawfulEqCmp.compare_eq_iff_eq.mp hKey), if_neg (Ne.symm hKey)]
    rfl

/-- One round of taking, on the queues. -/
theorem takeEach_cons (q : KeyedQueues K V) (key : K) (keys : List K) (n : ℕ) :
    ∃ left : KeyedQueues K V, left.queued = Function.update q.queued key ((q.queued key).drop n) ∧
      (q.takeEach (key :: keys) n).1 = (left.takeEach keys (n - (q.queued key).length)).1 ∧
      (q[key]? = none ∧ (q.takeEach (key :: keys) n).2 =
          (left.takeEach keys (n - (q.queued key).length)).2 ∨
        (q.takeEach (key :: keys) n).2 = (key, (q.queued key).take n) ::
          (left.takeEach keys (n - (q.queued key).length)).2) := by
  cases hQueue : q[key]? with
  | none =>
    have hEmpty : q.queued key = [] := by rw [queued, hQueue]; rfl
    refine ⟨q, ?_, ?_, .inl ⟨rfl, ?_⟩⟩
    · rw [hEmpty, List.drop_nil, ← hEmpty, Function.update_eq_self]
    · rw [takeEach, hQueue, hEmpty]
      rfl
    · rw [takeEach, hQueue, hEmpty]
      rfl
  | some queue =>
    have hQueued : q.queued key = queue := by rw [queued, hQueue]; rfl
    have hLeft : n - min n queue.length = n - queue.length := by omega
    have hTake : queue.take (min n queue.length) = queue.take n := by
      rw [← List.take_take, List.take_length]
    have hDrop : queue.drop (min n queue.length) = queue.drop n := by
      rcases Nat.le_total n queue.length with hLess | hMore
      · rw [Nat.min_eq_left hLess]
      · rw [Nat.min_eq_right hMore, List.drop_length, List.drop_eq_nil_of_le hMore]
    refine ⟨if queue.drop n = [] then q.erase key else q.insert key (queue.drop n), ?_, ?_, .inr ?_⟩
    · rw [hQueued]
      split_ifs with hAll
      · rw [queued_erase, hAll]
      · rw [queued_insert]
    · rw [takeEach, hQueue, hQueued]
      dsimp only
      rw [hLeft, hDrop]
    · rw [takeEach, hQueue, hQueued]
      dsimp only
      rw [hLeft, hDrop, hTake]

/-- What is taken from a queue and what stays in it is what it held. -/
theorem takenFrom_append_queued (q : KeyedQueues K V) (keys : List K) (n : ℕ) (key : K) :
    takenFrom (q.takeEach keys n).2 key ++ (q.takeEach keys n).1.queued key = q.queued key := by
  induction keys generalizing q n with
  | nil => rfl
  | cons first keys ih =>
    obtain ⟨left, hLeft, hLast, hTaken⟩ := takeEach_cons q first keys n
    have hRest := ih left (n - (q.queued first).length)
    rw [hLeft] at hRest
    rw [hLast]
    rcases hTaken with ⟨hNone, hTaken⟩ | hTaken
    · rw [hTaken, hRest]
      have hEmpty : q.queued first = [] := by rw [queued, hNone]; rfl
      rw [hEmpty, List.drop_nil, ← hEmpty, Function.update_eq_self]
    · rw [hTaken, takenFrom, List.filter_cons]
      by_cases hKey : first = key
      · subst hKey
        rw [Function.update_self] at hRest
        rw [if_pos (decide_eq_true rfl), List.flatMap_cons, List.append_assoc]
        exact (congrArg _ hRest).trans (List.take_append_drop n _)
      · rw [Function.update_of_ne (Ne.symm hKey)] at hRest
        rw [if_neg (by simpa using hKey)]
        exact hRest

omit [DecidableEq K] in
/-- Taking makes no entries. -/
theorem mem_of_mem_takeEach {q : KeyedQueues K V} {keys : List K} {n : ℕ} {key : K} (h : key ∈ (q.takeEach keys n).1) :
    key ∈ q := by
  induction keys generalizing q n with
  | nil => exact h
  | cons first keys ih =>
    rw [takeEach] at h
    split at h
    · exact ih h
    · next queue hQueue =>
      have hLeft := ih h
      split_ifs at hLeft
      · exact (Std.ExtTreeMap.mem_erase.mp hLeft).2
      · rcases Std.ExtTreeMap.mem_insert.mp hLeft with hFirst | hKey
        · obtain rfl := Std.LawfulEqCmp.compare_eq_iff_eq.mp hFirst
          rw [Std.ExtTreeMap.mem_iff_isSome_getElem?, hQueue]
          rfl
        · exact hKey

/-- The queue of one key, after values have been taken from it alone. -/
theorem queued_takeEach_singleton (q : KeyedQueues K V) (key : K) (n : ℕ) :
    (q.takeEach [key] n).1.queued key = (q.queued key).drop n := by
  obtain ⟨left, hLeft, hLast, -⟩ := takeEach_cons q key [] n
  rw [hLast, takeEach, hLeft, Function.update_self]

/-- The queues of other keys stay as they are. -/
theorem queued_takeEach_of_not_mem (q : KeyedQueues K V) {keys : List K} (n : ℕ) {key : K} (h : key ∉ keys) :
    (q.takeEach keys n).1.queued key = q.queued key := by
  induction keys generalizing q n with
  | nil => rfl
  | cons first keys ih =>
    obtain ⟨hFirst, hRest⟩ := List.ne_and_not_mem_of_not_mem_cons h
    obtain ⟨left, hLeft, hLast, -⟩ := takeEach_cons q first keys n
    rw [hLast, ih left _ hRest, hLeft, Function.update_of_ne hFirst]

theorem length_takeEach_le (q : KeyedQueues K V) (keys : List K) (n : ℕ) :
    ((q.takeEach keys n).2.flatMap Prod.snd).length ≤ n := by
  induction keys generalizing q n with
  | nil => exact Nat.zero_le n
  | cons first keys ih =>
    obtain ⟨left, -, -, hTaken⟩ := takeEach_cons q first keys n
    have hRest := ih left (n - (q.queued first).length)
    rcases hTaken with ⟨-, hTaken⟩ | hTaken
    · rw [hTaken]
      omega
    · rw [hTaken, List.flatMap_cons, List.length_append, List.length_take]
      omega

/-- The values that are next in line when the keys are gone through in turn. -/
def nextInLine (queue : K → List V) : List K → ℕ → List V
  | [], _ => []
  | key :: keys, n => (queue key).take n ++ nextInLine queue keys (n - (queue key).length)

omit [Ord K] [Std.TransOrd K] [Std.LawfulEqOrd K] [DecidableEq K] in
theorem nextInLine_congr {queue queue' : K → List V} {keys : List K}
    (h : ∀ key ∈ keys, queue key = queue' key) (n : ℕ) :
    nextInLine queue keys n = nextInLine queue' keys n := by
  induction keys generalizing n with
  | nil => rfl
  | cons first keys ih =>
    obtain ⟨hFirst, hRest⟩ := List.forall_mem_cons.mp h
    rw [nextInLine, nextInLine, hFirst, ih hRest]

omit [Ord K] [Std.TransOrd K] [Std.LawfulEqOrd K] [DecidableEq K] in
theorem nextInLine_append (queue : K → List V) (keys more : List K) (n : ℕ) :
    nextInLine queue (keys ++ more) n = nextInLine queue keys n ++
      nextInLine queue more (n - (keys.map fun key => (queue key).length).sum) := by
  induction keys generalizing n with
  | nil => rfl
  | cons first keys ih =>
    rw [List.cons_append, nextInLine, nextInLine, ih, List.map_cons, List.sum_cons, Nat.sub_sub,
      List.append_assoc]

/-- From distinct keys the values next in line are taken. -/
theorem flatMap_takeEach (q : KeyedQueues K V) {keys : List K} (hKeys : keys.Nodup) (n : ℕ) :
    (q.takeEach keys n).2.flatMap Prod.snd = nextInLine q.queued keys n := by
  induction keys generalizing q n with
  | nil => rfl
  | cons first keys ih =>
    obtain ⟨hFirst, hKeys⟩ := List.nodup_cons.mp hKeys
    obtain ⟨left, hLeft, -, hTaken⟩ := takeEach_cons q first keys n
    have hSame : nextInLine left.queued keys = nextInLine q.queued keys := by
      funext m
      refine nextInLine_congr (fun key hKey => ?_) m
      rw [hLeft, Function.update_of_ne (ne_of_mem_of_not_mem hKey hFirst)]
    have hRest := ih left hKeys (n - (q.queued first).length)
    rw [hSame] at hRest
    rw [nextInLine]
    rcases hTaken with ⟨hNone, hTaken⟩ | hTaken
    · have hEmpty : q.queued first = [] := by rw [queued, hNone]; rfl
      rw [hTaken, hRest, hEmpty, List.take_nil, List.nil_append]
    · rw [hTaken, List.flatMap_cons, hRest]

end KeyedQueues
end Cxx
