import Wwatp.Memory.MemoryTree

/-! What `applyTransaction` checks and what it writes: the exact condition under
which an accepted transaction had every expected version right, and how checking
everything first compares with checking each sub-transaction when its turn comes. -/
namespace Wwatp
namespace MemoryTree

open Cxx

/-- A child change expects the stored version. Deleting a child without naming
a version is exempt. -/
def ChildExpected (t : MemoryTree) (child : NewNodeVersion) : Prop :=
  t.storedVersion child.labelRule = child.priorVersion ∨
    (child.priorVersion = none ∧ child.node = none)

/-- Every version a sub-transaction names is the one stored before it. -/
def VersionsExpected (t : MemoryTree) (sub : SubTransaction) : Prop :=
  t.storedVersion sub.parent.labelRule = sub.parent.priorVersion ∧
    ∀ child ∈ sub.descendants, t.ChildExpected child

/-- The parent of a sub-transaction is stored. -/
def ParentStored (t : MemoryTree) (sub : SubTransaction) : Prop :=
  (t.getNode sub.parent.labelRule).isSome

/-- The parent has the expected version, and where it is stored the change
carries the number after that. -/
def ParentExpected (t : MemoryTree) (sub : SubTransaction) : Prop :=
  t.storedVersion sub.parent.labelRule = sub.parent.priorVersion ∧
    ∀ stored ∈ t.getNode sub.parent.labelRule, ∃ next, stored.version.nextNumber = .ok next ∧
      sub.parent.node.map (fun node => node.version.versionNumber) = some next

instance (t : MemoryTree) (child : NewNodeVersion) : Decidable (t.ChildExpected child) :=
  inferInstanceAs (Decidable (_ ∨ _))

instance (t : MemoryTree) (sub : SubTransaction) : Decidable (t.VersionsExpected sub) :=
  inferInstanceAs (Decidable (_ ∧ _))

theorem canPerformChild_eq_true {t : MemoryTree} {child : NewNodeVersion} :
    t.canPerformChild child = true ↔ t.ChildExpected child := by
  unfold canPerformChild ChildExpected storedVersion
  cases t.getNode child.labelRule with
  | none => cases child.priorVersion <;> simp
  | some old => cases child.priorVersion <;> simp

/-- What `canPerformSubTransaction` accepts. Under an absent parent the
children are not looked at. -/
theorem canPerformSubTransaction_eq_true {t : MemoryTree} {sub : SubTransaction} :
    t.canPerformSubTransaction sub = .ok true ↔
      t.ParentExpected sub ∧ (t.ParentStored sub → ∀ child ∈ sub.descendants, t.ChildExpected child) := by
  unfold canPerformSubTransaction ParentExpected ParentStored storedVersion
  cases hParent : t.getNode sub.parent.labelRule with
  | none => cases sub.parent.priorVersion <;> simp
  | some stored =>
      by_cases hVersion : some stored.version.versionNumber = sub.parent.priorVersion
      · cases hNext : stored.version.nextNumber with
        | error fault => simp [hVersion, hNext]
        | ok next =>
            generalize sub.parent.node.map (fun node => node.version.versionNumber) = written
            by_cases hNew : written = some next
            · simp [hVersion, hNext, hNew, canPerformChild_eq_true]
            · have hRefused : ¬ some next = written := Ne.symm hNew
              simp [hVersion, hNext, hNew, hRefused]
      · simp [hVersion]

theorem checkSubTransactions_eq_ok {t : MemoryTree} {transaction : Transaction} :
    t.checkSubTransactions transaction = .ok () ↔
      ∀ sub ∈ transaction, t.canPerformSubTransaction sub = .ok true := by
  induction transaction with
  | nil => simp [checkSubTransactions]
  | cons sub rest ih =>
      rw [checkSubTransactions, Outcome.bind_eq_ok, List.forall_mem_cons, ← ih]
      constructor
      · rintro ⟨accepted, hSub, hRest⟩
        cases accepted with
        | true => exact ⟨hSub, hRest⟩
        | false => simp at hRest
      · rintro ⟨hSub, hRest⟩
        exact ⟨true, hSub, hRest⟩

/-- A transaction succeeds exactly when every sub-transaction passes its check
in the state before the call; the result is then all of their changes in order. -/
theorem applyTransaction_eq_ok {t u : MemoryTree} {transaction : Transaction} :
    t.applyTransaction transaction = .ok u ↔
      (∀ sub ∈ transaction, t.canPerformSubTransaction sub = .ok true) ∧
        transaction.foldl performSubTransaction t = u := by
  rw [applyTransaction, Outcome.bind_eq_ok, ← checkSubTransactions_eq_ok]
  constructor
  · rintro ⟨_, hChecked, hPerformed⟩
    exact ⟨hChecked, by simpa using hPerformed⟩
  · rintro ⟨hChecked, hPerformed⟩
    exact ⟨(), hChecked, by simpa using hPerformed⟩

/-- An accepted transaction had all its expected versions right if and only if
every sub-transaction whose parent is absent lists only children whose versions
are as expected, or some other part of the transaction was refused. -/
theorem applyTransaction_versionsExpected_iff (t : MemoryTree) (transaction : Transaction) :
    (∀ u, t.applyTransaction transaction = .ok u → ∀ sub ∈ transaction, t.VersionsExpected sub) ↔
      ((∀ sub ∈ transaction, t.ParentExpected sub ∧
          (t.ParentStored sub → ∀ child ∈ sub.descendants, t.ChildExpected child)) →
        ∀ sub ∈ transaction, ¬ t.ParentStored sub →
          ∀ child ∈ sub.descendants, t.ChildExpected child) := by
  simp only [applyTransaction_eq_ok, canPerformSubTransaction_eq_true]
  constructor
  · intro hSound hAccepted sub hMem _
    exact (hSound _ ⟨hAccepted, rfl⟩ sub hMem).2
  · rintro hAbsent u ⟨hAccepted, -⟩ sub hMem
    refine ⟨(hAccepted sub hMem).1.1, ?_⟩
    by_cases hStored : t.ParentStored sub
    · exact (hAccepted sub hMem).2 hStored
    · exact hAbsent hAccepted sub hMem hStored

/-- A child listed under an absent parent is overwritten whatever version was
expected of it: here `A` is absent, and `A/B` is stored at version 0, not 7. -/
theorem applyTransaction_overwrites_stale_child :
    ∃ (t : MemoryTree) (transaction : Transaction) (u : MemoryTree),
      t = empty.set (str "A/B") { labelRule := str "A/B" } ∧
      transaction = [⟨⟨none, str "A", some { labelRule := str "A" }⟩,
        [⟨some 7, str "A/B", some { labelRule := str "A/B" }⟩]⟩] ∧
      t.applyTransaction transaction = .ok u ∧
      ¬ ∀ sub ∈ transaction, t.VersionsExpected sub := by
  refine ⟨_, _, _, rfl, rfl, applyTransaction_eq_ok.mpr ⟨?_, rfl⟩, ?_⟩
  · decide
  · decide

section OneByOne

/-- Applying sub-transactions one after another, each checked in the state its
predecessors left. -/
def applyOneByOne (t : MemoryTree) : Transaction → Outcome MemoryTree
  | [] => .ok t
  | sub :: rest => do
      if ← t.canPerformSubTransaction sub then (t.performSubTransaction sub).applyOneByOne rest
      else throw (notValid sub)

/-- The labels whose stored nodes a sub-transaction is checked against. -/
def checkedLabels (sub : SubTransaction) : List Str :=
  sub.parent.labelRule :: sub.descendants.map NewNodeVersion.labelRule

/-- The labels a sub-transaction writes or erases. -/
def writtenLabels (sub : SubTransaction) : List Str :=
  sub.parentKey :: sub.descendants.map NewNodeVersion.labelRule

/-- No sub-transaction writes a label that a later one is checked against. -/
def IndependentChecks (transaction : Transaction) : Prop :=
  transaction.Pairwise fun earlier later => ∀ label ∈ checkedLabels later, label ∉ writtenLabels earlier

theorem getNode_putAll (t : MemoryTree) (changes : List NewNodeVersion) {label : Str}
    (h : label ∉ changes.map NewNodeVersion.labelRule) :
    (changes.foldl (fun t child => t.put child.labelRule child.node) t).getNode label
      = t.getNode label := by
  induction changes generalizing t with
  | nil => rfl
  | cons child rest ih =>
      simp only [List.map_cons, List.mem_cons, not_or] at h
      rw [List.foldl_cons, ih _ h.2, getNode_put, if_neg (Ne.symm h.1)]

/-- Performing a sub-transaction changes nothing outside its written labels. -/
theorem getNode_performSubTransaction (t : MemoryTree) {sub : SubTransaction} {label : Str}
    (h : label ∉ writtenLabels sub) : (t.performSubTransaction sub).getNode label = t.getNode label := by
  simp only [writtenLabels, List.mem_cons, not_or] at h
  rw [performSubTransaction, getNode_putAll _ _ h.2, getNode_put, if_neg (Ne.symm h.1)]

/-- The check reads nothing but the checked labels. -/
theorem canPerformSubTransaction_congr {t u : MemoryTree} {sub : SubTransaction}
    (h : ∀ label ∈ checkedLabels sub, t.getNode label = u.getNode label) :
    t.canPerformSubTransaction sub = u.canPerformSubTransaction sub := by
  have hParent := h sub.parent.labelRule (by simp [checkedLabels])
  have hChildren : sub.descendants.all t.canPerformChild = sub.descendants.all u.canPerformChild := by
    rw [Bool.eq_iff_iff, List.all_eq_true, List.all_eq_true]
    apply forall₂_congr
    intro child hChild
    have hLabel : child.labelRule ∈ checkedLabels sub :=
      List.mem_cons_of_mem _ (List.mem_map_of_mem hChild)
    rw [canPerformChild, canPerformChild, h _ hLabel]
  simp only [canPerformSubTransaction, hParent, hChildren]

/-- Checks made against one state agree with checks made along the way as long
as the two states agree on every label still to be checked. -/
theorem check_then_perform_eq_applyOneByOne {transaction : Transaction} {t u : MemoryTree}
    (hIndependent : IndependentChecks transaction)
    (hAgree : ∀ sub ∈ transaction, ∀ label ∈ checkedLabels sub, t.getNode label = u.getNode label) :
    (do t.checkSubTransactions transaction; return transaction.foldl performSubTransaction u)
      = u.applyOneByOne transaction := by
  induction transaction generalizing u with
  | nil => rfl
  | cons sub rest ih =>
      obtain ⟨hFirst, hRest⟩ := List.pairwise_cons.mp hIndependent
      have hSame : t.canPerformSubTransaction sub = u.canPerformSubTransaction sub :=
        canPerformSubTransaction_congr (hAgree sub (by simp))
      have hLater : ∀ later ∈ rest, ∀ label ∈ checkedLabels later,
          t.getNode label = (u.performSubTransaction sub).getNode label := by
        intro later hMem label hLabel
        rw [getNode_performSubTransaction u (hFirst later hMem label hLabel)]
        exact hAgree later (by simp [hMem]) label hLabel
      rw [checkSubTransactions, applyOneByOne, hSame]
      cases u.canPerformSubTransaction sub with
      | error fault => rfl
      | ok accepted =>
          cases accepted with
          | false => rfl
          | true => exact ih hRest hLater

/-- A transaction is validated as a whole against the state before it and then
performed in order. It agrees with one-by-one application whenever no
sub-transaction writes a label that a later one is checked against. -/
theorem applyTransaction_validates_then_performs (t : MemoryTree) (transaction : Transaction) :
    (∀ u, t.applyTransaction transaction = .ok u ↔
      (∀ sub ∈ transaction, t.canPerformSubTransaction sub = .ok true) ∧
        transaction.foldl performSubTransaction t = u) ∧
    (IndependentChecks transaction →
      t.applyTransaction transaction = t.applyOneByOne transaction) :=
  ⟨fun _ => applyTransaction_eq_ok,
    fun hIndependent => check_then_perform_eq_applyOneByOne hIndependent fun _ _ _ _ => rfl⟩

/-- Two sub-transactions for different labels do not interfere. -/
theorem applyTransaction_two_new_nodes :
    empty.applyTransaction [⟨⟨none, str "A", some { labelRule := str "A" }⟩, []⟩,
        ⟨⟨none, str "B", some { labelRule := str "B" }⟩, []⟩]
      = empty.applyOneByOne [⟨⟨none, str "A", some { labelRule := str "A" }⟩, []⟩,
        ⟨⟨none, str "B", some { labelRule := str "B" }⟩, []⟩] :=
  (applyTransaction_validates_then_performs _ _).2 (by unfold IndependentChecks; decide)

/-- Two sub-transactions that both replace version 0 of `A` are both applied;
one by one, the second is refused. -/
theorem applyTransaction_applies_both_updates :
    ∃ (t : MemoryTree) (sub : SubTransaction) (u : MemoryTree),
      t = empty.set (str "A") { labelRule := str "A" } ∧
      sub = ⟨⟨some 0, str "A", some { labelRule := str "A", version := { versionNumber := 1 } }⟩, []⟩ ∧
      t.applyTransaction [sub, sub] = .ok u ∧
      t.applyOneByOne [sub, sub] = .error (notValid sub) := by
  refine ⟨_, _, _, rfl, rfl, applyTransaction_eq_ok.mpr ⟨?_, rfl⟩, ?_⟩
  · decide
  · rfl

end OneByOne
end MemoryTree
end Wwatp
