import Wwatp.Cxx.Effects
import Wwatp.Memory.SimpleBackend
import Wwatp.Memory.Transactions

/-! `SimpleBackend::applyTransaction` as it runs: checks, writes and notifications one
after another on the tree in place. -/
namespace Wwatp

open Cxx Cxx.Effectful

/-- What a call works on: the tree, and the calls of `notifyListeners` made so far. -/
structure Effects where
  memoryTree : MemoryTree
  notified : List (Str × Option TreeNode)

namespace Effects

/-- The exception for a sub-transaction that could not be performed. -/
def notApplied (sub : SubTransaction) : Fault :=
  .runtimeError (str "Transaction failed to apply: " ++ sub.parent.labelRule ++
    str " with " ++ toDecimal sub.descendants.length ++ str " modified children.")

/-- A write to `tree_`. -/
def put (label : Str) (node : Option TreeNode) : Effectful Effects Unit :=
  change fun s => { s with memoryTree := s.memoryTree.put label node }

/-- `MemoryTree::performSubTransaction`. -/
def performSubTransaction (sub : SubTransaction) : Effectful Effects Bool := do
  put sub.parentKey sub.parent.node
  forEach (fun child => put child.labelRule child.node) sub.descendants
  return true

def checkOne (sub : SubTransaction) : Effectful Effects Unit := do
  if ← inspect fun s => s.memoryTree.canPerformSubTransaction sub then return
  else raise (MemoryTree.notValid sub)

def performOne (sub : SubTransaction) : Effectful Effects Unit := do
  if ← performSubTransaction sub then return
  else raise (notApplied sub)

/-- `MemoryTree::applyTransaction`: all checks, then all changes. -/
def applyToTree (transaction : Transaction) : Effectful Effects Bool := do
  forEach checkOne transaction
  forEach performOne transaction
  return true

/-- What the listeners' callbacks do when they are called. -/
abbrev Callbacks (Callback : Type) := Callback → Str → Option TreeNode → Effectful Effects Unit

section Calls

variable {Callback : Type} (listeners : ListenerTable Callback) (run : Callbacks Callback)

/-- The inner loop body of `notifyListeners`. -/
def callListener (labelRule : Str) (node : Option TreeNode) (rule : Str)
    (listener : ListenerInfo Callback) : Effectful Effects Unit := do
  if ← inspect fun _ => ListenerTable.shouldNotify labelRule rule listener then
    run listener.callback labelRule node

/-- The outer loop of `notifyListeners`. -/
def callWalk (labelRule : Str) (node : Option TreeNode) :
    List (Str × List (ListenerInfo Callback)) → Effectful Effects Unit
  | [] => pure ()
  | (rule, listeners) :: before =>
      if partialLabelRuleMatch labelRule rule then do
        forEach (callListener run labelRule node rule) listeners
        callWalk labelRule node before
      else pure ()

/-- A call of `notifyListeners`. -/
def notify (change : NewNodeVersion) : Effectful Effects Unit := do
  Effectful.change fun s => { s with notified := s.notified ++ [(change.labelRule, change.node)] }
  callWalk run change.labelRule change.node (entriesUpTo listeners.rules change.labelRule)

def notifyOne (sub : SubTransaction) : Effectful Effects Unit := do
  notify listeners run sub.parent
  forEach (notify listeners run) sub.descendants

/-- `SimpleBackend::applyTransaction`. -/
def applyTransaction (transaction : Transaction) : Effectful Effects Bool := do
  let success ← applyToTree transaction
  if success then forEach (notifyOne listeners run) transaction
  return success

end Calls

section Tree

variable (s : Effects)

theorem performOne_eq (sub : SubTransaction) :
    performOne sub s = (.ok (), { s with memoryTree := s.memoryTree.performSubTransaction sub }) := by
  let step (s : Effects) (child : NewNodeVersion) : Effects :=
    { s with memoryTree := s.memoryTree.put child.labelRule child.node }
  have hChildren (s : Effects) (children : List NewNodeVersion) :
      children.foldl step s = { s with
        memoryTree := children.foldl (fun t child => t.put child.labelRule child.node) s.memoryTree } := by
    induction children generalizing s with
    | nil => rfl
    | cons child children ih => rw [List.foldl_cons, ih, List.foldl_cons]
  have hPerform : performSubTransaction sub s =
      (.ok true, { s with memoryTree := s.memoryTree.performSubTransaction sub }) := by
    have hLoop := forEach_of_ok step (fun child s => rfl) sub.descendants
      { s with memoryTree := s.memoryTree.put sub.parentKey sub.parent.node }
    rw [hChildren] at hLoop
    exact bind_ok hLoop
  rw [performOne, bind_ok hPerform]
  rfl

/-- The checks leave everything as it is. -/
theorem check_eq (transaction : Transaction) :
    forEach checkOne transaction s = (s.memoryTree.checkSubTransactions transaction, s) := by
  induction transaction with
  | nil => rfl
  | cons sub rest ih =>
      rw [forEach, MemoryTree.checkSubTransactions]
      let can : Effectful Effects Bool := inspect fun s => s.memoryTree.canPerformSubTransaction sub
      cases hCan : s.memoryTree.canPerformSubTransaction sub with
      | error e =>
          have hAsk : can s = (.error e, s) := congrArg (·, s) hCan
          have hCheck : checkOne sub s = (.error e, s) := bind_error hAsk
          rw [bind_error hCheck]
          rfl
      | ok accepted =>
          have hAsk : can s = (.ok accepted, s) := congrArg (·, s) hCan
          have hCheck : checkOne sub s =
              (if accepted then .ok () else .error (MemoryTree.notValid sub), s) := by
            rw [checkOne, bind_ok hAsk]
            cases accepted <;> rfl
          cases accepted with
          | true => rw [bind_ok hCheck, ih]; rfl
          | false => rw [bind_error hCheck]; rfl

/-- The tree as a whole: nothing is written unless everything has been checked, and
then every write is made. -/
theorem applyToTree_eq (transaction : Transaction) :
    applyToTree transaction s = match s.memoryTree.applyTransaction transaction with
      | .ok tree => (.ok true, { s with memoryTree := tree })
      | .error e => (.error e, s) := by
  have hPerform (s : Effects) : forEach performOne transaction s = (.ok (), { s with
      memoryTree := transaction.foldl MemoryTree.performSubTransaction s.memoryTree }) := by
    rw [forEach_of_ok _ fun sub s => performOne_eq s sub]
    congr 1
    induction transaction generalizing s with
    | nil => rfl
    | cons sub rest ih => rw [List.foldl_cons, ih, List.foldl_cons]
  rw [applyToTree, MemoryTree.applyTransaction]
  have hCheck := check_eq s transaction
  cases hChecked : s.memoryTree.checkSubTransactions transaction with
  | error e =>
      rw [hChecked] at hCheck
      rw [bind_error hCheck]
      rfl
  | ok =>
      rw [hChecked] at hCheck
      rw [bind_ok hCheck, bind_ok (hPerform s)]
      rfl

end Tree

/-- The label and the node of a change, as listeners are told. -/
def entry (change : NewNodeVersion) : Str × Option TreeNode := (change.labelRule, change.node)

/-- A loop over the changes of each sub-transaction is a loop over all changes. -/
theorem forEach_flatMap {σ α β : Type} (body : β → Effectful σ Unit) (parts : α → List β) (l : List α)
    (s : σ) : forEach (fun a => forEach body (parts a)) l s = forEach body (l.flatMap parts) s := by
  have hAppend (front back : List β) (s : σ) :
      forEach body (front ++ back) s = (forEach body front >>= fun _ => forEach body back) s := by
    induction front generalizing s with
    | nil => rfl
    | cons b front ih =>
        rw [List.cons_append, forEach, forEach]
        rcases hBody : body b s with ⟨_ | _, s'⟩
        · rw [bind_error hBody, bind_error (bind_error hBody)]
        · rw [bind_ok hBody, ih]
          rcases hFront : forEach body front s' with ⟨_ | _, s''⟩
          · rw [bind_error hFront, bind_error ((bind_ok hBody).trans hFront)]
          · rw [bind_ok hFront, bind_ok ((bind_ok hBody).trans hFront)]
  induction l generalizing s with
  | nil => rfl
  | cons a l ih =>
      rw [List.flatMap_cons, hAppend, forEach]
      rcases hFirst : forEach body (parts a) s with ⟨_ | _, s'⟩
      · rw [bind_error hFirst, bind_error hFirst]
      · rw [bind_ok hFirst, bind_ok hFirst, ih]

/-- Callbacks that return and leave the backend alone. -/
def Callbacks.Passive {Callback : Type} (run : Callbacks Callback) : Prop :=
  ∀ callback labelRule node s, run callback labelRule node s = (.ok (), s)

section Notify

variable {Callback : Type} (listeners : ListenerTable Callback) {run : Callbacks Callback}
  (hPassive : run.Passive)

include hPassive

theorem callRule_eq (labelRule : Str) (node : Option TreeNode) (rule : Str)
    (registered : List (ListenerInfo Callback)) (s : Effects) :
    forEach (callListener run labelRule node rule) registered s =
      ((ListenerTable.notifyRule labelRule rule registered).map fun _ => (), s) := by
  induction registered with
  | nil => rfl
  | cons listener rest ih =>
      rw [forEach, ListenerTable.notifyRule]
      let due : Effectful Effects Bool :=
        inspect fun _ => ListenerTable.shouldNotify labelRule rule listener
      cases hDue : ListenerTable.shouldNotify labelRule rule listener with
      | error e =>
          have hAsk : due s = (.error e, s) := congrArg (·, s) hDue
          rw [bind_error (show callListener run labelRule node rule listener s = _ from bind_error hAsk)]
          rfl
      | ok called =>
          have hAsk : due s = (.ok called, s) := congrArg (·, s) hDue
          have hCall : callListener run labelRule node rule listener s = (.ok (), s) := by
            rw [callListener, bind_ok hAsk]
            cases called with
            | true => exact hPassive _ _ _ _
            | false => rfl
          rw [bind_ok hCall, ih]
          cases ListenerTable.notifyRule labelRule rule rest <;> rfl

/-- The walk calls the callbacks the pure walk lists, and fails where it fails. -/
theorem callWalk_eq (labelRule : Str) (node : Option TreeNode)
    (walk : List (Str × List (ListenerInfo Callback))) (s : Effects) :
    callWalk run labelRule node walk s =
      ((ListenerTable.notifyWalk labelRule walk).map fun _ => (), s) := by
  induction walk with
  | nil => rfl
  | cons first before ih =>
      obtain ⟨rule, registered⟩ := first
      rw [callWalk, ListenerTable.notifyWalk]
      split_ifs
      · have hRule := callRule_eq hPassive labelRule node rule registered s
        cases hCalled : ListenerTable.notifyRule labelRule rule registered with
        | error e =>
            rw [hCalled] at hRule
            rw [bind_error hRule]
            rfl
        | ok called =>
            rw [hCalled] at hRule
            rw [bind_ok hRule, ih]
            cases ListenerTable.notifyWalk labelRule before <;> rfl
      · rfl

theorem notify_eq (change : NewNodeVersion) (s : Effects) :
    notify listeners run change s =
      ((listeners.notifyListeners change.labelRule).map fun _ => (),
        { s with notified := s.notified ++ [entry change] }) := by
  rw [notify, bind_ok (show Effectful.change _ s = (.ok (), _) from rfl), callWalk_eq hPassive]
  rfl

/-- No call of `notifyListeners` for these changes runs past the end of a label. -/
def Notifiable (changes : List NewNodeVersion) : Prop :=
  ∀ change ∈ changes, ∃ called, listeners.notifyListeners change.labelRule = .ok called

theorem notifyAll_of_notifiable {changes : List NewNodeVersion} (h : Notifiable listeners changes)
    (s : Effects) : forEach (notify listeners run) changes s =
      (.ok (), { s with notified := s.notified ++ changes.map entry }) := by
  induction changes generalizing s with
  | nil => rw [List.map_nil, List.append_nil]; rfl
  | cons change changes ih =>
      obtain ⟨⟨called, hCalled⟩, hRest⟩ := List.forall_mem_cons.mp h
      have hNotify := notify_eq listeners hPassive change s
      rw [hCalled] at hNotify
      rw [forEach, bind_ok hNotify, ih hRest, List.map_cons]
      simp only [List.append_assoc, List.singleton_append]

theorem notifyAll_of_not_notifiable {changes : List NewNodeVersion}
    (h : ¬ Notifiable listeners changes) (s : Effects) :
    (forEach (notify listeners run) changes s).1 = .error (.undefined .index) := by
  induction changes generalizing s with
  | nil => exact absurd (fun _ hMem => absurd hMem List.not_mem_nil) h
  | cons change changes ih =>
      have hNotify := notify_eq listeners hPassive change s
      cases hCall : listeners.notifyListeners change.labelRule with
      | error e =>
          obtain rfl := ListenerTable.notifyListeners_error hCall
          rw [hCall] at hNotify
          rw [forEach, bind_error hNotify]
      | ok called =>
          rw [hCall] at hNotify
          rw [forEach, bind_ok hNotify]
          exact ih (fun hRest => h (List.forall_mem_cons.mpr ⟨⟨called, hCall⟩, hRest⟩)) _

end Notify

/-- The labels a transaction names, and the own labels of the nodes in it. -/
def namedLabels (transaction : Transaction) : List Str :=
  transaction.flatMap fun sub => (sub.parent :: sub.descendants).flatMap fun change =>
    change.labelRule :: (change.node.map TreeNode.getLabelRule).toList

/-- The changes of a transaction, each parent before its children. -/
def changes (transaction : Transaction) : List NewNodeVersion :=
  transaction.flatMap fun sub => sub.parent :: sub.descendants

theorem writtenLabels_subset {transaction : Transaction} {sub : SubTransaction}
    (hSub : sub ∈ transaction) : MemoryTree.writtenLabels sub ⊆ namedLabels transaction := by
  intro label hLabel
  refine List.mem_flatMap.mpr ⟨sub, hSub, List.mem_flatMap.mpr ?_⟩
  rcases List.mem_cons.mp hLabel with rfl | hChild
  · refine ⟨sub.parent, List.mem_cons_self, ?_⟩
    rw [SubTransaction.parentKey]
    cases sub.parent.node <;> simp
  · obtain ⟨child, hMem, rfl⟩ := List.mem_map.mp hChild
    exact ⟨child, List.mem_cons_of_mem _ hMem, List.mem_cons_self⟩

/-- The writes of a transaction touch nothing but its named labels. -/
theorem getNode_performAll {transaction : Transaction} {label : Str}
    (h : label ∉ namedLabels transaction) (t : MemoryTree) :
    (transaction.foldl MemoryTree.performSubTransaction t).getNode label = t.getNode label := by
  have hOne : ∀ sub ∈ transaction, label ∉ MemoryTree.writtenLabels sub :=
    fun sub hSub hWritten => h (writtenLabels_subset hSub hWritten)
  clear h
  induction transaction generalizing t with
  | nil => rfl
  | cons sub rest ih =>
      rw [List.foldl_cons, ih _ fun later hLater => hOne later (List.mem_cons_of_mem _ hLater),
        MemoryTree.getNode_performSubTransaction _ (hOne sub List.mem_cons_self)]

/-- A check that fails throws, as long as no stored node has maximum zero. -/
theorem checkSubTransactions_error {t : MemoryTree}
    (hMax : ∀ label node, t.getNode label = some node → node.version.maxVersionSequence ≠ 0)
    {transaction : Transaction} {fault : Fault}
    (h : t.checkSubTransactions transaction = .error fault) : ∃ sub, fault = MemoryTree.notValid sub := by
  induction transaction with
  | nil => cases h
  | cons sub rest ih =>
      have hReturns : ∃ accepted, t.canPerformSubTransaction sub = .ok accepted := by
        rw [MemoryTree.canPerformSubTransaction]
        cases hStored : t.getNode sub.parent.labelRule with
        | none => exact ⟨_, rfl⟩
        | some stored =>
            have hNext : stored.version.nextNumber = .ok _ := if_neg (hMax _ _ hStored)
            dsimp only
            rw [hNext]
            split_ifs
            · exact ⟨_, rfl⟩
            · rw [Outcome.ok_bind]
              split_ifs <;> exact ⟨_, rfl⟩
      obtain ⟨accepted, hAccepted⟩ := hReturns
      rw [MemoryTree.checkSubTransactions, hAccepted, Outcome.ok_bind] at h
      cases accepted with
      | true => exact ih h
      | false => exact ⟨sub, (Except.error.inj h).symm⟩

/-- A transaction the tree refuses is refused with nothing done. -/
theorem applyTransaction_of_error {Callback : Type} (listeners : ListenerTable Callback)
    (run : Callbacks Callback) {transaction : Transaction} {s : Effects} {fault : Fault}
    (h : s.memoryTree.applyTransaction transaction = .error fault) :
    applyTransaction listeners run transaction s = (.error fault, s) := by
  have hTree := applyToTree_eq s transaction
  rw [h] at hTree
  exact bind_error hTree

/-- After the tree has accepted a transaction, every change is announced. -/
theorem applyTransaction_of_ok {Callback : Type} (listeners : ListenerTable Callback)
    (run : Callbacks Callback) {transaction : Transaction} {s : Effects} {tree : MemoryTree}
    (h : s.memoryTree.applyTransaction transaction = .ok tree) :
    applyTransaction listeners run transaction s =
      (forEach (notify listeners run) (changes transaction) >>= fun _ => pure true)
        { s with memoryTree := tree } := by
  have hTree := applyToTree_eq s transaction
  rw [h] at hTree
  have hLoop : forEach (notifyOne listeners run) transaction { s with memoryTree := tree } =
      forEach (notify listeners run) (changes transaction) { s with memoryTree := tree } :=
    forEach_flatMap (notify listeners run) (fun sub : SubTransaction => sub.parent :: sub.descendants)
      transaction _
  refine (bind_ok hTree).trans ?_
  change (forEach (notifyOne listeners run) transaction >>= fun _ => pure true) _ = _
  rcases hTold : forEach (notify listeners run) (changes transaction) { s with memoryTree := tree } with
    ⟨_ | _, s'⟩
  · rw [bind_error (hLoop.trans hTold), bind_error hTold]
  · rw [bind_ok (hLoop.trans hTold), bind_ok hTold]

/-- Where the walks of `notifyListeners` as values succeed, so do the calls. -/
theorem notifiable_of_ok {Callback : Type} {b : SimpleBackend Callback} {changes : List NewNodeVersion}
    {notices : List (Notice Callback)} (h : b.notifyAll (changes.map entry) = .ok notices) :
    Notifiable b.nodeListeners changes := by
  induction changes generalizing notices with
  | nil => exact fun _ hMem => absurd hMem List.not_mem_nil
  | cons change changes ih =>
      obtain ⟨called, hOne, hRest⟩ := Outcome.bind_eq_ok.mp h
      obtain ⟨more, hMore, -⟩ := Outcome.bind_eq_ok.mp hRest
      obtain ⟨due, hDue, -⟩ := Outcome.bind_eq_ok.mp hOne
      exact List.forall_mem_cons.mpr ⟨⟨due, hDue⟩, ih hMore⟩

/-- Where the operation on backends as values succeeds, the call returns and leaves the
same tree. -/
theorem applyTransaction_refines {Callback : Type} {run : Callbacks Callback} (hPassive : run.Passive)
    {b after : SimpleBackend Callback} {transaction : Transaction} {notices : List (Notice Callback)}
    (h : b.applyTransaction transaction = .ok (after, notices)) :
    ∃ notified, applyTransaction b.nodeListeners run transaction ⟨b.memoryTree, []⟩ =
      (.ok true, ⟨after.memoryTree, notified⟩) := by
  obtain ⟨tree, hTree, hNotify⟩ := Outcome.bind_eq_ok.mp h
  obtain ⟨told, hTold, hAfter⟩ := Outcome.bind_eq_ok.mp hNotify
  obtain ⟨rfl, -⟩ := Prod.mk.inj (Except.ok.inj hAfter)
  have hEntries : (transaction.flatMap fun sub => (sub.parent :: sub.descendants).map entry) =
      (changes transaction).map entry := List.map_flatMap.symm
  have hNotifiable := notifiable_of_ok (b := ⟨tree, b.nodeListeners⟩)
    ((congrArg _ hEntries).symm.trans hTold)
  exact ⟨_, (applyTransaction_of_ok b.nodeListeners run hTree).trans
    (bind_ok (notifyAll_of_notifiable b.nodeListeners hPassive hNotifiable ⟨tree, []⟩))⟩

/-- A transaction that throws has changed nothing and told nobody. One that returns has
changed at most its named labels and has called `notifyListeners` once for each change. -/
structure Atomic (transaction : Transaction) (before : Effects) (result : Outcome Bool)
    (after : Effects) : Prop where
  thrown : ∀ fault, result = .error fault → (∀ kind, fault ≠ .undefined kind) → after = before
  frame : ∀ applied, result = .ok applied → ∀ label, label ∉ namedLabels transaction →
    after.memoryTree.getNode label = before.memoryTree.getNode label
  notified : ∀ applied, result = .ok applied →
    after.notified = before.notified ++ (changes transaction).map entry
  undefined : ∀ kind, result = .error (.undefined kind) → kind = .index

/-- `applyTransaction` is atomic where the listeners' callbacks return and leave the
backend alone. -/
theorem applyTransaction_atomic {Callback : Type} (listeners : ListenerTable Callback)
    {run : Callbacks Callback} (hPassive : run.Passive) {s : Effects}
    (hMax : ∀ label node, s.memoryTree.getNode label = some node →
      node.version.maxVersionSequence ≠ 0)
    (transaction : Transaction) :
    Atomic transaction s (applyTransaction listeners run transaction s).1
      (applyTransaction listeners run transaction s).2 := by
  cases hApply : s.memoryTree.applyTransaction transaction with
  | error fault =>
      obtain ⟨sub, rfl⟩ : ∃ sub, fault = MemoryTree.notValid sub := by
        rcases Outcome.bind_eq_error.mp hApply with hCheck | ⟨_, _, hPerformed⟩
        · exact checkSubTransactions_error hMax hCheck
        · cases hPerformed
      rw [applyTransaction_of_error listeners run hApply]
      exact {
        thrown := fun _ _ _ => rfl
        frame := fun _ h => by cases h
        notified := fun _ h => by cases h
        undefined := fun _ h => by cases h }
  | ok written =>
      rw [applyTransaction_of_ok listeners run hApply]
      obtain rfl := (MemoryTree.applyTransaction_eq_ok.mp hApply).2
      by_cases hNotifiable : Notifiable listeners (changes transaction)
      · rw [bind_ok (notifyAll_of_notifiable listeners hPassive hNotifiable _)]
        exact {
          thrown := fun _ h => by cases h
          frame := fun _ _ label hLabel => getNode_performAll hLabel s.memoryTree
          notified := fun _ _ => rfl
          undefined := fun _ h => by cases h }
      · rw [bind_error (Prod.ext (notifyAll_of_not_notifiable listeners hPassive hNotifiable _) rfl)]
        exact {
          thrown := fun _ h hThrown => absurd (Except.error.inj h).symm (hThrown .index)
          frame := fun _ h => by cases h
          notified := fun _ h => by cases h
          undefined := fun _ h => (Fault.undefined.inj (Except.error.inj h)).symm }

/-- A change of `A` that gives it a child, with a listener on `A`. -/
theorem applyTransaction_atomic_new_child :
    ∃ (listeners : ListenerTable Unit) (update : Transaction) (before : Effects),
      listeners = ListenerTable.empty.registerNodeListener (str "L") (str "A") false () ∧
      update = [⟨⟨some 0, str "A", some { labelRule := str "A", version := { versionNumber := 1 } }⟩,
        [⟨none, str "A/B", some { labelRule := str "A/B" }⟩]⟩] ∧
      before = ⟨MemoryTree.empty.set (str "A") { labelRule := str "A" }, []⟩ ∧
      Atomic update before (applyTransaction listeners (fun _ _ _ => pure ()) update before).1
        (applyTransaction listeners (fun _ _ _ => pure ()) update before).2 := by
  refine ⟨_, _, _, rfl, rfl, rfl, applyTransaction_atomic _ (fun _ _ _ _ => rfl) ?_ _⟩
  intro label node h
  rw [MemoryTree.getNode_set, MemoryTree.getNode_empty] at h
  split_ifs at h
  rw [← Option.some.inj h]
  decide

/-- A callback that throws: the call throws, and the new node is in the tree. -/
theorem applyTransaction_throws_after_write :
    ∃ (listeners : ListenerTable Unit) (run : Callbacks Unit) (transaction : Transaction)
      (fault : Fault) (after : Effects),
      applyTransaction listeners run transaction ⟨MemoryTree.empty, []⟩ = (.error fault, after) ∧
      (∀ kind, fault ≠ .undefined kind) ∧
      after.memoryTree.getNode (str "A") ≠ MemoryTree.empty.getNode (str "A") ∧
      after.notified ≠ [] := by
  refine ⟨ListenerTable.empty.registerNodeListener (str "L") (str "A") false (),
    fun _ _ _ => raise (.runtimeError (str "refused")),
    [⟨⟨none, str "A", some { labelRule := str "A" }⟩, []⟩], _, _, rfl, ?_, ?_, ?_⟩
  · intro kind h
    cases h
  · decide
  · decide

end Effects
end Wwatp
