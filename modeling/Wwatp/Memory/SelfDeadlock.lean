import Wwatp.Memory.Threadsafe

/-! A `ThreadsafeBackend` never waits for itself, `notifyListeners` apart: this one takes the
mutex that the listeners it calls take as well. -/
namespace Wwatp

open Cxx Cxx.Locking

namespace ThreadsafeBackend

variable {Callback : Type}

theorem readTree_completes {α : Type} (read : SimpleBackend (TreeListener Callback) → Outcome α) :
    Completes Set.univ (readTree read) :=
  completes_guarded (Set.mem_univ _) (completes_run _)

theorem callListener_completes {free : Set Mutex} (h : Mutex.notification ∈ free)
    (notice : Notice (TreeListener Callback)) : Completes free (callListener notice) := by
  unfold callListener
  split
  · exact completes_pure ()
  · exact completes_guarded h (completes_run _)

/-- The listeners are called under `tree_mutex_` alone. -/
theorem changeTree_completes (change : TreeChange) :
    Completes Set.univ (changeTree change : Call Callback Unit) := by
  have hFree : Mutex.notification ∈ Set.univ \ {Mutex.tree} := ⟨Set.mem_univ _, nofun⟩
  refine completes_guarded (Set.mem_univ _) (completes_bind (completes_run _) fun after => ?_)
  exact completes_bind (completes_run _) fun _ => completes_forEach fun notice _ =>
    callListener_completes hFree notice

theorem changeListeners_completes
    (f : ListenerTable (TreeListener Callback) → ListenerTable (TreeListener Callback)) :
    Completes Set.univ (changeListeners f) :=
  completes_guarded (Set.mem_univ _) (completes_run _)

theorem takeNotification_completes :
    Completes Set.univ (takeNotification : Call Callback (Option (QueuedNotification Callback))) :=
  completes_guarded (Set.mem_univ _) (completes_run _)

/-- Without wrapped listeners there is nothing to queue. -/
theorem forEach_callListener_completes {notices : List (Notice (TreeListener Callback))}
    (h : ∀ notice ∈ notices, notice.listener.callback = .direct) :
    Completes ∅ (forEach callListener notices) := by
  refine completes_forEach fun notice hNotice => ?_
  rw [callListener, h notice hNotice]
  exact completes_pure ()

/-- `notifyListeners` runs to its end where it meets no wrapped listener. -/
theorem notifyListeners_completes {labelRule : Str} (node : Option TreeNode)
    {s : Holding Mutex (ThreadsafeBackend Callback)} (hFree : s.held .notification = false)
    (hDirect : ∀ reg, s.state.tree.nodeListeners.Calls labelRule reg → reg.2.callback = .direct) :
    CompletesFrom s (notifyListeners labelRule node) := by
  refine completesFrom_guarded hFree (completesFrom_bind (completesFrom_run _) fun notices after hRead => ?_)
  refine forEach_callListener_completes (fun notice hNotice => ?_) _ nofun
  have hNotices : s.state.tree.notifyListeners labelRule node = .ok notices :=
    congrArg (fun r => match r.1 with | .finished outcome => outcome | .blocked => .error .outOfRange) hRead
  simp only [SimpleBackend.notifyListeners, Outcome.bind_eq_ok, Outcome.pure_eq_ok, Except.ok.injEq] at hNotices
  obtain ⟨called, hCalled, rfl⟩ := hNotices
  obtain ⟨reg, hReg, rfl⟩ := List.mem_map.mp hNotice
  exact hDirect reg ((ListenerTable.mem_notifyListeners_iff hCalled).mp hReg)

/-- A wrapped listener waits for `notification_mutex_` if its thread holds it. -/
theorem forEach_callListener_blocked {notices : List (Notice (TreeListener Callback))}
    {s : Holding Mutex (ThreadsafeBackend Callback)} (hHeld : s.held .notification = true)
    (h : ∃ notice ∈ notices, notice.listener.callback ≠ .direct) :
    forEach callListener notices s = (.blocked, s) := by
  induction notices with
  | nil =>
      obtain ⟨notice, hMem, -⟩ := h
      cases hMem
  | cons first rest ih =>
      rw [forEach]
      cases hFirst : first.listener.callback with
      | direct =>
          have hCall : callListener first s = (.finished (.ok ()), s) := by
            rw [callListener, hFirst]
            rfl
          rw [bind_ok hCall]
          obtain ⟨notice, hMem, hNotice⟩ := h
          rcases List.mem_cons.mp hMem with rfl | hRest
          · exact absurd hFirst hNotice
          · exact ih ⟨notice, hRest, hNotice⟩
      | wrapped callback =>
          have hCall : callListener first s = (.blocked, s) := by
            rw [callListener, hFirst]
            exact guarded_of_held hHeld
          exact bind_blocked hCall

theorem notifyListeners_error {labelRule : Str} {node : Option TreeNode} {e : Fault}
    {s : Holding Mutex (ThreadsafeBackend Callback)} (hFree : s.held .notification = false)
    (hRead : s.state.tree.notifyListeners labelRule node = .error e) :
    ∃ after, notifyListeners labelRule node s = (.finished (.error e), after) := by
  have hRun : run (Effectful.inspect fun b => b.tree.notifyListeners labelRule node)
      { s with held := Function.update s.held .notification true } =
        (.finished (.error e), { s with held := Function.update s.held .notification true }) := by
    rw [run, Effectful.inspect, hRead]
  exact ⟨_, guarded_of_finished hFree (bind_error hRun)⟩

/-- `notifyListeners` holds the mutex that a wrapped listener needs. -/
theorem notifyListeners_blocked {labelRule : Str} {node : Option TreeNode}
    {s : Holding Mutex (ThreadsafeBackend Callback)} {notices : List (Notice (TreeListener Callback))}
    (hRead : s.state.tree.notifyListeners labelRule node = .ok notices)
    (h : ∃ reg, s.state.tree.nodeListeners.Calls labelRule reg ∧ reg.2.callback ≠ .direct) :
    (notifyListeners labelRule node s).1 = .blocked := by
  cases hFree : s.held .notification with
  | true => rw [notifyListeners, guarded_of_held hFree]
  | false =>
      have hRun : run (Effectful.inspect fun b => b.tree.notifyListeners labelRule node)
          { s with held := Function.update s.held .notification true } =
            (.finished (.ok notices), { s with held := Function.update s.held .notification true }) := by
        rw [run, Effectful.inspect, hRead]
      have hWrapped : ∃ notice ∈ notices, notice.listener.callback ≠ .direct := by
        simp only [SimpleBackend.notifyListeners, Outcome.bind_eq_ok, Outcome.pure_eq_ok,
          Except.ok.injEq] at hRead
        obtain ⟨called, hCalled, rfl⟩ := hRead
        obtain ⟨reg, hCalls, hReg⟩ := h
        have hMem := (ListenerTable.mem_notifyListeners_iff hCalled).mpr hCalls
        exact ⟨_, List.mem_map.mpr ⟨reg, hMem, rfl⟩, hReg⟩
      have hHeld : Function.update s.held .notification true .notification = true := Function.update_self ..
      rw [notifyListeners, guarded_of_blocked hFree ((bind_ok hRun).trans
        (forEach_callListener_blocked hHeld hWrapped))]

end ThreadsafeBackend

namespace ThreadsafeCall

variable {Callback : Type}

/-- Every operation completes if no mutex is held, and `notifyListeners` if besides it meets no
wrapped listener. -/
theorem perform_completes {s : BackendThread Callback} (hHeld : ∀ m, s.holding.held m = false)
    {operation : ThreadsafeCall Callback} (hMeets : s.MeetsNoWrapped (.call operation)) :
    CompletesFrom s.holding operation.perform := by
  have hFree : ∀ m ∈ Set.univ, s.holding.held m = false := fun m _ => hHeld m
  have hRead {α : Type} (read : SimpleBackend (TreeListener Callback) → Outcome α) :
      CompletesFrom s.holding (do let _ ← ThreadsafeBackend.readTree read) :=
    completes_bind (ThreadsafeBackend.readTree_completes read) (fun _ => completes_pure ()) _ hFree
  cases operation with
  | getNode labelRule => exact hRead _
  | change c =>
      rw [perform_change]
      exact ThreadsafeBackend.changeTree_completes c _ hFree
  | getPageTree label => exact hRead _
  | relativeGetPageTree node label => exact hRead _
  | queryNodes labelRule => exact hRead _
  | relativeQueryNodes node labelRule => exact hRead _
  | openTransactionLayer node =>
      exact ThreadsafeBackend.readTree_completes (fun tree => tree.openTransactionLayer node) _ hFree
  | closeTransactionLayers =>
      exact ThreadsafeBackend.readTree_completes (fun tree => tree.closeTransactionLayers) _ hFree
  | getFullTree => exact hRead _
  | registerNodeListener name labelRule childNotify callback =>
      exact ThreadsafeBackend.changeListeners_completes
        (fun t => t.registerNodeListener name labelRule childNotify (.wrapped callback)) _ hFree
  | deregisterNodeListener name labelRule =>
      exact ThreadsafeBackend.changeListeners_completes
        (fun t => t.deregisterNodeListener name labelRule) _ hFree
  | notifyListeners labelRule node =>
      exact ThreadsafeBackend.notifyListeners_completes node (hHeld .notification) hMeets

end ThreadsafeCall

namespace BackendThread

variable {Callback : Type} {s t : BackendThread Callback}

/-- No mutex is held between the thread's actions. -/
def HoldsNothing (s : BackendThread Callback) : Prop := ∀ m, s.holding.held m = false

/-- The listeners that the action is to tell can be found: a walk of the listeners does not run
past the end of a label. -/
def FindsListeners (s : BackendThread Callback) : Action Callback → Prop
  | .call (.notifyListeners labelRule node) => ∃ notices, s.backend.tree.notifyListeners labelRule node = .ok notices
  | _ => True

theorem HoldsNothing.not_blocks (h : s.HoldsNothing) {action : Action Callback}
    (hMeets : s.MeetsNoWrapped action) : ¬ s.Blocks action := by
  cases action with
  | call operation => exact (ThreadsafeCall.perform_completes h hMeets).not_blocked
  | processNotifications =>
      exact (ThreadsafeBackend.takeNotification_completes _ fun m _ => h m).not_blocked
  | callbackReturns =>
      exact (ThreadsafeBackend.takeNotification_completes _ fun m _ => h m).not_blocked
  | callbackThrows => exact id

/-- Only a call of `notifyListeners` can meet a wrapped listener, and then it waits for itself. -/
theorem blocks_of_meets {action : Action Callback} (hFinds : s.FindsListeners action)
    (hMeets : ¬ s.MeetsNoWrapped action) : s.Blocks action := by
  cases action with
  | call operation =>
      cases operation with
      | notifyListeners labelRule node =>
          obtain ⟨notices, hNotices⟩ := hFinds
          simp only [MeetsNoWrapped, not_forall] at hMeets
          obtain ⟨reg, hCalls, hReg⟩ := hMeets
          exact ThreadsafeBackend.notifyListeners_blocked hNotices ⟨reg, hCalls, hReg⟩
      | _ => exact absurd trivial hMeets
  | _ => exact absurd trivial hMeets

/-- What it means for a step that it is a call. -/
theorem step_call {operation : ThreadsafeCall Callback} (hStep : s.step (.call operation) = some t) :
    ∃ outcome, operation.perform s.holding = (.finished outcome, t.holding) ∧ outcome.Defined ∧
      t.running = s.running := by
  simp only [BackendThread.step] at hStep
  split at hStep
  · cases hStep
  · next outcome after hOther hCall =>
      obtain rfl := Option.some.inj hStep
      exact ⟨outcome, hCall, fun kind hEq => hOther kind hEq, rfl⟩
  · cases hStep

/-- A step that is taken was not one that waits. -/
theorem HoldsNothing.meetsNoWrapped (h : s.HoldsNothing) {action : Action Callback}
    (hStep : s.step action = some t) : s.MeetsNoWrapped action := by
  cases action with
  | call operation =>
      obtain ⟨outcome, hCall, hDefined, -⟩ := step_call hStep
      cases operation with
      | notifyListeners labelRule node =>
          intro reg hReg
          by_contra hWrapped
          cases hNotices : s.backend.tree.notifyListeners labelRule node with
          | ok notices =>
              have hBlocked := ThreadsafeBackend.notifyListeners_blocked hNotices ⟨reg, hReg, hWrapped⟩
              cases (congrArg Prod.fst hCall).symm.trans hBlocked
          | error e =>
              obtain ⟨after, hError⟩ := ThreadsafeBackend.notifyListeners_error (h .notification) hNotices
              obtain rfl := Ending.finished.inj (congrArg Prod.fst (hCall.symm.trans hError))
              rcases Outcome.bind_eq_error.mp hNotices with hWalk | ⟨called, -, hOk⟩
              · exact hDefined _ (congrArg Except.error (ListenerTable.notifyListeners_error hWalk))
              · cases hOk
      | _ => trivial
  | _ => trivial

theorem HoldsNothing.deliverNext (h : s.HoldsNothing) {outer : List (QueuedNotification Callback)}
    (hNext : s.deliverNext outer = some t) : t.HoldsNothing := by
  obtain ⟨outcome, after, hTake⟩ := ThreadsafeBackend.takeNotification_completes s.holding fun m _ => h m
  unfold BackendThread.deliverNext at hNext
  rw [hTake] at hNext
  split at hNext
  · next hEq =>
      cases hEq
      exact Option.some.inj hNext ▸ h
  · next hEq =>
      cases hEq
      exact Option.some.inj hNext ▸ h
  · cases hNext

theorem HoldsNothing.step (h : s.HoldsNothing) {action : Action Callback} (hMeets : s.MeetsNoWrapped action)
    (hStep : s.step action = some t) : t.HoldsNothing := by
  cases action with
  | call operation =>
      obtain ⟨outcome, after, hCall⟩ := ThreadsafeCall.perform_completes h hMeets
      simp only [BackendThread.step, hCall] at hStep
      split at hStep
      · cases hStep
      · next hEq =>
          cases hEq
          exact Option.some.inj hStep ▸ h
      · next hEq => cases hEq
  | processNotifications => exact h.deliverNext hStep
  | callbackReturns =>
      simp only [BackendThread.step] at hStep
      split at hStep
      · cases hStep
      · exact h.deliverNext hStep
  | callbackThrows =>
      simp only [BackendThread.step] at hStep
      split at hStep
      · cases hStep
      · exact Option.some.inj hStep ▸ h

theorem HoldsNothing.reaches (hStart : s.HoldsNothing) (hRun : Reaches BackendThread.step anyStep s t) :
    t.HoldsNothing :=
  hRun.invariant hStart fun _ _ _ h _ hStep => h.step (h.meetsNoWrapped hStep) hStep

/-- In every reached state the thread holds no mutex between its actions. No action waits for a
mutex that the thread itself holds, except a call of `notifyListeners` that meets a wrapped
listener, which always does. -/
theorem blocks_iff (hStart : s.HoldsNothing) (hRun : Reaches BackendThread.step anyStep s t) :
    t.HoldsNothing ∧ ∀ action, (t.MeetsNoWrapped action → ¬ t.Blocks action) ∧
      (t.FindsListeners action → ¬ t.MeetsNoWrapped action → t.Blocks action) := by
  have hHolds : t.HoldsNothing := hStart.reaches hRun
  exact ⟨hHolds, fun action => ⟨fun hMeets => hHolds.not_blocks hMeets, blocks_of_meets⟩⟩

/-- A thread that has a backend without nodes and listeners. -/
def fresh : BackendThread Unit :=
  ⟨⟨⟨⟨.empty, .empty⟩, [], []⟩, fun _ => false⟩, []⟩

/-- The thread registers one listener, for `A`. -/
def registerA : Action Unit := .call (.registerNodeListener (str "L") (str "A") false ())

/-- It tells the listeners of `labelRule` that the node is gone. -/
def tell (labelRule : Str) : Action Unit := .call (.notifyListeners labelRule none)

theorem blocks_iff_registered : ∃ t, fresh.step registerA = some t ∧ t.HoldsNothing ∧
    ∀ action, (t.MeetsNoWrapped action → ¬ t.Blocks action) ∧
      (t.FindsListeners action → ¬ t.MeetsNoWrapped action → t.Blocks action) := by
  have hStep : fresh.step registerA = some _ := rfl
  exact ⟨_, hStep, blocks_iff (fun _ => rfl) (.single trivial hStep)⟩

/-- Telling the listener of `A` itself ends in a wait for the thread's own mutex. -/
theorem blocks_own_label : ∃ t, Reaches BackendThread.step anyStep fresh t ∧ t.Blocks (tell (str "A")) := by
  have hStep : fresh.step registerA = some _ := rfl
  exact ⟨_, .single trivial hStep, rfl⟩

end BackendThread
end Wwatp
