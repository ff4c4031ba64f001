import Wwatp.Mediator.Network

/-! Two backends joined by one mediator. A notification of one of them makes the mediator write
to the other at most once, and the notification of that write finds the mediator busy. -/
namespace Wwatp
namespace MediatorNet

open Cxx Cxx.Effectful

variable {ι κ : Type} [DecidableEq ι] [DecidableEq κ] {mediator : κ → CloningMediator ι}

/-- The mediator `k` joins two backends that have no other listeners, and is idle. -/
structure Joined (mediator : κ → CloningMediator ι) (k : κ) (s : MediatorNet ι κ) : Prop where
  distinct : (mediator k).backendA ≠ (mediator k).backendB
  rootOnly : ∀ side, (s.backend ((mediator k).backend side)).nodeListeners.RootOnly
  endpoints : ∀ side, s.endpoints ((mediator k).backend side) = [(k, side)]
  idle : ∀ side, s.processing (k, side) = false

/-- The tree after the write of a callback. -/
def replyTree (t : MemoryTree) : Option TreeChange → MemoryTree
  | some (.upsertNode nodes) => t.upsertNode nodes
  | some (.deleteNode labelRule) => (t.deleteNode labelRule).1
  | _ => t

/-- The write of a callback, and the notifications of the backend that is written to. -/
def replyEvents (i : ι) : Option TreeChange → List (MediatorEvent ι)
  | none => []
  | some c => .wrote i c :: c.announced.map (.notified i)

/-- The reply of the mediator `k` to a notification of its backend on one side. -/
def replyOf (mediator : κ → CloningMediator ι) (k : κ) (side : Side) (s : MediatorNet ι κ)
    (told : Str × Option TreeNode) : Option TreeChange :=
  answer (mediator k).versioned told.1 told.2 ((s.backend ((mediator k).backend side.other)).getNode told.1)

/-- The net after one notification of the backend on one side. -/
def answered (mediator : κ → CloningMediator ι) (k : κ) (side : Side) (s : MediatorNet ι κ)
    (told : Str × Option TreeNode) : MediatorNet ι κ :=
  let other := (mediator k).backend side.other
  let reply := replyOf mediator k side s told
  { s.setTree other (replyTree (s.backend other).memoryTree reply) with
    events := s.events ++ .notified ((mediator k).backend side) told :: replyEvents other reply }

section Joined

variable {k : κ} {s : MediatorNet ι κ} (side : Side)

omit [DecidableEq ι] [DecidableEq κ] in
theorem Joined.backend_ne (h : Joined mediator k s) :
    (mediator k).backend side ≠ (mediator k).backend side.other := by
  cases side
  · exact h.distinct
  · exact h.distinct.symm

omit [DecidableEq ι] [DecidableEq κ] in
/-- A reply is a write that the tree always makes, of one node. -/
theorem replyOf_cases (told : Str × Option TreeNode) :
    replyOf mediator k side s told = none ∨
      (∃ source, told.2 = some source ∧ replyOf mediator k side s told = some (.upsertNode [source])) ∨
      (told.2 = none ∧ replyOf mediator k side s told = some (.deleteNode told.1)) := by
  unfold replyOf answer
  split_ifs
  · exact .inl rfl
  · cases hNode : told.2 with
    | none => exact .inr (.inr ⟨rfl, rfl⟩)
    | some source =>
        dsimp only
        split_ifs
        · exact .inl rfl
        · exact .inr (.inl ⟨source, rfl, rfl⟩)

variable {side}

omit [DecidableEq ι] in
/-- While the mediator is busy with a notification of the one backend, it ignores that of the
other. -/
theorem notify_of_busy {write : ι → TreeChange → Effectful (MediatorNet ι κ) Unit} {i : ι}
    (hRoot : (s.backend i).nodeListeners.RootOnly) (hEndpoints : s.endpoints i = [(k, side.other)])
    (hBusy : s.processing (k, side) = true) (told : Str × Option TreeNode) :
    notify (mediatorCallback mediator write) i told s = (.ok (), s.record (.notified i told)) := by
  rw [notify_eq hRoot, hEndpoints, forEach_singleton]
  exact mediatorCallback_of_busy (by rwa [Side.other_other])

theorem operate_of_busy {i : ι} (hRoot : (s.backend i).nodeListeners.RootOnly)
    (hEndpoints : s.endpoints i = [(k, side.other)]) (hBusy : s.processing (k, side) = true)
    {c : TreeChange} {tree : MemoryTree} (hPerform : c.perform (s.backend i).memoryTree = .ok tree)
    {told : Str × Option TreeNode} (hTold : c.announced = [told]) (fuel : ℕ) :
    operate mediator (fuel + 1) i (.change c) s = (.ok (), (s.setTree i tree).record (.notified i told)) := by
  have hAnnounced : (BackendOperation.change c).announced = [told] := hTold
  have hStored : (BackendOperation.change c).perform (s.backend i).memoryTree = .ok tree := hPerform
  have hRoot' : ((s.setTree i tree).backend i).nodeListeners.RootOnly := by rwa [setTree_nodeListeners]
  have hEndpoints' : (s.setTree i tree).endpoints i = [(k, side.other)] := by rwa [endpoints_setTree]
  have hBusy' : (s.setTree i tree).processing (k, side) = true := hBusy
  rw [operate_succ hStored, hAnnounced, forEach_singleton]
  exact notify_of_busy hRoot' hEndpoints' hBusy' told

theorem writeTo_of_busy {i : ι} (hRoot : (s.backend i).nodeListeners.RootOnly)
    (hEndpoints : s.endpoints i = [(k, side.other)]) (hBusy : s.processing (k, side) = true)
    (told : Str × Option TreeNode) (t : MediatorNet ι κ) (fuel : ℕ) :
    writeTo (fun target c => operate mediator (fuel + 1) target (.change c)) i (replyOf mediator k side t told) s =
      (.ok (), { s.setTree i (replyTree (s.backend i).memoryTree (replyOf mediator k side t told)) with
        events := s.events ++ replyEvents i (replyOf mediator k side t told) }) := by
  have hWrite {c : TreeChange} {tree : MemoryTree} {change : Str × Option TreeNode}
      (hPerform : c.perform (s.backend i).memoryTree = .ok tree) (hTold : c.announced = [change]) :
      writeTo (fun target c => operate mediator (fuel + 1) target (.change c)) i (some c) s =
        (.ok (), { s.setTree i tree with events := s.events ++ replyEvents i (some c) }) := by
    have hOperate := @operate_of_busy _ _ _ _ mediator _ (s.record (.wrote i c)) _ _ hRoot hEndpoints hBusy
      _ _ hPerform _ hTold fuel
    refine (bind_ok rfl).trans (hOperate.trans ?_)
    rw [replyEvents, hTold, List.map_singleton, List.append_cons]
    rfl
  rcases @replyOf_cases _ _ mediator k t side told with hNone | ⟨source, -, hSome⟩ | ⟨-, hSome⟩
  · rw [hNone, replyTree, replyEvents, List.append_nil, setTree_self]
    · rfl
    · nofun
    · nofun
  · rw [hSome]
    exact hWrite rfl rfl
  · rw [hSome]
    exact hWrite rfl rfl

omit [DecidableEq ι] [DecidableEq κ] in
/-- Writes, records and the flags being what they were leave two joined backends joined. -/
theorem Joined.of_same (h : Joined mediator k s) {t : MediatorNet ι κ}
    (hListeners : ∀ i, (t.backend i).nodeListeners = (s.backend i).nodeListeners)
    (hProcessing : t.processing = s.processing) : Joined mediator k t where
  distinct := h.distinct
  rootOnly side := hListeners _ ▸ h.rootOnly side
  endpoints side := by rw [← h.endpoints side, MediatorNet.endpoints, MediatorNet.endpoints, hListeners]
  idle side := hProcessing ▸ h.idle side

omit [DecidableEq κ] in
theorem Joined.setTree (h : Joined mediator k s) (i : ι) (tree : MemoryTree) : Joined mediator k (s.setTree i tree) :=
  h.of_same (fun j => setTree_nodeListeners s i j tree) rfl

omit [DecidableEq κ] in
theorem Joined.answered (h : Joined mediator k s) (side : Side) (told : Str × Option TreeNode) :
    Joined mediator k (answered mediator k side s told) :=
  h.of_same (fun j => setTree_nodeListeners s _ j _) rfl

/-- One notification of a joined backend. -/
theorem Joined.notify (h : Joined mediator k s) (fuel : ℕ) (told : Str × Option TreeNode) :
    notify (mediatorCallback mediator fun target c => operate mediator (fuel + 1) target (.change c))
      ((mediator k).backend side) told s = (.ok (), MediatorNet.answered mediator k side s told) := by
  rw [notify_eq (h.rootOnly side), h.endpoints side, forEach_singleton]
  let noted := s.record (.notified ((mediator k).backend side) told)
  have hBusy : (noted.setProcessing (k, side) true).processing (k, side) = true := Function.update_self ..
  have hWrite := @writeTo_of_busy _ _ _ _ mediator k (noted.setProcessing (k, side) true) side _
    (h.rootOnly side.other) (h.endpoints side.other) hBusy told noted fuel
  have hFlags : Function.update (Function.update s.processing (k, side) true) (k, side) false = s.processing := by
    rw [Function.update_idem, ← h.idle side, Function.update_eq_self]
  refine (mediatorCallback_of_idle (h.idle side.other) hWrite).trans ?_
  simp only [MediatorNet.answered, MediatorNet.setProcessing, MediatorNet.setTree, noted, record, hFlags,
    List.append_assoc, List.singleton_append]
  rfl

/-- An operation on a joined backend, notification by notification. -/
theorem Joined.operate (h : Joined mediator k s) {operation : BackendOperation} {tree : MemoryTree}
    (hPerform : operation.perform (s.backend ((mediator k).backend side)).memoryTree = .ok tree) (fuel : ℕ) :
    operate mediator (fuel + 2) ((mediator k).backend side) operation s =
      (.ok (), operation.announced.foldl (MediatorNet.answered mediator k side)
        (s.setTree ((mediator k).backend side) tree)) := by
  have hLoop (announced : List (Str × Option TreeNode)) {t : MediatorNet ι κ} (ht : Joined mediator k t) :
      forEach (MediatorNet.notify (mediatorCallback mediator fun target c =>
        MediatorNet.operate mediator (fuel + 1) target (.change c)) ((mediator k).backend side)) announced t =
        (.ok (), announced.foldl (MediatorNet.answered mediator k side) t) := by
    induction announced generalizing t with
    | nil => rfl
    | cons told announced ih => exact (bind_ok (ht.notify fuel told)).trans (ih (ht.answered side told))
  exact (operate_succ hPerform (fuel + 1)).trans (hLoop operation.announced (h.setTree _ tree))

omit [DecidableEq κ] in
theorem Joined.answeredAll (h : Joined mediator k s) (side : Side) (announced : List (Str × Option TreeNode)) :
    Joined mediator k (announced.foldl (MediatorNet.answered mediator k side) s) := by
  induction announced generalizing s with
  | nil => exact h
  | cons told announced ih => exact ih (h.answered side told)

omit [DecidableEq κ] in
/-- Each notification is followed by at most one write, of the other backend. -/
theorem events_answeredAll (side : Side) (announced : List (Str × Option TreeNode)) :
    ∃ replies : List (Option TreeChange), replies.length = announced.length ∧
      (announced.foldl (MediatorNet.answered mediator k side) s).events =
        s.events ++ (announced.zip replies).flatMap fun entry =>
          .notified ((mediator k).backend side) entry.1 ::
            replyEvents ((mediator k).backend side.other) entry.2 := by
  induction announced generalizing s with
  | nil => exact ⟨[], rfl, (List.append_nil _).symm⟩
  | cons told announced ih =>
      obtain ⟨replies, hLength, hEvents⟩ := @ih (MediatorNet.answered mediator k side s told)
      refine ⟨replyOf mediator k side s told :: replies, congrArg (· + 1) hLength, ?_⟩
      rw [List.foldl_cons, hEvents, List.zip_cons_cons, List.flatMap_cons, ← List.append_assoc]
      rfl

/-- An operation of a joined backend that its tree accepts returns. Each notification of the
backend makes the mediator write to the other at most once, never to the backend itself, and
both flags are false again. -/
theorem no_echo (h : Joined mediator k s) (side : Side) {operation : BackendOperation}
    (hAccepted : ∃ tree, operation.perform (s.backend ((mediator k).backend side)).memoryTree = .ok tree) (fuel : ℕ) :
    ∃ after replies, operate mediator (fuel + 2) ((mediator k).backend side) operation s = (.ok (), after) ∧
      replies.length = operation.announced.length ∧
      after.events = s.events ++ (operation.announced.zip replies).flatMap (fun entry =>
        .notified ((mediator k).backend side) entry.1 ::
          replyEvents ((mediator k).backend side.other) entry.2) ∧
      (∀ c, .wrote ((mediator k).backend side) c ∈ after.events →
        .wrote ((mediator k).backend side) c ∈ s.events) ∧
      (∀ side, after.processing (k, side) = false) ∧ Joined mediator k after := by
  obtain ⟨tree, hTree⟩ := hAccepted
  obtain ⟨replies, hLength, hEvents⟩ := @events_answeredAll _ _ _ mediator k
    (s.setTree ((mediator k).backend side) tree) side operation.announced
  have hAfter := (h.setTree ((mediator k).backend side) tree).answeredAll side operation.announced
  refine ⟨_, replies, h.operate hTree fuel, hLength, hEvents, fun c hWrote => ?_, hAfter.idle, hAfter⟩
  rw [hEvents] at hWrote
  rcases List.mem_append.mp hWrote with hOld | hNew
  · exact hOld
  · obtain ⟨entry, -, hEntry⟩ := List.mem_flatMap.mp hNew
    rcases List.mem_cons.mp hEntry with hNotified | hReply
    · cases hNotified
    · cases hEntry : entry.2 with
      | none =>
          rw [hEntry] at hReply
          cases hReply
      | some written =>
          rw [hEntry] at hReply
          rcases List.mem_cons.mp hReply with hSame | hTold
          · exact absurd (MediatorEvent.wrote.inj hSame).1 (h.backend_ne side)
          · obtain ⟨told, -, hTold⟩ := List.mem_map.mp hTold
            cases hTold

/-- Two backends without listeners are joined by the mediator that is created for them. -/
theorem Joined.create (hDistinct : (mediator k).backendA ≠ (mediator k).backendB)
    (hEmpty : ∀ side rule, (s.backend ((mediator k).backend side)).nodeListeners.under rule = []) :
    Joined mediator k (s.create mediator k) := by
  have hUnder (side : Side) (rule : Str) :
      ((s.create mediator k).backend ((mediator k).backend side)).nodeListeners.under rule =
        if rule = [] then [⟨side.listenerName, true, (k, side)⟩] else [] := by
    rw [MediatorNet.create]
    have hOther : (mediator k).backend .a ≠ (mediator k).backend .b := hDistinct
    cases side
    · simp [under_listen, hOther, hEmpty, setProcessing]
    · simp [under_listen, hOther.symm, hEmpty, setProcessing]
  refine ⟨hDistinct, fun side => ⟨fun rule hRule => ?_, fun l hl => ?_⟩, fun side => ?_, fun side => ?_⟩
  · rw [hUnder, if_neg hRule]
  · rw [hUnder, if_pos rfl] at hl
    rw [List.mem_singleton.mp hl]
  · rw [MediatorNet.endpoints, hUnder, if_pos rfl]
    rfl
  · have hFlags : (s.create mediator k).processing =
        Function.update (Function.update s.processing (k, .a) false) (k, .b) false := rfl
    rw [hFlags]
    cases side
    · have hNe : (k, Side.a) ≠ (k, Side.b) := by simp
      rw [Function.update_of_ne hNe, Function.update_self]
    · exact Function.update_self ..

end Joined

/-- Two backends without nodes and listeners, and one mediator between them. -/
def pair (versioned : Bool) : Unit → CloningMediator Side := fun _ => ⟨.a, .b, versioned⟩

def emptyPair : MediatorNet Side Unit := ⟨fun _ => ⟨.empty, .empty⟩, fun _ => false, fun _ => false, []⟩

theorem joined_emptyPair (versioned : Bool) :
    Joined (pair versioned) () (emptyPair.create (pair versioned) ()) :=
  Joined.create nofun fun _ _ => ListenerTable.under_empty _

/-- A node `A` is written. -/
def upsertA : BackendOperation := .change (.upsertNode [{ labelRule := str "A" }])

theorem no_echo_upsert : ∃ after reply,
    operate (pair true) 2 .a upsertA (emptyPair.create (pair true) ()) = (.ok (), after) ∧
    after.events = MediatorEvent.notified Side.a (str "A", some { labelRule := str "A" }) :: replyEvents .b reply ∧
    ∀ side, after.processing ((), side) = false := by
  have hAccepted : ∃ tree, upsertA.perform
      ((emptyPair.create (pair true) ()).backend ((pair true ()).backend .a)).memoryTree = .ok tree := ⟨_, rfl⟩
  obtain ⟨after, replies, hReturns, hLength, hEvents, -, hIdle, -⟩ :=
    no_echo (joined_emptyPair true) .a hAccepted 0
  obtain ⟨reply, rfl⟩ := List.length_eq_one_iff.mp hLength
  exact ⟨after, reply, hReturns, hEvents.trans (List.append_nil _), hIdle⟩

end MediatorNet
end Wwatp
