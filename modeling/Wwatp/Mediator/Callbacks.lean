import Wwatp.Mediator.Network

/-! The callbacks of mediators between any two backends. A call of a backend may do anything to the
state, such as run a callback again before it returns. -/
namespace Wwatp

open Cxx Cxx.Effectful

/-- What the mediators call of a `Backend`; they do not read what the writes return. -/
structure MediatedBackend (σ : Type) where
  getNode : Str → Effectful σ (Option TreeNode)
  upsertNode : List TreeNode → Effectful σ Unit
  deleteNode : Str → Effectful σ Unit
  getFullTree : Effectful σ (List TreeNode)

/-- The flags of one direction of a mediator, as a state has them. -/
structure ProcessingFlags (σ : Type) where
  /-- the flag that a callback sets -/
  processing : σ → Bool
  setProcessing : σ → Bool → σ
  /-- the flag of the other direction -/
  isProcessing : σ → Bool
  processing_set : ∀ s value, processing (setProcessing s value) = value

namespace ProcessingFlags

variable {σ : Type} (flags : ProcessingFlags σ)

/-- The frame of every callback: a notification that comes from the other direction is ignored, and
each return is preceded by `setProcessing.store(false)`. -/
def guarded (body : Effectful σ Unit) : Effectful σ Unit := do
  if ← look flags.isProcessing then pure ()
  else do
    change fun s => flags.setProcessing s true
    body
    change fun s => flags.setProcessing s false

theorem guarded_of_busy {s : σ} (body : Effectful σ Unit) (h : flags.isProcessing s = true) :
    flags.guarded body s = (.ok (), s) := by
  have hBusy : look flags.isProcessing s = (.ok true, s) := congrArg (fun b => (Except.ok b, s)) h
  exact bind_ok hBusy

/-- A callback that is not ignored ends by clearing its flag, unless the body throws. -/
theorem guarded_of_idle {s : σ} (body : Effectful σ Unit) (h : flags.isProcessing s = false) :
    flags.guarded body s =
      (body >>= fun _ => change fun s => flags.setProcessing s false) (flags.setProcessing s true) := by
  have hIdle : look flags.isProcessing s = (.ok false, s) := congrArg (fun b => (Except.ok b, s)) h
  exact (bind_ok hIdle).trans (bind_change _ _ _)

/-- `mediatorCallback`. -/
def mediatorCallback (backendTo : MediatedBackend σ) (versioned : Bool) (labelRule : Str) (mFrom : Option TreeNode) :
    Effectful σ Unit :=
  flags.guarded do
    let mTo ← backendTo.getNode labelRule
    if equalNodes mFrom mTo then pure ()
    else
      match mFrom with
      | none => backendTo.deleteNode labelRule
      | some source =>
          if versioned && mTo.any fun held => source.version.before held.version then pure ()
          else backendTo.upsertNode [source]

end ProcessingFlags

namespace MediatorNet

variable {ι κ : Type} [DecidableEq ι] [DecidableEq κ]

/-- The flags of a mediator in a net. -/
def flags (endpoint : κ × Side) : ProcessingFlags (MediatorNet ι κ) where
  processing s := s.processing endpoint
  setProcessing s value := s.setProcessing endpoint value
  isProcessing s := s.processing (endpoint.1, endpoint.2.other)
  processing_set _ _ := Function.update_self ..

/-- A backend of a net, as the mediators write to it. -/
def backendOf (write : ι → TreeChange → Effectful (MediatorNet ι κ) Unit) (i : ι) : MediatedBackend (MediatorNet ι κ) where
  getNode label := look fun s => (s.backend i).getNode label
  upsertNode nodes := writeTo write i (some (.upsertNode nodes))
  deleteNode label := writeTo write i (some (.deleteNode label))
  getFullTree := look fun s => (s.backend i).memoryTree.getFullTree

omit [DecidableEq ι] [DecidableEq κ] in
theorem writeTo_answer (write : ι → TreeChange → Effectful (MediatorNet ι κ) Unit) (i : ι) (versioned : Bool)
    (labelRule : Str) (mFrom mTo : Option TreeNode) :
    writeTo write i (answer versioned labelRule mFrom mTo) =
      if equalNodes mFrom mTo then pure ()
      else
        match mFrom with
        | none => (backendOf write i).deleteNode labelRule
        | some source =>
            if versioned && mTo.any fun held => source.version.before held.version then pure ()
            else (backendOf write i).upsertNode [source] := by
  unfold answer
  split_ifs with hEqual
  · rfl
  · cases mFrom with
    | none => rfl
    | some source =>
        dsimp only
        split_ifs <;> rfl

omit [DecidableEq ι] in
/-- In a net the callback is that of the mediator, between the backends of the net. -/
theorem mediatorCallback_eq (mediator : κ → CloningMediator ι)
    (write : ι → TreeChange → Effectful (MediatorNet ι κ) Unit) (endpoint : κ × Side) (labelRule : Str)
    (mFrom : Option TreeNode) :
    mediatorCallback mediator write endpoint labelRule mFrom =
      (flags endpoint).mediatorCallback (backendOf write (target mediator endpoint)) (mediator endpoint.1).versioned
        labelRule mFrom := by
  funext s
  rw [ProcessingFlags.mediatorCallback]
  cases hProcessing : s.processing (endpoint.1, endpoint.2.other) with
  | true =>
      rw [mediatorCallback_of_busy hProcessing, ProcessingFlags.guarded_of_busy _ _ hProcessing]
  | false =>
      have hIdle : look (fun s : MediatorNet ι κ => s.processing (endpoint.1, endpoint.2.other)) s = (.ok false, s) :=
        congrArg (fun b => (Except.ok b, s)) hProcessing
      rw [ProcessingFlags.guarded_of_idle _ _ hProcessing]
      refine (bind_ok hIdle).trans ((bind_ok rfl).trans ((bind_ok rfl).trans (bind_congr ?_ _)))
      exact (congrFun (writeTo_answer write _ _ _ _ _) _).trans (bind_ok rfl).symm

end MediatorNet
end Wwatp
