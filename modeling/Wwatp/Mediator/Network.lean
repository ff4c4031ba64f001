import Wwatp.Cxx.Fuel
import Wwatp.Cxx.Transitions
import Wwatp.Memory.Registrations
import Wwatp.Memory.TreeChanges

/-! `CloningMediator`s between `SimpleBackend`s. A mediator listens to both of its backends,
and its callback writes what one of them reports to the other, whose listeners are called
before the write returns. -/
namespace Wwatp

open Cxx Cxx.Effectful

/-- `operator<`. Numbers more than half a sequence apart are taken to have wrapped. -/
def TreeNodeVersion.before (version other : TreeNodeVersion) : Bool :=
  let this : ℤ := version.versionNumber.toNat
  let that : ℤ := other.versionNumber.toNat
  let half : ℤ := version.maxVersionSequence.toNat / 2
  if version = other then false
  else if that - this > 0 then that - this ≤ half
  else this - that > half

/-- `TreeNode::operator==`. A missing `query_how_to` equals an empty one, and the property data
are compared byte by byte. -/
def TreeNode.equals (node other : TreeNode) : Bool :=
  node.labelRule = other.labelRule && node.description = other.description &&
    node.propertyInfos = other.propertyInfos && node.version = other.version &&
    node.childNames = other.childNames && node.queryHowTo.getD [] = other.queryHowTo.getD [] &&
    node.qaSequence = other.qaSequence && node.propertyData.bytes = other.propertyData.bytes

/-- `operator==` of `fplus::maybe<TreeNode>`. -/
def equalNodes : Option TreeNode → Option TreeNode → Bool
  | none, none => true
  | some node, some other => node.equals other
  | _, _ => false

/-- One of the two backends of a mediator. -/
inductive Side
  | a
  | b
  deriving DecidableEq

namespace Side

def other : Side → Side
  | a => b
  | b => a

/-- The name under which every mediator registers with its backend of this side. -/
def listenerName : Side → Str
  | a => str "CloningMediatorA"
  | b => str "CloningMediatorB"

@[simp] theorem other_other (side : Side) : side.other.other = side := by cases side <;> rfl

theorem other_ne (side : Side) : side.other ≠ side := by cases side <;> nofun

theorem eq_or_eq_other (side which : Side) : which = side ∨ which = side.other := by
  cases side <;> cases which <;> simp [other]

theorem listenerName_injective : Function.Injective listenerName := by
  intro first second h
  cases first <;> cases second <;> first | rfl | exact absurd h (by decide)

end Side

/-- What a `CloningMediator` is constructed with. -/
structure CloningMediator (ι : Type) where
  backendA : ι
  backendB : ι
  versioned : Bool

def CloningMediator.backend {ι : Type} (m : CloningMediator ι) : Side → ι
  | .a => m.backendA
  | .b => m.backendB

/-- A notification of a backend, or a write that a mediator makes. -/
inductive MediatorEvent (ι : Type)
  | notified (backend : ι) (told : Str × Option TreeNode)
  | wrote (backend : ι) (change : TreeChange)

/-- Backends `ι` and mediators `κ`. The callback of the mediator `k` for one of its sides is
`(k, side)`, and its flag `processingA_` or `processingB_` goes by the same name. -/
structure MediatorNet (ι κ : Type) where
  backend : ι → SimpleBackend (κ × Side)
  alive : κ → Bool
  processing : κ × Side → Bool
  /-- Nothing reads the events; they are kept for statements about operations. -/
  events : List (MediatorEvent ι)

/-- An operation of a `SimpleBackend` that calls listeners. -/
inductive BackendOperation
  | change (change : TreeChange)
  | notifyListeners (labelRule : Str) (node : Option TreeNode)

namespace BackendOperation

def perform (t : MemoryTree) : BackendOperation → Outcome MemoryTree
  | change c => c.perform t
  | notifyListeners _ _ => .ok t

/-- What the listeners are told, in order. -/
def announced : BackendOperation → List (Str × Option TreeNode)
  | change c => c.announced
  | notifyListeners labelRule node => [(labelRule, node)]

end BackendOperation

namespace MediatorNet

variable {ι κ : Type} [DecidableEq ι] [DecidableEq κ]

def setTree (s : MediatorNet ι κ) (i : ι) (tree : MemoryTree) : MediatorNet ι κ :=
  { s with backend := Function.update s.backend i { s.backend i with memoryTree := tree } }

def setListeners (s : MediatorNet ι κ) (i : ι) (listeners : ListenerTable (κ × Side)) : MediatorNet ι κ :=
  { s with backend := Function.update s.backend i { s.backend i with nodeListeners := listeners } }

def setProcessing (s : MediatorNet ι κ) (endpoint : κ × Side) (value : Bool) : MediatorNet ι κ :=
  { s with processing := Function.update s.processing endpoint value }

def record (s : MediatorNet ι κ) (event : MediatorEvent ι) : MediatorNet ι κ :=
  { s with events := s.events ++ [event] }

/-- What the callback writes to the other backend: nothing if that has the node already, or in
versioned mode a later one. -/
def answer (versioned : Bool) (labelRule : Str) (mFrom mTo : Option TreeNode) : Option TreeChange :=
  if equalNodes mFrom mTo then none
  else
    match mFrom with
    | none => some (.deleteNode labelRule)
    | some source =>
        if versioned && mTo.any fun held => source.version.before held.version then none
        else some (.upsertNode [source])

variable (mediator : κ → CloningMediator ι)

/-- The write of a callback, as `write` carries it out. -/
def writeTo (write : ι → TreeChange → Effectful (MediatorNet ι κ) Unit) (target : ι) :
    Option TreeChange → Effectful (MediatorNet ι κ) Unit
  | none => pure ()
  | some c => do
      Effectful.change fun s => s.record (.wrote target c)
      write target c

/-- `mediatorCallback`, for a change of the backend on the endpoint's side. It does nothing
while the mediator is busy in the other direction. -/
def mediatorCallback (write : ι → TreeChange → Effectful (MediatorNet ι κ) Unit) (endpoint : κ × Side)
    (labelRule : Str) (mFrom : Option TreeNode) : Effectful (MediatorNet ι κ) Unit := do
  let isProcessing ← look fun s => s.processing (endpoint.1, endpoint.2.other)
  if isProcessing then pure ()
  else do
    Effectful.change fun s => s.setProcessing endpoint true
    let target := (mediator endpoint.1).backend endpoint.2.other
    let mTo ← look fun s => (s.backend target).getNode labelRule
    writeTo write target (answer (mediator endpoint.1).versioned labelRule mFrom mTo)
    Effectful.change fun s => s.setProcessing endpoint false

/-- `notifyListeners` of a backend. -/
def notify (callback : κ × Side → Str → Option TreeNode → Effectful (MediatorNet ι κ) Unit) (i : ι)
    (told : Str × Option TreeNode) : Effectful (MediatorNet ι κ) Unit := do
  Effectful.change fun s => s.record (.notified i told)
  let called ← inspect fun s => (s.backend i).nodeListeners.notifyListeners told.1
  forEach (fun reg => callback reg.2.callback told.1 told.2) called

/-- An operation on a backend, with the listeners that it calls. The fuel bounds the depth to
which writes call one another. -/
def operate : ℕ → ι → BackendOperation → Effectful (MediatorNet ι κ) Unit
  | 0, _, _ => raise (.undefined .nonTermination)
  | fuel + 1, i, operation => do
      let tree ← inspect fun s => operation.perform (s.backend i).memoryTree
      Effectful.change fun s => s.setTree i tree
      forEach (notify (mediatorCallback mediator fun target c => operate fuel target (.change c)) i) operation.announced

/-- The registration of a mediator with its backend of one side. -/
def listen (s : MediatorNet ι κ) (k : κ) (side : Side) : MediatorNet ι κ :=
  let i := (mediator k).backend side
  s.setListeners i ((s.backend i).nodeListeners.registerNodeListener side.listenerName [] true (k, side))

def unlisten (s : MediatorNet ι κ) (k : κ) (side : Side) : MediatorNet ι κ :=
  let i := (mediator k).backend side
  s.setListeners i ((s.backend i).nodeListeners.deregisterNodeListener side.listenerName [])

/-- The constructor `CloningMediator`. -/
def create (s : MediatorNet ι κ) (k : κ) : MediatorNet ι κ :=
  let idle := (s.setProcessing (k, .a) false).setProcessing (k, .b) false
  { (idle.listen mediator k .a).listen mediator k .b with alive := Function.update s.alive k true }

/-- The destructor. -/
def destroy (s : MediatorNet ι κ) (k : κ) : MediatorNet ι κ :=
  { (s.unlisten mediator k .a).unlisten mediator k .b with alive := Function.update s.alive k false }

/-- What happens in a net: mediators come and go, and operations are made, here with any amount
of fuel. -/
inductive Action (ι κ : Type)
  | create (k : κ)
  | destroy (k : κ)
  | operate (fuel : ℕ) (i : ι) (operation : BackendOperation)

/-- The net after an action. An operation that throws leaves what it has done; one whose fuel
gives out is no step. -/
def step (s : MediatorNet ι κ) : Action ι κ → Option (MediatorNet ι κ)
  | .create k => if s.alive k then none else some (s.create mediator k)
  | .destroy k => if s.alive k then some (s.destroy mediator k) else none
  | .operate fuel i operation =>
      match operate mediator fuel i operation s with
      | (.error (.undefined _), _) => none
      | (_, after) => some after

variable {mediator} in
/-- An operation that is a step has returned, or has thrown what C++ defines. -/
theorem operate_of_step {s t : MediatorNet ι κ} {fuel : ℕ} {i : ι} {operation : BackendOperation}
    (h : step mediator s (.operate fuel i operation) = some t) :
    ∃ result, operate mediator fuel i operation s = (result, t) ∧ ∀ behaviour, result ≠ .error (.undefined behaviour) := by
  rw [step] at h
  split at h
  · cases h
  · next result after hDefined hCall =>
      obtain rfl := Option.some.inj h
      exact ⟨result, hCall, hDefined⟩

variable {mediator} in
theorem step_of_operate {s t : MediatorNet ι κ} {fuel : ℕ} {i : ι} {operation : BackendOperation}
    (h : operate mediator fuel i operation s = (.ok (), t)) :
    step mediator s (.operate fuel i operation) = some t := by
  rw [step, h]

section Fields

variable (s : MediatorNet ι κ) (i j : ι) (tree : MemoryTree)

omit [DecidableEq κ]

theorem backend_setTree : (s.setTree i tree).backend j =
    if j = i then { s.backend i with memoryTree := tree } else s.backend j :=
  Function.update_apply ..

@[simp] theorem setTree_memoryTree : ((s.setTree i tree).backend j).memoryTree =
    if j = i then tree else (s.backend j).memoryTree := by
  rw [backend_setTree]
  split_ifs <;> rfl

@[simp] theorem setTree_nodeListeners :
    ((s.setTree i tree).backend j).nodeListeners = (s.backend j).nodeListeners := by
  rw [backend_setTree]
  split_ifs with hj
  · rw [hj]
  · rfl

@[simp] theorem setTree_self : s.setTree i (s.backend i).memoryTree = s := by
  cases s
  simp only [setTree, Function.update_eq_self]

end Fields

section Frame

/-! What an operation leaves alone. -/

variable {I : MediatorNet ι κ → Prop} {mediator}

omit [DecidableEq ι] [DecidableEq κ] in
theorem keeps_writeTo {write : ι → TreeChange → Effectful (MediatorNet ι κ) Unit}
    (hRecord : ∀ s event, I s → I (s.record event)) (hWrite : ∀ target c, Keeps I (write target c))
    (target : ι) (reply : Option TreeChange) : Keeps I (writeTo write target reply) := by
  cases reply with
  | none => exact keeps_pure ()
  | some c => exact keeps_bind (fun s h => hRecord s _ h) fun _ _ _ => hWrite target c

/-- An operation keeps what is independent of trees, flags and events. -/
theorem keeps_operate (hTree : ∀ s i tree, I s → I (s.setTree i tree))
    (hRecord : ∀ s event, I s → I (s.record event))
    (hProcessing : ∀ s endpoint value, I s → I (s.setProcessing endpoint value)) (fuel : ℕ) (i : ι)
    (operation : BackendOperation) : Keeps I (operate mediator fuel i operation) := by
  induction fuel generalizing i operation with
  | zero => exact keeps_raise _
  | succ fuel ih =>
      refine keeps_bind (keeps_inspect _) fun _ tree _ => keeps_bind (fun s h => hTree s i tree h) fun _ _ _ => ?_
      refine keeps_forEach fun told _ => keeps_bind (fun s h => hRecord s _ h) fun _ _ _ => ?_
      refine keeps_bind (keeps_inspect _) fun _ called _ => keeps_forEach fun reg _ => ?_
      refine keeps_bind (keeps_look _) fun _ isProcessing _ => ?_
      cases isProcessing with
      | true => exact keeps_pure ()
      | false =>
          refine keeps_bind (fun s h => hProcessing s _ _ h) fun _ _ _ => keeps_bind (keeps_look _) fun _ mTo _ => ?_
          refine keeps_bind (keeps_writeTo hRecord (fun target c => ih target (.change c)) _ _) fun _ _ _ => ?_
          exact fun s h => hProcessing s _ _ h

/-- The listeners and mediators of two nets are the same. -/
def SameListeners (s t : MediatorNet ι κ) : Prop :=
  (∀ i, (t.backend i).nodeListeners = (s.backend i).nodeListeners) ∧ t.alive = s.alive

omit [DecidableEq κ] in
theorem SameListeners.setTree {s t : MediatorNet ι κ} (h : SameListeners s t) (i : ι) (tree : MemoryTree) :
    SameListeners s (t.setTree i tree) := by
  refine ⟨fun j => ?_, h.2⟩
  rw [setTree_nodeListeners, h.1]

theorem sameListeners_operate (s : MediatorNet ι κ) (fuel : ℕ) (i : ι) (operation : BackendOperation) :
    SameListeners s (operate mediator fuel i operation s).2 :=
  keeps_operate (I := SameListeners s) (fun _ i tree h => h.setTree i tree) (fun _ _ h => h) (fun _ _ _ h => h)
    fuel i operation s ⟨fun _ => rfl, rfl⟩

end Frame

section Fuel

variable {mediator}

omit [DecidableEq ι] [DecidableEq κ] in
theorem writeTo_approximates {write more : ι → TreeChange → Effectful (MediatorNet ι κ) Unit}
    (h : ∀ target c, Approximates (write target c) (more target c)) (target : ι) (reply : Option TreeChange) :
    Approximates (writeTo write target reply) (writeTo more target reply) := by
  cases reply with
  | none => exact .refl _
  | some c => exact (Approximates.refl _).bind fun _ => h target c

/-- More fuel changes nothing, unless it gave out. -/
theorem operate_approximates {fuel more : ℕ} (hLe : fuel ≤ more) (i : ι) (operation : BackendOperation) :
    Approximates (operate (κ := κ) mediator fuel i operation) (operate mediator more i operation) := by
  induction fuel generalizing more i operation with
  | zero => exact approximates_raise _
  | succ fuel ih =>
      obtain ⟨more, rfl⟩ : ∃ m, more = m + 1 := ⟨more - 1, by omega⟩
      refine (Approximates.refl _).bind fun tree => (Approximates.refl _).bind fun _ => ?_
      refine Approximates.forEach (fun told => (Approximates.refl _).bind fun _ => ?_) _
      refine (Approximates.refl _).bind fun called => Approximates.forEach (fun reg => ?_) _
      refine (Approximates.refl _).bind fun isProcessing => ?_
      cases isProcessing with
      | true => exact .refl _
      | false =>
          refine (Approximates.refl _).bind fun _ => (Approximates.refl _).bind fun mTo => ?_
          refine (writeTo_approximates (fun target c => ih (by omega) target (.change c)) _ _).bind fun _ => ?_
          exact .refl _

end Fuel

section Calls

/-! How the calls of an operation go. -/

variable {mediator} {s s' : MediatorNet ι κ} {i : ι}

/-- The callbacks of a backend's listeners, in the order in which they are called. -/
def endpoints (s : MediatorNet ι κ) (i : ι) : List (κ × Side) :=
  ((s.backend i).nodeListeners.under []).map ListenerInfo.callback

omit [DecidableEq κ] in
@[simp] theorem endpoints_setTree (s : MediatorNet ι κ) (i j : ι) (tree : MemoryTree) :
    (s.setTree i tree).endpoints j = s.endpoints j := by
  rw [endpoints, setTree_nodeListeners, endpoints]

omit [DecidableEq ι] [DecidableEq κ] in
theorem notify_eq (hRoot : (s.backend i).nodeListeners.RootOnly)
    (callback : κ × Side → Str → Option TreeNode → Effectful (MediatorNet ι κ) Unit) (told : Str × Option TreeNode) :
    notify callback i told s =
      forEach (fun endpoint => callback endpoint told.1 told.2) (s.endpoints i) (s.record (.notified i told)) := by
  have hCalled : inspect (fun s : MediatorNet ι κ => (s.backend i).nodeListeners.notifyListeners told.1)
      (s.record (.notified i told)) = (.ok (((s.backend i).nodeListeners.under []).map fun l => ([], l)),
        s.record (.notified i told)) := congrArg (·, _) (hRoot.notifyListeners told.1)
  refine (bind_ok rfl).trans ((bind_ok hCalled).trans ?_)
  rw [forEach_map, endpoints, forEach_map]

theorem operate_succ {operation : BackendOperation} {tree : MemoryTree}
    (h : operation.perform (s.backend i).memoryTree = .ok tree) (fuel : ℕ) :
    operate mediator (fuel + 1) i operation s = forEach (notify (mediatorCallback mediator
      fun target c => operate mediator fuel target (.change c)) i) operation.announced (s.setTree i tree) :=
  (bind_inspect (f := fun s : MediatorNet ι κ => operation.perform (s.backend i).memoryTree) h).trans
    (bind_change _ _ _)

theorem operate_throws {operation : BackendOperation} {e : Fault}
    (h : operation.perform (s.backend i).memoryTree = .error e) (fuel : ℕ) :
    operate mediator (fuel + 1) i operation s = (.error e, s) :=
  bind_error (congrArg (·, s) h)

variable {write : ι → TreeChange → Effectful (MediatorNet ι κ) Unit} {endpoint : κ × Side} {labelRule : Str}
  {mFrom : Option TreeNode}

omit [DecidableEq ι] in
theorem mediatorCallback_of_busy (h : s.processing (endpoint.1, endpoint.2.other) = true) :
    mediatorCallback mediator write endpoint labelRule mFrom s = (.ok (), s) := by
  have hBusy : look (fun s : MediatorNet ι κ => s.processing (endpoint.1, endpoint.2.other)) s = (.ok true, s) :=
    congrArg (fun b => (Except.ok b, s)) h
  exact bind_ok hBusy

/-- The backend that an endpoint writes to. -/
def target (mediator : κ → CloningMediator ι) (endpoint : κ × Side) : ι :=
  (mediator endpoint.1).backend endpoint.2.other

omit [DecidableEq ι] in
/-- An idle callback answers with its own flag set. -/
theorem mediatorCallback_eq_of_idle (h : s.processing (endpoint.1, endpoint.2.other) = false) :
    mediatorCallback mediator write endpoint labelRule mFrom s =
      (writeTo write (target mediator endpoint) (answer (mediator endpoint.1).versioned labelRule mFrom
        ((s.backend (target mediator endpoint)).getNode labelRule)) >>= fun _ =>
          Effectful.change fun s => s.setProcessing endpoint false) (s.setProcessing endpoint true) := by
  have hIdle : look (fun s : MediatorNet ι κ => s.processing (endpoint.1, endpoint.2.other)) s = (.ok false, s) :=
    congrArg (fun b => (Except.ok b, s)) h
  exact (bind_ok hIdle).trans ((bind_ok rfl).trans (bind_ok rfl))

omit [DecidableEq ι] in
theorem mediatorCallback_of_idle (h : s.processing (endpoint.1, endpoint.2.other) = false)
    (hWrite : writeTo write (target mediator endpoint) (answer (mediator endpoint.1).versioned labelRule mFrom
      ((s.backend (target mediator endpoint)).getNode labelRule)) (s.setProcessing endpoint true) = (.ok (), s')) :
    mediatorCallback mediator write endpoint labelRule mFrom s = (.ok (), s'.setProcessing endpoint false) :=
  (mediatorCallback_eq_of_idle h).trans (bind_ok hWrite)

end Calls

section Registration

/-! What the constructor and the destructor do to the listeners. -/

variable (s : MediatorNet ι κ) (k : κ) (side : Side) (j : ι) (rule : Str)

omit [DecidableEq κ]

theorem backend_setListeners (i : ι) (listeners : ListenerTable (κ × Side)) :
    (s.setListeners i listeners).backend j =
      if j = i then { s.backend i with nodeListeners := listeners } else s.backend j :=
  Function.update_apply ..

@[simp] theorem memoryTree_setListeners (i : ι) (listeners : ListenerTable (κ × Side)) :
    ((s.setListeners i listeners).backend j).memoryTree = (s.backend j).memoryTree := by
  rw [backend_setListeners]
  split_ifs with hj
  · rw [hj]
  · rfl

@[simp] theorem nodeListeners_setListeners (i : ι) (listeners : ListenerTable (κ × Side)) :
    ((s.setListeners i listeners).backend j).nodeListeners =
      if j = i then listeners else (s.backend j).nodeListeners := by
  rw [backend_setListeners]
  split_ifs <;> rfl

theorem under_listen : ((s.listen mediator k side).backend j).nodeListeners.under rule =
    if j = (mediator k).backend side ∧ rule = [] then
      ((s.backend j).nodeListeners.under []).filter (fun l => l.name ≠ side.listenerName) ++
        [⟨side.listenerName, true, (k, side)⟩]
    else (s.backend j).nodeListeners.under rule := by
  rw [listen, nodeListeners_setListeners]
  by_cases hj : j = (mediator k).backend side
  · rw [if_pos hj, ListenerTable.under_register, ← hj]
    by_cases hRule : rule = []
    · rw [if_pos hRule, if_pos ⟨rfl, hRule⟩]
    · rw [if_neg hRule, if_neg fun h => hRule h.2]
  · rw [if_neg hj, if_neg fun h => hj h.1]

theorem under_unlisten : ((s.unlisten mediator k side).backend j).nodeListeners.under rule =
    if j = (mediator k).backend side ∧ rule = [] then
      ((s.backend j).nodeListeners.under []).filter (fun l => l.name ≠ side.listenerName)
    else (s.backend j).nodeListeners.under rule := by
  rw [unlisten, nodeListeners_setListeners]
  by_cases hj : j = (mediator k).backend side
  · rw [if_pos hj, ListenerTable.under_deregister, ← hj]
    by_cases hRule : rule = []
    · rw [if_pos hRule, if_pos ⟨rfl, hRule⟩]
    · rw [if_neg hRule, if_neg fun h => hRule h.2]
  · rw [if_neg hj, if_neg fun h => hj h.1]

theorem memoryTree_create [DecidableEq κ] :
    ((s.create mediator k).backend j).memoryTree = (s.backend j).memoryTree := by
  rw [create, listen, memoryTree_setListeners, listen, memoryTree_setListeners]
  rfl

end Registration

end MediatorNet
end Wwatp
