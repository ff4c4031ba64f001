import Wwatp.File.NodeFiles
import Wwatp.Memory.Listeners

/-! The inotify watches of a `FileBackend`. A listener watches the directories from the base
path down to its node, and the files of the node, each by a chain of watches. -/
namespace Cxx

/-- The watches of an inotify instance: one descriptor for each watched place, and numbers
that were not given out yet. -/
structure Inotify where
  watched : Path → Option ℕ
  next : ℕ
  fresh : ∀ place wd, watched place = some wd → wd < next
  injective : ∀ place other wd, watched place = some wd → watched other = some wd → place = other

namespace Inotify

def empty : Inotify := ⟨fun _ => none, 0, nofun, nofun⟩

/-- The descriptor that `inotify_add_watch` returns for a place that exists. -/
def descriptor (i : Inotify) (place : Path) : ℕ := (i.watched place).getD i.next

theorem descriptor_of_watched {i : Inotify} {place : Path} {wd : ℕ} (h : i.watched place = some wd) :
    i.descriptor place = wd := by
  rw [descriptor, h, Option.getD_some]

/-- `inotify_add_watch`. -/
def add (i : Inotify) (place : Path) : Inotify where
  watched := Function.update i.watched place (some (i.descriptor place))
  next := max i.next (i.descriptor place + 1)
  fresh other wd h := by
    rw [Function.update_apply] at h
    split_ifs at h
    · obtain rfl := Option.some.inj h
      omega
    · have hOld := i.fresh other wd h
      omega
  injective first second wd hFirst hSecond := by
    have hNew {other : Path} (h : i.watched other = some (i.descriptor place)) : other = place := by
      cases hOld : i.watched place with
      | none =>
          rw [descriptor, hOld, Option.getD_none] at h
          exact absurd (i.fresh other _ h) (lt_irrefl _)
      | some wd =>
          rw [descriptor_of_watched hOld] at h
          exact i.injective other place wd h hOld
    rw [Function.update_apply] at hFirst hSecond
    split_ifs at hFirst hSecond with hOne hTwo hTwo
    · rw [hOne, hTwo]
    · obtain rfl := Option.some.inj hFirst
      rw [hOne, hNew hSecond]
    · obtain rfl := Option.some.inj hSecond
      rw [hTwo, hNew hFirst]
    · exact i.injective first second wd hFirst hSecond

/-- `inotify_rm_watch`. -/
def remove (i : Inotify) (wd : ℕ) : Inotify where
  watched place := if i.watched place = some wd then none else i.watched place
  next := i.next
  fresh place wd' h := by
    split_ifs at h
    exact i.fresh place wd' h
  injective place other wd' h hOther := by
    split_ifs at h hOther
    exact i.injective place other wd' h hOther

end Inotify
end Cxx

namespace Wwatp

open Cxx Cxx.Effectful

/-- `IN_CREATE | IN_DELETE | IN_IGNORED` of a directory, and `IN_MODIFY | IN_IGNORED` of a file. -/
inductive WatchMask
  | entries
  | contents
  deriving DecidableEq

abbrev DesiredWatch := WatchMask × Str

abbrev WatchChain := List DesiredWatch

structure WatchChainSpecifier where
  labelRule : Str
  listenerName : Str
  childNotify : Bool
  deriving DecidableEq

structure FullWatchSpecifier where
  desired : DesiredWatch
  specifier : WatchChainSpecifier
  index : ℕ
  deriving DecidableEq

namespace FileBackend

variable (b : FileBackend)

section Chains

theorem length_next_directory {nodeDir labelRule parent : Str} (hLong : b.basePath.length ≤ nodeDir.length)
    (hNe : nodeDir ≠ b.basePath) (hLabel : getLabelRuleFromFileName b.basePath nodeDir = .ok labelRule)
    (hParent : getNodeParentPath b.basePath labelRule = .ok parent) :
    2 * parent.length + (if parent = b.basePath then 0 else 1) <
      2 * nodeDir.length + if nodeDir = b.basePath then 0 else 1 := by
  rw [if_neg hNe]
  by_cases hEmpty : labelRule = []
  · rw [hEmpty, getNodeParentPath, getNodeDirectoryPath, if_pos rfl, if_pos rfl] at hParent
    obtain rfl := Except.ok.inj hParent
    rw [if_pos rfl]
    omega
  · have hShorter := length_getNodeParentPath hParent hEmpty
    have hLength := (length_getLabelRuleFromFileName hLabel).resolve_left hEmpty
    split_ifs <;> omega

/-- The loop of `node_watch_chain`, which puts the directories in front of the chain. -/
def directoryWatchChain (nodeDir : Str) (chain : WatchChain) : Outcome WatchChain :=
  if _hLong : nodeDir.length < b.basePath.length then .ok chain
  else if _hBase : nodeDir = b.basePath then .ok ((.entries, nodeDir) :: chain)
  else match _hLabel : getLabelRuleFromFileName b.basePath nodeDir with
    | .error fault => .error fault
    | .ok labelRule =>
      match _hParent : getNodeParentPath b.basePath labelRule with
      | .error fault => .error fault
      | .ok parent => directoryWatchChain parent ((.entries, nodeDir) :: chain)
termination_by 2 * nodeDir.length + if nodeDir = b.basePath then 0 else 1
decreasing_by exact b.length_next_directory (Nat.le_of_not_lt _hLong) _hBase _hLabel _hParent

/-- `node_watch_chain`: one chain for the file of the node, and one for each content file. -/
def nodeWatchChain (fs : FileSystem) (labelRule : Str) : Outcome (List WatchChain) := do
  let directories ← b.directoryWatchChain (← getNodeParentPath b.basePath labelRule) []
  let contentFiles ← b.readContentFileNames labelRule fs
  return (getNodeFileName b.basePath labelRule :: contentFiles).map fun file => directories ++ [(.contents, file)]

/-- `collect_watch_paths`, down to a depth. A missing directory makes the iterator throw. -/
def collectWatchPaths (fs : FileSystem) : ℕ → Str → Bool → Outcome (List WatchChain)
  | 0, _, _ => throw (.undefined .nonTermination)
  | depth + 1, labelRule, childNotify => do
    let chains ← b.nodeWatchChain fs labelRule
    if childNotify then do
      let nodeDir := getNodeDirectoryPath b.basePath labelRule
      match fs.readdir b.order b.cwd nodeDir with
      | .error _ => throw (.runtimeError (str "filesystem error: directory iterator cannot open directory"))
      | .ok entries => do
        let below ← (entries.filter Prod.snd).mapM fun entry => do
          collectWatchPaths fs depth (← getLabelRuleFromFileName b.basePath (nodeDir ++ entry.1)) true
        return chains ++ below.flatten
    else return chains

end Chains

end FileBackend

/-- The listeners of a `FileBackend` and its three maps, of which the second goes from
descriptors to sets, with the inotify instance. -/
structure WatchTables (Callback : Type) where
  nodeListeners : ListenerTable Callback
  watchChains : WatchChainSpecifier → Option (List WatchChain)
  watchchainToWd : FullWatchSpecifier → Option ℕ
  wdToWatchchain : ℕ → Option (Finset FullWatchSpecifier)
  inotify : Inotify

namespace WatchTables

variable {Callback : Type}

def empty : WatchTables Callback := ⟨.empty, fun _ => none, fun _ => none, fun _ => none, .empty⟩

/-- The watch of an existing path is added, and entered into both maps. -/
def enter (cwd : Path) (s : WatchTables Callback) (full : FullWatchSpecifier) : WatchTables Callback :=
  let place := placeOf cwd full.desired.2
  let wd := s.inotify.descriptor place
  { s with
    inotify := s.inotify.add place
    wdToWatchchain := Function.update s.wdToWatchchain wd (some (insert full ((s.wdToWatchchain wd).getD ∅)))
    watchchainToWd := Function.update s.watchchainToWd full (some wd) }

/-- `watchchain_to_wd_.erase(full)`. -/
def unmap (s : WatchTables Callback) (full : FullWatchSpecifier) : WatchTables Callback :=
  { s with watchchainToWd := Function.update s.watchchainToWd full none }

/-- The body of the loop in `teardownWatch`. All that shares the descriptor goes with it. -/
def tearOne (s : WatchTables Callback) (full : FullWatchSpecifier) : WatchTables Callback :=
  match s.watchchainToWd full with
  | none => s
  | some wd =>
    unmap { s with
      inotify := s.inotify.remove wd
      wdToWatchchain := Function.update s.wdToWatchchain wd none } full

/-- The set of a descriptor without an entry; an empty set goes, and its watch with it. -/
def leave (s : WatchTables Callback) (full : FullWatchSpecifier) (wd : ℕ) (entries : Finset FullWatchSpecifier) :
    WatchTables Callback :=
  if entries.erase full = ∅ then
    { s with
      inotify := s.inotify.remove wd
      wdToWatchchain := Function.update s.wdToWatchchain wd none }
  else { s with wdToWatchchain := Function.update s.wdToWatchchain wd (some (entries.erase full)) }

/-- The body of the loop in `freeWatch`. -/
def freeOne (s : WatchTables Callback) (full : FullWatchSpecifier) : WatchTables Callback :=
  match s.watchchainToWd full with
  | none => s.unmap full
  | some wd => (s.leave full wd ((s.wdToWatchchain wd).getD ∅)).unmap full

/-- What `onWatchDeleteEvent` does about a watch that is gone. -/
def dropOne (s : WatchTables Callback) (full : FullWatchSpecifier) : WatchTables Callback :=
  match s.watchchainToWd full with
  | none => s
  | some wd =>
    match s.wdToWatchchain wd with
    | none => s.unmap full
    | some entries => (s.unmap full).leave full wd entries

def teardownWatch (s : WatchTables Callback) (specifier : WatchChainSpecifier) : WatchTables Callback :=
  match s.watchChains specifier with
  | none => s
  | some chains =>
    let torn := (chains.flatten.map fun desired => (⟨desired, specifier, 0⟩ : FullWatchSpecifier)).foldl tearOne s
    { torn with watchChains := Function.update torn.watchChains specifier none }

def freeWatch (s : WatchTables Callback) (specifier : WatchChainSpecifier) : WatchTables Callback :=
  match s.watchChains specifier with
  | none => s
  | some chains =>
    let entries := chains.flatten.flatMap fun desired =>
      (List.range chains.length).map fun index => (⟨desired, specifier, index⟩ : FullWatchSpecifier)
    let freed := entries.foldl freeOne s
    { freed with watchChains := Function.update freed.watchChains specifier none }

end WatchTables

namespace FileBackend

variable (b : FileBackend) {Callback : Type}

/-- Whether the loop body of `notifyListeners` calls a listener found under `rule`. In place of
`child_notify` it tests whether the listener has a callback. -/
def shouldNotify (callable : Callback → Bool) (labelRule rule : Str) (listener : ListenerInfo Callback) :
    Outcome Bool :=
  if rule = labelRule then .ok true
  else if callable listener.callback then checkLabelRuleOverlap rule labelRule
  else .ok false

def notifyRule (callable : Callback → Bool) (labelRule rule : Str) :
    List (ListenerInfo Callback) → Outcome (List (ListenerInfo Callback))
  | [] => .ok []
  | listener :: rest => do
    let called ← shouldNotify callable labelRule rule listener
    let more ← notifyRule callable labelRule rule rest
    return if called then listener :: more else more

def notifyWalk (callable : Callback → Bool) (labelRule : Str) :
    List (Str × List (ListenerInfo Callback)) → Outcome (List (Str × ListenerInfo Callback))
  | [] => .ok []
  | (rule, listeners) :: before =>
    if partialLabelRuleMatch rule labelRule then do
      let called ← notifyRule callable labelRule rule listeners
      let more ← notifyWalk callable labelRule before
      return called.map (fun listener => (rule, listener)) ++ more
    else .ok []

/-- `notifyListeners`: the registrations whose callback is called with the label. -/
def notifyListeners (callable : Callback → Bool) (t : ListenerTable Callback) (labelRule : Str) :
    Outcome (List (Str × ListenerInfo Callback)) :=
  notifyWalk callable labelRule (entriesUpTo t.rules labelRule)

section Watches

/-! The calls that change the watches, on the files that they find. Callbacks do not call back. -/

variable (fs : FileSystem) (callable : Callback → Bool)

def setupWatch (depth : ℕ) (specifier : WatchChainSpecifier) : Effectful (WatchTables Callback) Unit := do
  let chains ← inspect fun _ => b.collectWatchPaths fs depth specifier.labelRule specifier.childNotify
  Effectful.change fun s => { s with watchChains := Function.update s.watchChains specifier (some chains) }
  forEach (fun (chain, index) => forEach (fun desired =>
    if fs.fileExists b.cwd desired.2 then Effectful.change fun s => s.enter b.cwd ⟨desired, specifier, index⟩
    else pure ()) chain) chains.zipIdx

/-- The listeners under the rule that have the name lose their watches, then their entries. -/
def deregisterNodeListener (listenerName notificationRule : Str) (s : WatchTables Callback) : WatchTables Callback :=
  let listeners := (s.nodeListeners.rules[notificationRule]?.getD []).filter fun l => l.name = listenerName
  let torn := listeners.foldl (fun s l => s.teardownWatch ⟨notificationRule, l.name, l.childNotify⟩) s
  { torn with nodeListeners := torn.nodeListeners.deregisterNodeListener listenerName notificationRule }

/-- The listener comes last, behind those that `deregisterNodeListener` leaves. -/
def registerNodeListener (depth : ℕ) (listenerName notificationRule : Str) (childNotify : Bool) (callback : Callback) :
    Effectful (WatchTables Callback) Unit := do
  Effectful.change (deregisterNodeListener listenerName notificationRule)
  b.setupWatch fs depth ⟨notificationRule, listenerName, childNotify⟩
  Effectful.change fun s => { s with
    nodeListeners := s.nodeListeners.registerNodeListener listenerName notificationRule childNotify callback }

/-- The node is read from its files, and its listeners are told. -/
def announce (labelRule : Str) : Effectful (WatchTables Callback) Unit := do
  let _ ← inspect fun _ => b.readNodeFromFiles labelRule fs
  let _ ← inspect fun s => notifyListeners callable s.nodeListeners labelRule
  return ()

/-- The watches of a listener are made anew. -/
def rebuild (depth : ℕ) (specifier : WatchChainSpecifier) : Effectful (WatchTables Callback) Unit := do
  b.announce fs callable specifier.labelRule
  Effectful.change fun s => s.freeWatch specifier
  b.setupWatch fs depth specifier

/-- The loop over the rest of a chain, which ends where a path is missing. -/
def enterRest (depth : ℕ) (specifier : WatchChainSpecifier) (index : ℕ) :
    List DesiredWatch → Effectful (WatchTables Callback) Unit
  | [] => pure ()
  | desired :: rest =>
    if fs.fileExists b.cwd desired.2 then do
      Effectful.change fun s => s.enter b.cwd ⟨desired, specifier, index⟩
      if rest = [] then b.rebuild fs callable depth specifier else enterRest depth specifier index rest
    else pure ()

/-- `createdPath` with a slash at its end. -/
def asDirectory (path : Str) : Str := if path.getLast? = some (chr '/') then path else path ++ str "/"

/-- What follows a watch in its chain. -/
def behind (full : FullWatchSpecifier) (chain : WatchChain) : Outcome (List DesiredWatch) :=
  match chain.dropWhile (· ≠ full.desired) with
  | [] => throw (.undefined .iterator)
  | _ :: rest => .ok rest

/-- The body of the loop in `onWatchCreateEvent`. -/
def onCreated (depth : ℕ) (name : Str) (full : FullWatchSpecifier) : Effectful (WatchTables Callback) Unit :=
  if chr '.' ∈ name then b.rebuild fs callable depth full.specifier
  else do
    match ← look fun s => (s.watchChains full.specifier).bind fun chains => chains[full.index]? with
    | none => pure ()
    | some chain => do
      let rest ← inspect fun _ => behind full chain
      if (rest.head?.map Prod.snd) = some (asDirectory (full.desired.2 ++ name)) then
        b.enterRest fs callable depth full.specifier full.index rest
      else pure ()

/-- What the listeners are told when a file is gone: of the `.node` file that the node is
deleted, of another one that the node is modified, if it is still there. -/
def announceGone (file labelRule : Str) : Effectful (WatchTables Callback) Unit := do
  let ending ← inspect fun _ => file.substr (sizeSub file.length 5)
  let node ← inspect fun _ => if ending = str ".node" then .ok none else b.readNodeFromFiles labelRule fs
  if ending = str ".node" ∨ node.isSome then do
    let _ ← inspect fun s => notifyListeners callable s.nodeListeners labelRule
    return ()
  else pure ()

/-- The body of the loop in `onWatchDeleteEvent`. -/
def onDeleted (name : Str) (full : FullWatchSpecifier) : Effectful (WatchTables Callback) Unit :=
  if chr '.' ∈ name then do
    match ← look fun s => s.watchChains full.specifier with
    | none => pure ()
    | some chains => do
      let file ← inspect fun _ => match chains[full.index]?.bind List.getLast? with
        | none => throw (.undefined .index)
        | some file => .ok file
      let gone : FullWatchSpecifier := ⟨file, full.specifier, full.index⟩
      let watched ← look fun s => (s.watchchainToWd gone).isSome
      if file.2 = full.desired.2 ++ name ∧ watched then do
        b.announceGone fs callable file.2 full.specifier.labelRule
        Effectful.change fun s => s.dropOne gone
      else pure ()
  else do
    match ← look fun s => (s.watchChains full.specifier).bind fun chains => chains[full.index]? with
    | none => pure ()
    | some chain => do
      let rest ← inspect fun _ => behind full chain
      match rest with
      | [] => pure ()
      | next :: _ =>
        if next.2 = asDirectory (full.desired.2 ++ name) then
          Effectful.change fun s => s.dropOne ⟨next, full.specifier, full.index⟩
        else pure ()

end Watches

/-- A call or an event. A set of watches is gone through in some order. -/
inductive WatchAction (Callback : Type)
  | register (fs : FileSystem) (depth : ℕ) (listenerName notificationRule : Str) (childNotify : Bool)
      (callback : Callback)
  | deregister (listenerName notificationRule : Str)
  | created (fs : FileSystem) (depth : ℕ) (wd : ℕ) (name : Str) (order : List FullWatchSpecifier)
  | deleted (fs : FileSystem) (wd : ℕ) (name : Str) (order : List FullWatchSpecifier)

/-- The call or event itself. An event for an unknown descriptor is ignored. -/
def WatchAction.run (callable : Callback → Bool) : WatchAction Callback → Effectful (WatchTables Callback) Unit
  | register fs depth listenerName notificationRule childNotify callback =>
      b.registerNodeListener fs depth listenerName notificationRule childNotify callback
  | deregister listenerName notificationRule => Effectful.change (deregisterNodeListener listenerName notificationRule)
  | created fs depth _ name order => forEach (b.onCreated fs callable depth name) order
  | deleted fs _ name order => forEach (b.onDeleted fs callable name) order

/-- An event goes through the watches of its descriptor. -/
def WatchAction.Orders (s : WatchTables Callback) : WatchAction Callback → Prop
  | created _ _ wd _ order => order.toFinset = (s.wdToWatchchain wd).getD ∅ ∧ order.Nodup
  | deleted _ wd _ order => order.toFinset = (s.wdToWatchchain wd).getD ∅ ∧ order.Nodup
  | _ => True

instance (s : WatchTables Callback) (action : WatchAction Callback) : Decidable (action.Orders s) := by
  unfold WatchAction.Orders
  split <;> infer_instance

/-- The tables after a call or an event, also if it throws. -/
def watchStep (callable : Callback → Bool) (s : WatchTables Callback) (action : WatchAction Callback) :
    Option (WatchTables Callback) :=
  if action.Orders s then
    match action.run b callable s with
    | (.error (.undefined _), _) => none
    | (_, after) => some after
  else none

end FileBackend
end Wwatp
