import Wwatp.Cxx.TopologicalSort
import Wwatp.Tree.Properties

/-! The order in which `WWATPService` constructs its backends. -/
namespace Wwatp

open Cxx

/-- Why a call of the service ends early. -/
inductive ServiceFault
  | configError (what : Str)
  | undefined (kind : Undefined)
  deriving DecidableEq

/-- What `YAML::Load` throws. -/
inductive LoadFault
  | parserException (what : Str)
  | exception (what : Str)

/-- What the service uses of the YAML library. A key that is not there has no string; an exception
has its text. -/
structure YAMLLibrary where
  Node : Type
  load : Str → Except LoadFault Node
  stringAt : Node → Str → Except Str (Option Str)

namespace WWATPService

abbrev Result := Except ServiceFault

/-- A call whose standard exceptions are caught. -/
def attempt {α : Type} : Outcome α → Result (Option α)
  | .ok a => .ok (some a)
  | .error (.undefined kind) => .error (.undefined kind)
  | .error _ => .ok none

variable (yaml : YAMLLibrary)

/-- `hasConfigProperty`, with the text of the property if there is one. -/
def configText (node : TreeNode) : Result (Option Str) := do
  match ← attempt (node.getPropertyValueSpan (str "config")) with
  | none => return none
  | some (_, _, span) => return if span.size > 0 then some span.bytes else none

/-- `requireConfigStringProperty` for the text of the `config` property. -/
def requireConfigStringProperty (text propertyName : Str) : Result Str :=
  match yaml.load text with
  | .error (.parserException what) => throw (.configError (str "YAML parsing error in config property: " ++ what))
  | .error (.exception what) => throw (.configError (str "Error accessing config property: " ++ what))
  | .ok config =>
    match yaml.stringAt config propertyName with
    | .error what =>
      throw (.configError (str "Error accessing required config property '" ++ propertyName ++ str "': " ++ what))
    | .ok none => throw (.configError (str "Required property '" ++ propertyName ++ str "' not found in config YAML"))
    | .ok (some value) => .ok value

def requireStringProperty (node : TreeNode) (propertyName : Str) : Result Str := do
  match ← attempt (node.getPropertyString propertyName) with
  | some (_, c :: value) => return c :: value
  | _ =>
    match ← configText node with
    | none => throw (.configError (str "Required property '" ++ propertyName ++ str "' not found in node"))
    | some text => requireConfigStringProperty yaml text propertyName

def getBackendDependencies (config : TreeNode) : Result (List Str) := do
  let backendType ← requireStringProperty yaml config (str "type")
  if backendType = str "simple" ∨ backendType = str "file" then return []
  else
    let backendDependency ← requireStringProperty yaml config (str "backend")
    return backendDependency :: if backendType = str "composite" then config.childNames else []

/-- The `dependencies` of all backends, in the order of the map. -/
def dependenciesOf : List (Str × TreeNode) → Result (List (Str × List Str))
  | [] => .ok []
  | (name, config) :: rest => do
    let deps ← getBackendDependencies yaml config
    let more ← dependenciesOf rest
    return (name, deps) :: more

/-- `dependencies[name]`. -/
def listed (dependencies : List (Str × List Str)) (name : Str) : List Str :=
  ((dependencies.find? fun entry => entry.1 = name).map Prod.snd).getD []

/-- The loop of `findCycle` over the dependencies, with what is done for each. It leaves the cycle,
if one is found, and the visited nodes. -/
def firstOf (find : Str → List Str → Option (Option (List Str) × List Str)) :
    List Str → List Str → Option (Option (List Str) × List Str)
  | [], visited => some (none, visited)
  | dep :: rest, visited =>
    match find dep visited with
    | none => none
    | some (some cycle, visited) => some (some cycle, visited)
    | some (none, visited) => firstOf find rest visited

/-- `findCycle`; without an answer when the fuel runs out. -/
def findCycle (names : List Str) (dependencies : Str → List Str) :
    ℕ → List Str → Str → List Str → Option (Option (List Str) × List Str)
  | 0, _, _, _ => none
  | fuel + 1, path, node, visited =>
    if node ∈ path then some (some (path.dropWhile (· ≠ node) ++ [node]), visited)
    else if node ∈ visited then some (none, visited)
    else firstOf (findCycle names dependencies fuel (path ++ [node]))
      ((dependencies node).filter (· ∈ names)) (node :: visited)

/-- The first cycle that is found from an unprocessed node. -/
def cycleFrom (names : List Str) (dependencies : Str → List Str) : List Str → Option (Option (List Str))
  | [] => some none
  | node :: rest =>
    match findCycle names dependencies (names.length + 1) [] node [] with
    | none => none
    | some (some cycle, _) => some (some cycle)
    | some (none, _) => cycleFrom names dependencies rest

/-- The error when not all backends are in the result. -/
def circularDependency (names : List Str) (dependencies : Str → List Str) (result : List Str) : ServiceFault :=
  let cycleNodes := names.filter (· ∉ result)
  match cycleFrom names dependencies cycleNodes with
  | none => .undefined .nonTermination
  | some cycle =>
    .configError (str "Circular dependency detected in backend configuration. " ++
      if cycleNodes = [] then [] else
        match cycle with
        | some path => str "Cycle: " ++ (str " -> ").intercalate path
        | none => str "Problematic backends: " ++ (str ", ").intercalate cycleNodes)

def topologicalSort (backendConfigs : Std.ExtTreeMap Str TreeNode) : Result (List Str) := do
  let names := backendConfigs.keys
  let dependencies ← dependenciesOf yaml backendConfigs.toList
  let missingDeps := dependencies.flatMap fun (name, deps) => (deps.filter (· ∉ names)).map fun dep => (name, dep)
  if missingDeps ≠ [] then
    throw (.configError (str "Missing backend dependencies detected: " ++
      (str ", ").intercalate (missingDeps.map fun (name, dep) => name ++ str " -> " ++ dep)))
  else
    match Kahn.run names (listed dependencies) (names.length + 1) (.start names (listed dependencies)) with
    | none => throw (.undefined .nonTermination)
    | some s =>
      if s.result.length ≠ names.length then throw (circularDependency names (listed dependencies) s.result)
      else return s.result

/-- All dependencies are among the backends, and none of these depends on itself. -/
structure Orderable (names : List Str) (dependencies : Str → List Str) : Prop where
  known : ∀ name ∈ names, ∀ d ∈ dependencies name, d ∈ names
  acyclic : Kahn.Acyclic names dependencies

/-- The backends come in an order when there is one; otherwise there is a `ConfigError`. -/
structure Sorts (backendConfigs : Std.ExtTreeMap Str TreeNode) : Prop where
  orders : ∀ dependencies, dependenciesOf yaml backendConfigs.toList = .ok dependencies →
    Orderable backendConfigs.keys (listed dependencies) →
      ∃ order, topologicalSort yaml backendConfigs = .ok order ∧ Kahn.Orders backendConfigs.keys (listed dependencies) order
  throws : (∀ dependencies, dependenciesOf yaml backendConfigs.toList = .ok dependencies →
      ¬Orderable backendConfigs.keys (listed dependencies)) →
    ∃ what, topologicalSort yaml backendConfigs = .error (.configError what)

/-- Some backend names a dependency twice. -/
def NamesTwice (names : List Str) (dependencies : Str → List Str) : Prop := ∃ name ∈ names, ¬(dependencies name).Nodup

section Cycles

variable {names : List Str} {dependencies : Str → List Str}

theorem firstOf_isSome {find : Str → List Str → Option (Option (List Str) × List Str)} {deps : List Str}
    (h : ∀ dep ∈ deps, ∀ visited, (find dep visited).isSome) (visited : List Str) : (firstOf find deps visited).isSome := by
  induction deps generalizing visited with
  | nil => rfl
  | cons dep rest ih =>
      obtain ⟨hFirst, hRest⟩ := List.forall_mem_cons.mp h
      obtain ⟨⟨cycle, more⟩, hFind⟩ := Option.isSome_iff_exists.mp (hFirst visited)
      rw [firstOf, hFind]
      cases cycle with
      | none => exact ih hRest more
      | some cycle => rfl

/-- The path never holds a backend twice, so the search ends. -/
theorem findCycle_isSome (dependencies : Str → List Str) {fuel : ℕ} {path : List Str} (hNodup : path.Nodup) (hPath : path ⊆ names)
    (hFuel : names.length < fuel + path.length) {node : Str} (hNode : node ∈ names) (visited : List Str) :
    (findCycle names dependencies fuel path node visited).isSome := by
  induction fuel generalizing path node visited with
  | zero =>
      have hLe := (List.subperm_of_subset hNodup hPath).length_le
      omega
  | succ fuel ih =>
      rw [findCycle]
      split_ifs with hFound hVisited
      · rfl
      · rfl
      · refine firstOf_isSome (fun dep hDep visited => ?_) _
        have hNew : (path ++ [node]).Nodup := List.nodup_append.mpr ⟨hNodup, List.nodup_singleton node, fun a ha b hb hSame =>
          hFound (by rw [← List.mem_singleton.mp hb, ← hSame]; exact ha)⟩
        refine ih hNew (List.append_subset.mpr ⟨hPath, by simpa using hNode⟩) ?_ ?_ visited
        · rw [List.length_append, List.length_singleton]
          omega
        · exact of_decide_eq_true (List.mem_filter.mp hDep).2

theorem cycleFrom_isSome (dependencies : Str → List Str) {nodes : List Str} (h : nodes ⊆ names) : (cycleFrom names dependencies nodes).isSome := by
  induction nodes with
  | nil => rfl
  | cons node rest ih =>
      obtain ⟨hNode, hRest⟩ := List.cons_subset.mp h
      obtain ⟨⟨cycle, visited⟩, hFind⟩ := Option.isSome_iff_exists.mp
        (findCycle_isSome dependencies List.nodup_nil (List.nil_subset names)
          (Nat.lt_succ_self names.length) hNode [])
      rw [cycleFrom, hFind]
      cases cycle with
      | none => exact ih hRest
      | some cycle => rfl

theorem circularDependency_eq (names : List Str) (dependencies : Str → List Str) (result : List Str) :
    ∃ what, circularDependency names dependencies result = .configError what := by
  obtain ⟨cycle, hCycle⟩ := Option.isSome_iff_exists.mp
    (cycleFrom_isSome dependencies fun name (hName : name ∈ names.filter (· ∉ result)) => (List.mem_filter.mp hName).1)
  rw [circularDependency, hCycle]
  exact ⟨_, rfl⟩

end Cycles

section Sorting

variable {yaml} {backendConfigs : Std.ExtTreeMap Str TreeNode} {dependencies : List (Str × List Str)}

theorem bind_eq_ok {α β : Type} {x : Result α} {f : α → Result β} {b : β} :
    (x >>= f) = .ok b ↔ ∃ a, x = .ok a ∧ f a = .ok b := by
  cases x <;> simp [bind, Except.bind]

theorem keys_dependenciesOf {configs : List (Str × TreeNode)} (h : dependenciesOf yaml configs = .ok dependencies) :
    dependencies.map Prod.fst = configs.map Prod.fst := by
  induction configs generalizing dependencies with
  | nil =>
      obtain rfl := Except.ok.inj h
      rfl
  | cons entry rest ih =>
      obtain ⟨name, config⟩ := entry
      obtain ⟨deps, -, h⟩ := bind_eq_ok.mp h
      obtain ⟨more, hMore, h⟩ := bind_eq_ok.mp h
      obtain rfl := Except.ok.inj h
      rw [List.map_cons, List.map_cons, ih hMore]

theorem keys_eq (h : dependenciesOf yaml backendConfigs.toList = .ok dependencies) :
    dependencies.map Prod.fst = backendConfigs.keys := by
  rw [keys_dependenciesOf h, Std.ExtTreeMap.map_fst_toList_eq_keys]

theorem listed_of_mem (hKeys : (dependencies.map Prod.fst).Nodup) {name : Str} {deps : List Str}
    (h : (name, deps) ∈ dependencies) : listed dependencies name = deps := by
  have hSome : (dependencies.find? fun entry => entry.1 = name).isSome :=
    List.find?_isSome.mpr ⟨_, h, decide_eq_true rfl⟩
  obtain ⟨entry, hEntry⟩ := Option.isSome_iff_exists.mp hSome
  have hName : entry.1 = name := by simpa using List.find?_some hEntry
  have hSame := List.inj_on_of_nodup_map hKeys (List.mem_of_find?_eq_some hEntry) h hName
  rw [listed, hEntry, hSame, Option.map_some, Option.getD_some]

/-- No dependency is reported missing exactly when all are among the backends. -/
theorem missingDeps_eq_nil (h : dependenciesOf yaml backendConfigs.toList = .ok dependencies) :
    (dependencies.flatMap fun (name, deps) => (deps.filter (· ∉ backendConfigs.keys)).map fun dep => (name, dep)) = [] ↔
      ∀ name ∈ backendConfigs.keys, ∀ d ∈ listed dependencies name, d ∈ backendConfigs.keys := by
  have hKeys := keys_eq h
  have hNodup : (dependencies.map Prod.fst).Nodup := by
    rw [hKeys]
    exact Std.ExtTreeMap.nodup_keys
  rw [List.flatMap_eq_nil_iff]
  constructor
  · intro hNone name hName d hd
    obtain ⟨⟨_, deps⟩, hEntry, rfl⟩ := List.mem_map.mp (hKeys ▸ hName)
    rw [listed_of_mem hNodup hEntry] at hd
    have hEmpty := List.filter_eq_nil_iff.mp (List.map_eq_nil_iff.mp (hNone _ hEntry)) d hd
    simpa using hEmpty
  · intro hKnown entry hEntry
    refine List.map_eq_nil_iff.mpr (List.filter_eq_nil_iff.mpr fun d hd => ?_)
    have hName : entry.1 ∈ backendConfigs.keys := hKeys ▸ List.mem_map_of_mem hEntry
    simpa using hKnown entry.1 hName d (by rwa [listed_of_mem hNodup hEntry])

/-- Without missing dependencies the sort is a run of Kahn's algorithm to its end, with an error when not all backends
are finished then. -/
theorem topologicalSort_eq (h : dependenciesOf yaml backendConfigs.toList = .ok dependencies)
    (hKnown : ∀ name ∈ backendConfigs.keys, ∀ d ∈ listed dependencies name, d ∈ backendConfigs.keys) :
    ∃ s : Kahn Str, Kahn.Invariant backendConfigs.keys (listed dependencies) s ∧ s.queue = [] ∧
      topologicalSort yaml backendConfigs =
        if s.result.length ≠ backendConfigs.keys.length then
          throw (circularDependency backendConfigs.keys (listed dependencies) s.result)
        else .ok s.result := by
  have hNames : backendConfigs.keys.Nodup := Std.ExtTreeMap.nodup_keys
  obtain ⟨s, hRun, hInvariant, hEmpty⟩ := Kahn.run_ends hNames (backendConfigs.keys.length + 1)
    (Kahn.invariant_start (listed dependencies) hNames) (by simp [Kahn.start])
  refine ⟨s, hInvariant, hEmpty, ?_⟩
  rw [topologicalSort, h]
  show (if _ then _ else _) = _
  rw [if_neg (not_not_intro ((missingDeps_eq_nil h).mpr hKnown)), hRun]
  rfl

/-- Without missing dependencies the sort returns exactly when there is an order and no backend names
a dependency twice. -/
theorem topologicalSort_known (h : dependenciesOf yaml backendConfigs.toList = .ok dependencies)
    (hKnown : ∀ name ∈ backendConfigs.keys, ∀ d ∈ listed dependencies name, d ∈ backendConfigs.keys) :
    (Kahn.Acyclic backendConfigs.keys (listed dependencies) ∧ ¬NamesTwice backendConfigs.keys (listed dependencies) ∧
        ∃ order, topologicalSort yaml backendConfigs = .ok order ∧
          Kahn.Orders backendConfigs.keys (listed dependencies) order) ∨
      (¬(Kahn.Acyclic backendConfigs.keys (listed dependencies) ∧ ¬NamesTwice backendConfigs.keys (listed dependencies)) ∧
        ∃ what, topologicalSort yaml backendConfigs = .error (.configError what)) := by
  obtain ⟨s, hInvariant, hEmpty, hSort⟩ := topologicalSort_eq h hKnown
  have hFull := Kahn.full_iff Std.ExtTreeMap.nodup_keys hInvariant hEmpty hKnown
  have hTwice : ¬NamesTwice backendConfigs.keys (listed dependencies) ↔
      ∀ name ∈ backendConfigs.keys, (listed dependencies name).Nodup := by
    simp [NamesTwice]
  rw [hTwice, hSort]
  by_cases hLength : s.result.length = backendConfigs.keys.length
  · rw [if_neg (not_not_intro hLength)]
    obtain ⟨hAcyclic, hOnce⟩ := hFull.mp hLength
    exact .inl ⟨hAcyclic, hOnce, s.result, rfl, (hInvariant.orders hEmpty hLength).1⟩
  · rw [if_pos hLength, ← hFull]
    obtain ⟨what, hWhat⟩ := circularDependency_eq backendConfigs.keys (listed dependencies) s.result
    exact .inr ⟨hLength, what, congrArg Except.error hWhat⟩

theorem topologicalSort_missing (h : dependenciesOf yaml backendConfigs.toList = .ok dependencies)
    (hMissing : ¬∀ name ∈ backendConfigs.keys, ∀ d ∈ listed dependencies name, d ∈ backendConfigs.keys) :
    ∃ what, topologicalSort yaml backendConfigs = .error (.configError what) := by
  rw [topologicalSort, h]
  exact ⟨_, if_pos fun hNone => hMissing ((missingDeps_eq_nil h).mp hNone)⟩

/-- An order that exists is missed when a backend names a dependency twice. -/
theorem not_sorts_of_namesTwice (h : dependenciesOf yaml backendConfigs.toList = .ok dependencies)
    (hOrderable : Orderable backendConfigs.keys (listed dependencies))
    (hTwice : NamesTwice backendConfigs.keys (listed dependencies)) : ¬Sorts yaml backendConfigs := by
  intro hSorts
  obtain ⟨order, hOrder, -⟩ := hSorts.orders dependencies h hOrderable
  rcases topologicalSort_known h hOrderable.known with ⟨-, hOnce, -⟩ | ⟨-, what, hWhat⟩
  · exact hOnce hTwice
  · rw [hOrder] at hWhat
    cases hWhat

/-- The backends are sorted exactly when the configurations can be read and, where there is an order,
no backend names a dependency twice. -/
theorem sorts_iff (yaml : YAMLLibrary) (backendConfigs : Std.ExtTreeMap Str TreeNode) :
    Sorts yaml backendConfigs ↔
      (∀ kind, dependenciesOf yaml backendConfigs.toList ≠ .error (.undefined kind)) ∧
        ∀ dependencies, dependenciesOf yaml backendConfigs.toList = .ok dependencies →
          ¬(Orderable backendConfigs.keys (listed dependencies) ∧ NamesTwice backendConfigs.keys (listed dependencies)) := by
  constructor
  · intro hSorts
    refine ⟨fun kind hKind => ?_, fun dependencies h hBoth => not_sorts_of_namesTwice h hBoth.1 hBoth.2 hSorts⟩
    obtain ⟨what, hWhat⟩ := hSorts.throws fun dependencies h => by
      rw [hKind] at h
      cases h
    rw [topologicalSort, hKind] at hWhat
    cases hWhat
  · rintro ⟨hDefined, hOnce⟩
    constructor
    · intro dependencies h hOrderable
      rcases topologicalSort_known h hOrderable.known with ⟨-, -, hOrder⟩ | ⟨hNot, -⟩
      · exact hOrder
      · exact absurd ⟨hOrderable.acyclic, fun hTwice => hOnce dependencies h ⟨hOrderable, hTwice⟩⟩ hNot
    · intro hNone
      cases hRead : dependenciesOf yaml backendConfigs.toList with
      | error fault =>
          cases fault with
          | undefined kind => exact absurd hRead (hDefined kind)
          | configError what =>
              refine ⟨what, ?_⟩
              rw [topologicalSort, hRead]
              rfl
      | ok dependencies =>
          by_cases hKnown : ∀ name ∈ backendConfigs.keys, ∀ d ∈ listed dependencies name, d ∈ backendConfigs.keys
          · rcases topologicalSort_known hRead hKnown with ⟨hAcyclic, -⟩ | ⟨-, hWhat⟩
            · exact absurd ⟨hKnown, hAcyclic⟩ (hNone dependencies hRead)
            · exact hWhat
          · exact topologicalSort_missing hRead hKnown

end Sorting

/-- A configuration with string properties. -/
def configuration (properties : List (Str × Str)) (childNames : List Str) : TreeNode where
  childNames := childNames
  propertyInfos := properties.map fun (name, _) => (str "string", name)
  propertyData := .concat (properties.flatMap fun (_, value) =>
    [.ofSignal (.payload ⟨0, 0x00, 8⟩) (leBytes 8 value.length), .ofSignal (.payload ⟨4, 0x00, .ofNat value.length⟩) value])

/-- A backend `a`, and a composite one with `a` as its root and as its child. -/
def rootAndChild : Std.ExtTreeMap Str TreeNode :=
  ((∅ : Std.ExtTreeMap Str TreeNode).insert (str "a") (configuration [(str "type", str "simple")] [])).insert (str "b")
    (configuration [(str "type", str "composite"), (str "backend", str "a")] [str "a"])

theorem dependenciesOf_rootAndChild (yaml : YAMLLibrary) :
    dependenciesOf yaml rootAndChild.toList = .ok [(str "a", []), (str "b", [str "a", str "a"])] := rfl

theorem keys_rootAndChild : rootAndChild.keys = [str "a", str "b"] := rfl

/-- `a` before `b` is an order, but the sort reports a cycle. -/
theorem not_sorts_rootAndChild : ¬∃ yaml : YAMLLibrary, Sorts yaml rootAndChild := by
  rintro ⟨yaml, hSorts⟩
  refine not_sorts_of_namesTwice (dependenciesOf_rootAndChild yaml) ⟨?_, ?_⟩ ?_ hSorts
  · rw [keys_rootAndChild]
    decide
  · have hNames : ([str "a", str "b"] : List Str).Nodup := by decide
    have hOrders : Kahn.Orders [str "a", str "b"] (listed [(str "a", []), (str "b", [str "a", str "a"])])
        [str "a", str "b"] := by
      refine ⟨.refl _, fun front name back hSplit d hd => ?_⟩
      match front, hSplit with
      | [], hSplit =>
          obtain ⟨rfl, -⟩ := List.cons_eq_cons.mp hSplit
          cases hd
      | [first], hSplit =>
          have hName : str "b" = name := (List.cons_eq_cons.mp (List.cons_eq_cons.mp hSplit).2).1
          rw [← hName] at hd
          have hTwice : d ∈ [str "a", str "a"] := hd
          rw [← (List.cons_eq_cons.mp hSplit).1]
          simpa using hTwice
      | _ :: _ :: front, hSplit => simp at hSplit
    rw [keys_rootAndChild]
    exact (hOrders.acyclic hNames).1
  · rw [keys_rootAndChild]
    exact ⟨str "b", by decide, by decide⟩

end WWATPService
end Wwatp
