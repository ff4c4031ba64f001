import Wwatp.Cxx.DepthFirst
import Wwatp.Server.BackendOrder

/-! The error of the sort. When the dependencies run in a circle, it shows one; when a backend only names a dependency twice,
it lists the backends that are left over. -/
namespace Wwatp

open Cxx

namespace WWATPService

/-- The dependencies that `findCycle` follows. -/
def Follows (names : List Str) (dependencies : Str → List Str) (node dep : Str) : Prop :=
  dep ∈ (dependencies node).filter (· ∈ names)

section Search

variable {names : List Str} {dependencies : Str → List Str} {path visited done : List Str}

/-- What has been visited is on the path or finished. -/
structure Searched (names : List Str) (dependencies : Str → List Str) (path visited done : List Str) : Prop where
  finished : Finished (Follows names dependencies) done
  visited : ∀ node ∈ visited, node ∈ path ∨ node ∈ done

/-- What a search leaves: a cycle, or all that it was to look at finished. -/
def Explored (names : List Str) (dependencies : Str → List Str) (path done nodes : List Str)
    (found : Option (List Str) × List Str) : Prop :=
  match found.1 with
  | some cycle => IsCycle (Follows names dependencies) cycle ∧ cycle ⊆ names
  | none => ∃ later, Searched names dependencies path found.2 later ∧ done ⊆ later ∧ nodes ⊆ later

theorem explored_firstOf {find : Str → List Str → Option (Option (List Str) × List Str)} {deps : List Str}
    {found : Option (List Str) × List Str}
    (hFind : ∀ dep ∈ deps, ∀ visited done found, Searched names dependencies path visited done → find dep visited = some found →
      Explored names dependencies path done [dep] found)
    (hSearched : Searched names dependencies path visited done) (h : firstOf find deps visited = some found) :
    Explored names dependencies path done deps found := by
  induction deps generalizing visited done with
  | nil =>
      obtain rfl := Option.some.inj h
      exact ⟨done, hSearched, List.Subset.refl done, List.nil_subset done⟩
  | cons dep rest ih =>
      obtain ⟨hFirst, hRest⟩ := List.forall_mem_cons.mp hFind
      rw [firstOf] at h
      cases hDep : find dep visited with
      | none =>
          rw [hDep] at h
          cases h
      | some one =>
          obtain ⟨cycle, more⟩ := one
          have hOne := hFirst visited done _ hSearched hDep
          rw [hDep] at h
          cases cycle with
          | some cycle =>
              obtain rfl := Option.some.inj h
              exact hOne
          | none =>
              obtain ⟨next, hNext, hDone, hDepDone⟩ := hOne
              have hAll := ih hRest hNext h
              obtain ⟨cycle, last⟩ := found
              cases cycle with
              | some cycle => exact hAll
              | none =>
                  obtain ⟨later, hLater, hNextLater, hRestLater⟩ := hAll
                  have hDep := hNextLater (hDepDone List.mem_cons_self)
                  exact ⟨later, hLater, List.Subset.trans hDone hNextLater, List.cons_subset.mpr ⟨hDep, hRestLater⟩⟩

theorem explored_findCycle {fuel : ℕ} {node : Str} {found : Option (List Str) × List Str} (hNodup : path.Nodup)
    (hChain : (path ++ [node]).IsChain (Follows names dependencies)) (hNames : path ++ [node] ⊆ names)
    (hSearched : Searched names dependencies path visited done)
    (h : findCycle names dependencies fuel path node visited = some found) :
    Explored names dependencies path done [node] found := by
  induction fuel generalizing path node visited done found with
  | zero => cases h
  | succ fuel ih =>
      rw [findCycle] at h
      split_ifs at h with hPath hVisited
      · obtain rfl := Option.some.inj h
        refine ⟨isCycle_of_mem hPath hNodup hChain, List.append_subset.mpr ⟨?_, (List.append_subset.mp hNames).2⟩⟩
        exact List.Subset.trans (List.dropWhile_subset _) (List.append_subset.mp hNames).1
      · obtain rfl := Option.some.inj h
        have hFinished := (hSearched.visited node hVisited).resolve_left hPath
        exact ⟨done, hSearched, List.Subset.refl done, List.cons_subset.mpr ⟨hFinished, List.nil_subset done⟩⟩
      · have hNew : (path ++ [node]).Nodup := List.nodup_append.mpr ⟨hNodup, List.nodup_singleton node, fun a ha b hb hSame =>
          hPath (by rw [← List.mem_singleton.mp hb, ← hSame]; exact ha)⟩
        have hEntered : Searched names dependencies (path ++ [node]) (node :: visited) done := by
          refine ⟨hSearched.finished, List.forall_mem_cons.mpr ⟨.inl (List.mem_append_right _ List.mem_cons_self), ?_⟩⟩
          exact fun other hOther => (hSearched.visited other hOther).imp_left (List.mem_append_left _)
        have hDeps : Explored names dependencies (path ++ [node]) done ((dependencies node).filter (· ∈ names)) found := by
          refine explored_firstOf (fun dep hDep visited done found hSearched hFound => ih hNew ?_ ?_ hSearched hFound) hEntered h
          · rw [List.isChain_append]
            refine ⟨hChain, List.isChain_singleton dep, ?_⟩
            intro last hLast first hFirst
            rw [List.getLast?_concat, Option.mem_some_iff] at hLast
            rw [List.head?_cons, Option.mem_some_iff] at hFirst
            exact hLast ▸ hFirst ▸ hDep
          · have hName : dep ∈ names := of_decide_eq_true (List.mem_filter.mp hDep).2
            exact List.append_subset.mpr ⟨hNames, List.cons_subset.mpr ⟨hName, List.nil_subset names⟩⟩
        obtain ⟨cycle, last⟩ := found
        cases cycle with
        | some cycle => exact hDeps
        | none =>
            obtain ⟨later, hLater, hDone, hAll⟩ := hDeps
            refine ⟨node :: later, ⟨⟨fun dep hDep => hAll hDep, hLater.finished⟩, fun other hOther => ?_⟩,
              List.subset_cons_of_subset _ hDone, List.cons_subset.mpr ⟨List.mem_cons_self, List.nil_subset _⟩⟩
            rcases hLater.visited other hOther with hOld | hFinished
            · rcases List.mem_append.mp hOld with hOld | hSelf
              · exact .inl hOld
              · exact .inr (List.mem_singleton.mp hSelf ▸ List.mem_cons_self)
            · exact .inr (List.mem_cons_of_mem _ hFinished)

/-- What comes of all searches: a cycle, or the backends they start from are on none. -/
def Shown (names : List Str) (dependencies : Str → List Str) (nodes : List Str) : Option (List Str) → Prop
  | some cycle => IsCycle (Follows names dependencies) cycle ∧ cycle ⊆ names
  | none => ∀ node ∈ nodes, ¬Relation.TransGen (Follows names dependencies) node node

theorem shown_cycleFrom {nodes : List Str} {found : Option (List Str)} (hNodes : nodes ⊆ names)
    (h : cycleFrom names dependencies nodes = some found) : Shown names dependencies nodes found := by
  induction nodes generalizing found with
  | nil =>
      obtain rfl := Option.some.inj h
      exact fun node hNode => absurd hNode List.not_mem_nil
  | cons node rest ih =>
      obtain ⟨hNode, hRest⟩ := List.cons_subset.mp hNodes
      have hNone : Searched names dependencies [] [] [] := ⟨trivial, fun _ hVisited => absurd hVisited List.not_mem_nil⟩
      rw [cycleFrom] at h
      cases hFind : findCycle names dependencies (names.length + 1) [] node [] with
      | none =>
          rw [hFind] at h
          cases h
      | some one =>
          have hOne := explored_findCycle List.nodup_nil (List.isChain_singleton node)
            (List.cons_subset.mpr ⟨hNode, List.nil_subset names⟩) hNone hFind
          obtain ⟨cycle, last⟩ := one
          rw [hFind] at h
          cases cycle with
          | some cycle =>
              obtain rfl := Option.some.inj h
              exact hOne
          | none =>
              obtain ⟨later, hLater, -, hDone⟩ := hOne
              have hAll := ih hRest h
              cases found with
              | some cycle => exact hAll
              | none => exact List.forall_mem_cons.mpr ⟨hLater.finished.not_transGen (hDone List.mem_cons_self), hAll⟩

end Search

section Report

variable {yaml : YAMLLibrary} {backendConfigs : Std.ExtTreeMap Str TreeNode} {dependencies : List (Str × List Str)}

/-- `backend` comes before `name`. -/
def DependsOn (backendConfigs : Std.ExtTreeMap Str TreeNode) (dependencies : List (Str × List Str)) (name backend : Str) : Prop :=
  name ∈ backendConfigs.keys ∧ backend ∈ listed dependencies name

theorem follows_iff (hKnown : ∀ name ∈ backendConfigs.keys, ∀ d ∈ listed dependencies name, d ∈ backendConfigs.keys)
    {name backend : Str} (hName : name ∈ backendConfigs.keys) :
    Follows backendConfigs.keys (listed dependencies) name backend ↔ DependsOn backendConfigs dependencies name backend := by
  rw [Follows, List.mem_filter, decide_eq_true_eq]
  exact ⟨fun h => ⟨hName, h.1⟩, fun h => ⟨h.2, hKnown name hName backend h.2⟩⟩

/-- A cycle that the search follows is one of dependencies. -/
theorem isCycle_dependsOn {cycle : List Str} (h : IsCycle (Follows backendConfigs.keys (listed dependencies)) cycle)
    (hNames : cycle ⊆ backendConfigs.keys) : IsCycle (DependsOn backendConfigs dependencies) cycle := by
  obtain ⟨node, front, hCycle, hNodup, hChain⟩ := h
  refine ⟨node, front, hCycle, hNodup, hChain.imp_of_mem_imp fun name backend hName _ hFollows => ?_⟩
  exact ⟨hNames hName, (List.mem_filter.mp hFollows).1⟩

theorem transGen_follows (hKnown : ∀ name ∈ backendConfigs.keys, ∀ d ∈ listed dependencies name, d ∈ backendConfigs.keys)
    {name last : Str} (h : Relation.TransGen (DependsOn backendConfigs dependencies) name last) :
    Relation.TransGen (Follows backendConfigs.keys (listed dependencies)) name last := by
  have hLe : DependsOn backendConfigs dependencies ≤ Follows backendConfigs.keys (listed dependencies) := by
    intro name backend hEdge
    exact (follows_iff hKnown hEdge.1).mpr hEdge
  exact Relation.TransGen.mono hLe name last h

/-- What the error says of the backends that are left over. -/
theorem circularDependency_shows (dependencies : List (Str × List Str)) {result : List Str}
    (hSome : backendConfigs.keys.filter (· ∉ result) ≠ []) :
    (∃ cycle, IsCycle (DependsOn backendConfigs dependencies) cycle ∧
      circularDependency backendConfigs.keys (listed dependencies) result = .configError
        (str "Circular dependency detected in backend configuration. " ++ (str "Cycle: " ++ (str " -> ").intercalate cycle))) ∨
    ((∀ name ∈ backendConfigs.keys.filter (· ∉ result),
        ¬Relation.TransGen (Follows backendConfigs.keys (listed dependencies)) name name) ∧
      circularDependency backendConfigs.keys (listed dependencies) result = .configError
        (str "Circular dependency detected in backend configuration. " ++
          (str "Problematic backends: " ++ (str ", ").intercalate (backendConfigs.keys.filter (· ∉ result))))) := by
  have hNodes : backendConfigs.keys.filter (· ∉ result) ⊆ backendConfigs.keys :=
    fun name hName => (List.mem_filter.mp hName).1
  obtain ⟨found, hFound⟩ := Option.isSome_iff_exists.mp (cycleFrom_isSome (listed dependencies) hNodes)
  have hShown := shown_cycleFrom hNodes hFound
  rw [circularDependency, hFound]
  dsimp only
  rw [if_neg hSome]
  cases found with
  | some cycle => exact .inl ⟨cycle, isCycle_dependsOn hShown.1 hShown.2, rfl⟩
  | none => exact .inr ⟨hShown, rfl⟩

/-- The sort gives an order, or shows a cycle, or lists the backends that depend, through whatever others, on one
that names a dependency twice. It lists them only when there is no cycle to show. -/
theorem topologicalSort_reports (h : dependenciesOf yaml backendConfigs.toList = .ok dependencies)
    (hKnown : ∀ name ∈ backendConfigs.keys, ∀ d ∈ listed dependencies name, d ∈ backendConfigs.keys) :
    (∃ order, topologicalSort yaml backendConfigs = .ok order ∧ Kahn.Orders backendConfigs.keys (listed dependencies) order) ∨
    (∃ cycle, IsCycle (DependsOn backendConfigs dependencies) cycle ∧ topologicalSort yaml backendConfigs = .error (.configError
        (str "Circular dependency detected in backend configuration. " ++ (str "Cycle: " ++ (str " -> ").intercalate cycle)))) ∨
    ((∀ name, ¬Relation.TransGen (DependsOn backendConfigs dependencies) name name) ∧
      ∃ problematic, problematic ≠ [] ∧ topologicalSort yaml backendConfigs = .error (.configError
        (str "Circular dependency detected in backend configuration. " ++
          (str "Problematic backends: " ++ (str ", ").intercalate problematic))) ∧
      ∀ name, name ∈ problematic ↔ name ∈ backendConfigs.keys ∧
        ∃ last, Relation.ReflTransGen (DependsOn backendConfigs dependencies) name last ∧ ¬(listed dependencies last).Nodup) := by
  obtain ⟨s, hInvariant, hEmpty, hSort⟩ := topologicalSort_eq h hKnown
  by_cases hLength : s.result.length = backendConfigs.keys.length
  · rw [if_neg (not_not_intro hLength)] at hSort
    exact .inl ⟨s.result, hSort, (hInvariant.orders hEmpty hLength).1⟩
  rw [if_pos hLength] at hSort
  obtain ⟨first, hFirst, hWaits⟩ := hInvariant.exists_leftOver Std.ExtTreeMap.nodup_keys hEmpty hLength
  have hSome : backendConfigs.keys.filter (· ∉ s.result) ≠ [] :=
    List.ne_nil_of_mem (List.mem_filter.mpr ⟨hFirst, decide_eq_true hWaits⟩)
  rcases circularDependency_shows dependencies hSome with ⟨cycle, hCycle, hWhat⟩ | ⟨hNone, hWhat⟩
  · exact .inr (.inl ⟨cycle, hCycle, hSort.trans (congrArg Except.error hWhat)⟩)
  have hAcyclic (name : Str) : ¬Relation.TransGen (DependsOn backendConfigs dependencies) name name := by
    intro hCycle
    obtain ⟨next, hEdge, -⟩ := Relation.TransGen.head'_iff.mp hCycle
    have hLeft := (hInvariant.not_mem_result_iff hEmpty hKnown hEdge.1).mpr ⟨name, .refl, .inr hCycle⟩
    exact hNone name (List.mem_filter.mpr ⟨hEdge.1, decide_eq_true hLeft⟩) (transGen_follows hKnown hCycle)
  refine .inr (.inr ⟨hAcyclic, _, hSome, hSort.trans (congrArg Except.error hWhat), fun name => ?_⟩)
  rw [List.mem_filter, decide_eq_true_eq]
  refine and_congr_right fun hName => (hInvariant.not_mem_result_iff hEmpty hKnown hName).trans ?_
  exact exists_congr fun last => and_congr_right fun _ => or_iff_left (hAcyclic last)

/-- Two backends, each around the other. -/
def eachOther : Std.ExtTreeMap Str TreeNode :=
  ((∅ : Std.ExtTreeMap Str TreeNode).insert (str "a")
    (configuration [(str "type", str "threadsafe"), (str "backend", str "b")] [])).insert (str "b")
    (configuration [(str "type", str "threadsafe"), (str "backend", str "a")] [])

/-- A library that reads nothing. -/
def noYaml : YAMLLibrary where
  Node := Unit
  load _ := .ok ()
  stringAt _ _ := .ok none

theorem dependenciesOf_eachOther (yaml : YAMLLibrary) :
    dependenciesOf yaml eachOther.toList = .ok [(str "a", [str "b"]), (str "b", [str "a"])] := rfl

theorem keys_eachOther : eachOther.keys = [str "a", str "b"] := rfl

theorem topologicalSort_reports_eachOther :
    ∃ cycle, IsCycle (DependsOn eachOther [(str "a", [str "b"]), (str "b", [str "a"])]) cycle ∧
      topologicalSort noYaml eachOther = .error (.configError
        (str "Circular dependency detected in backend configuration. " ++
          (str "Cycle: " ++ (str " -> ").intercalate cycle))) := by
  have hCycle : Relation.TransGen (DependsOn eachOther [(str "a", [str "b"]), (str "b", [str "a"])]) (str "a") (str "a") := by
    refine .tail (.single (b := str "b") ⟨?_, by decide⟩) ⟨?_, by decide⟩
    · rw [keys_eachOther]
      decide
    · rw [keys_eachOther]
      decide
  have hKnown : ∀ name ∈ eachOther.keys, ∀ d ∈ listed [(str "a", [str "b"]), (str "b", [str "a"])] name,
      d ∈ eachOther.keys := by
    rw [keys_eachOther]
    decide
  rcases topologicalSort_reports (dependenciesOf_eachOther noYaml) hKnown with ⟨order, -, hOrders⟩ | hShown | ⟨hAcyclic, -⟩
  · exact absurd hCycle ((hOrders.acyclic Std.ExtTreeMap.nodup_keys).1 _)
  · exact hShown
  · exact absurd hCycle (hAcyclic _)

end Report
end WWATPService
end Wwatp
