import Wwatp.Cxx.Numbers
import Wwatp.Memory.Registrations

/-! The listeners of a `YAMLMediator`: one for its tree backend, and one for the node of its YAML
backend that holds the document. -/
namespace Wwatp

open Cxx

/-- The property that holds the document. -/
structure PropertySpecifier where
  nodeLabel : Str
  propertyName : Str
  propertyType : Str
  deriving DecidableEq

/-- What a `YAMLMediator` registers with. The backends may be one and the same. -/
structure YAMLMediator (ι Callback : Type) where
  backendTree : ι
  backendYAMLTree : ι
  specifier : PropertySpecifier
  /-- the value of `yaml_mediator_instance_counter` -/
  instanceId : ℕ
  /-- the callback for changes of the tree -/
  onTree : Callback
  /-- the callback for changes of the YAML node -/
  onYAMLTree : Callback

namespace YAMLMediator

variable {ι Callback : Type} (m : YAMLMediator ι Callback)

def treeListenerName : Str :=
  str "YAMLMediatorTree_" ++ m.specifier.nodeLabel ++ str "_" ++ toDecimal m.instanceId

def yamlTreeListenerName : Str :=
  str "YAMLMediatorYAMLTree_" ++ m.specifier.nodeLabel ++ str "_" ++ toDecimal m.instanceId

theorem treeListenerName_ne : m.treeListenerName ≠ m.yamlTreeListenerName := by
  intro hSame
  have hLength := congrArg List.length hSame
  simp only [treeListenerName, yamlTreeListenerName, List.length_append, Nat.add_right_cancel_iff] at hLength
  exact absurd hLength (by decide)

variable [DecidableEq ι]

/-- The end of the constructor, after the initialization. -/
def registerNodeListeners (listeners : ι → ListenerTable Callback) : ι → ListenerTable Callback :=
  let withTree := Function.update listeners m.backendTree
    ((listeners m.backendTree).registerNodeListener m.treeListenerName [] true m.onTree)
  Function.update withTree m.backendYAMLTree
    ((withTree m.backendYAMLTree).registerNodeListener m.yamlTreeListenerName m.specifier.nodeLabel false m.onYAMLTree)

/-- The destructor. The rule of the second listener is not the one that it was registered with. -/
def deregisterNodeListeners (listeners : ι → ListenerTable Callback) : ι → ListenerTable Callback :=
  let withoutTree := Function.update listeners m.backendTree
    ((listeners m.backendTree).deregisterNodeListener m.treeListenerName [])
  Function.update withoutTree m.backendYAMLTree
    ((withoutTree m.backendYAMLTree).deregisterNodeListener m.yamlTreeListenerName [])

/-- No listener has a callback of the mediator. -/
def Unreferenced (listeners : ι → ListenerTable Callback) : Prop :=
  ∀ i rule, ∀ l ∈ (listeners i).under rule, l.callback ≠ m.onTree ∧ l.callback ≠ m.onYAMLTree

omit [DecidableEq ι] in
theorem under_update [DecidableEq ι] (listeners : ι → ListenerTable Callback) (i j : ι) (t : ListenerTable Callback)
    (rule : Str) :
    (Function.update listeners i t j).under rule = if j = i then t.under rule else (listeners j).under rule := by
  rw [Function.update_apply]
  split_ifs <;> rfl

variable {m} {listeners : ι → ListenerTable Callback}

/-- A listener of the tree backend with the mediator's name is gone after the destructor. -/
theorem name_ne_of_restored {l : ListenerInfo Callback}
    (h : l ∈ (m.deregisterNodeListeners (m.registerNodeListeners listeners) m.backendTree).under []) :
    l.name ≠ m.treeListenerName := by
  by_cases hSame : m.backendTree = m.backendYAMLTree
  · simp only [deregisterNodeListeners, under_update, ListenerTable.under_deregister, if_true, hSame] at h
    exact of_decide_eq_true (List.mem_filter.mp (List.mem_filter.mp h).1).2
  · simp only [deregisterNodeListeners, under_update, ListenerTable.under_deregister, if_true, if_neg hSame] at h
    exact of_decide_eq_true (List.mem_filter.mp h).2

theorem yaml_name_ne_of_restored {l : ListenerInfo Callback}
    (h : l ∈ (m.deregisterNodeListeners (m.registerNodeListeners listeners) m.backendYAMLTree).under []) :
    l.name ≠ m.yamlTreeListenerName := by
  simp only [deregisterNodeListeners, under_update, ListenerTable.under_deregister, if_true] at h
  exact of_decide_eq_true (List.mem_filter.mp h).2

/-- The listener of the YAML node stays, unless that node is the root. -/
theorem mem_restored (hLabel : m.specifier.nodeLabel ≠ []) : ⟨m.yamlTreeListenerName, false, m.onYAMLTree⟩ ∈
    (m.deregisterNodeListeners (m.registerNodeListeners listeners) m.backendYAMLTree).under m.specifier.nodeLabel := by
  simp only [deregisterNodeListeners, registerNodeListeners, under_update, ListenerTable.under_deregister,
    ListenerTable.under_register, if_neg hLabel, if_true]
  by_cases hSame : m.backendYAMLTree = m.backendTree
  · simp [hSame]
  · simp [hSame]

theorem filter_absent {listeners : List (ListenerInfo Callback)} {name : Str} (h : ∀ l ∈ listeners, l.name ≠ name) :
    listeners.filter (fun l => !decide (l.name = name)) = listeners :=
  List.filter_eq_self.mpr fun l hl => by simp [h l hl]

/-- For the root, both listeners go as they came. -/
theorem restored (hLabel : m.specifier.nodeLabel = [])
    (hTree : ∀ l ∈ (listeners m.backendTree).under [], l.name ≠ m.treeListenerName)
    (hYAML : ∀ l ∈ (listeners m.backendYAMLTree).under [], l.name ≠ m.yamlTreeListenerName) :
    m.deregisterNodeListeners (m.registerNodeListeners listeners) = listeners := by
  refine funext fun i => ListenerTable.ext_under fun rule => ?_
  have hNames := m.treeListenerName_ne
  have hTreeGone := filter_absent hTree
  have hYAMLGone := filter_absent hYAML
  simp only [deregisterNodeListeners, registerNodeListeners, under_update, ListenerTable.under_deregister,
    ListenerTable.under_register, hLabel, if_true]
  by_cases hRule : rule = []
  · subst hRule
    by_cases hY : i = m.backendYAMLTree
    · subst hY
      by_cases hSame : m.backendYAMLTree = m.backendTree
      · rw [hSame] at hYAMLGone
        simp [hSame, hTreeGone, hYAMLGone, hNames, List.filter_append]
      · simp [hSame, hYAMLGone, List.filter_append]
    · by_cases hT : i = m.backendTree
      · subst hT
        simp [hY, hTreeGone, List.filter_append]
      · simp [hY, hT]
  · by_cases hY : i = m.backendYAMLTree
    · subst hY
      by_cases hSame : m.backendYAMLTree = m.backendTree <;> simp [hRule, hSame]
    · by_cases hT : i = m.backendTree
      · subst hT
        simp [hRule, hY]
      · simp [hY, hT]

/-- Constructing the mediator and then destroying it leaves all tables as they were, without a
callback of the mediator, exactly when its YAML node is the root and no listener had one of its
names there. -/
theorem restored_iff (hFresh : m.Unreferenced listeners) :
    (m.deregisterNodeListeners (m.registerNodeListeners listeners) = listeners ∧
        m.Unreferenced (m.deregisterNodeListeners (m.registerNodeListeners listeners))) ↔
      m.specifier.nodeLabel = [] ∧ (∀ l ∈ (listeners m.backendTree).under [], l.name ≠ m.treeListenerName) ∧
        ∀ l ∈ (listeners m.backendYAMLTree).under [], l.name ≠ m.yamlTreeListenerName := by
  constructor
  · rintro ⟨hSame, hGone⟩
    refine ⟨by_contra fun hLabel => ?_, fun l hl => ?_, fun l hl => ?_⟩
    · exact (hGone m.backendYAMLTree m.specifier.nodeLabel _ (mem_restored hLabel)).2 rfl
    · rw [← hSame] at hl
      exact name_ne_of_restored hl
    · rw [← hSame] at hl
      exact yaml_name_ne_of_restored hl
  · rintro ⟨hLabel, hTree, hYAML⟩
    have hRestored := restored hLabel hTree hYAML
    exact ⟨hRestored, by rwa [hRestored]⟩

/-- The first mediator between two backends, for a property of a node. -/
def first (nodeLabel : Str) : YAMLMediator Bool Bool where
  backendTree := false
  backendYAMLTree := true
  specifier := ⟨nodeLabel, str "config", str "yaml"⟩
  instanceId := 0
  onTree := false
  onYAMLTree := true

theorem unreferenced_empty (nodeLabel : Str) : (first nodeLabel).Unreferenced fun _ => .empty := by
  simp [Unreferenced]

theorem restored_iff_root :
    ((first []).deregisterNodeListeners ((first []).registerNodeListeners fun _ => .empty) = (fun _ => .empty) ∧
        (first []).Unreferenced ((first []).deregisterNodeListeners ((first []).registerNodeListeners fun _ => .empty))) ↔
      (first []).specifier.nodeLabel = [] ∧
        (∀ l ∈ (.empty : ListenerTable Bool).under [], l.name ≠ (first []).treeListenerName) ∧
        ∀ l ∈ (.empty : ListenerTable Bool).under [], l.name ≠ (first []).yamlTreeListenerName :=
  restored_iff (unreferenced_empty [])

/-- The callback for the YAML node outlives the mediator. -/
theorem not_restored_config : (first (str "config")).Unreferenced (fun _ => .empty) ∧
    ¬((first (str "config")).deregisterNodeListeners ((first (str "config")).registerNodeListeners fun _ => .empty) =
        (fun _ => .empty) ∧
      (first (str "config")).Unreferenced
        ((first (str "config")).deregisterNodeListeners ((first (str "config")).registerNodeListeners fun _ => .empty))) := by
  refine ⟨unreferenced_empty _, fun ⟨_, hGone⟩ => ?_⟩
  exact (hGone true (str "config") _ (mem_restored (m := first (str "config")) (by decide))).2 rfl

end YAMLMediator
end Wwatp
