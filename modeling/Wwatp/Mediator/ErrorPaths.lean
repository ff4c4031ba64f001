import Wwatp.Cxx.Preconditions
import Wwatp.Mediator.YAMLCallbacks

/-! What a callback that throws does to its mediator. The flag is cleared by hand in front of each return,
and nothing clears it when a call in between throws. -/
namespace Wwatp

open Cxx Cxx.Effectful

namespace ProcessingFlags

variable {σ α : Type} (flags : ProcessingFlags σ)

def Cleared (s : σ) : Prop := flags.processing s = false

/-- A callback that sets the flag leaves it cleared, whether it returns or throws. -/
def Clears (callback : Effectful σ Unit) (s : σ) : Prop :=
  flags.isProcessing s = true ∨ Wlp callback (fun _ => flags.Cleared) flags.Cleared s

/-- The call returns. If it throws, then only after a run of the callback within the call has cleared
the flag. -/
def Settles (call : Effectful σ α) (s : σ) : Prop := Wlp call (fun _ _ => True) flags.Cleared s

variable {flags} {s : σ}

/-- The end of a callback clears the flag, so only what throws before it matters. -/
theorem clears_guarded_iff {body : Effectful σ Unit} : flags.Clears (flags.guarded body) s ↔
    flags.isProcessing s = true ∨ flags.Settles body (flags.setProcessing s true) := by
  unfold Clears
  cases hProcessing : flags.isProcessing s with
  | true => simp
  | false =>
      have hRun := flags.guarded_of_idle body hProcessing
      have hWlp : Wlp (flags.guarded body) (fun _ => flags.Cleared) flags.Cleared s ↔
          Wlp (body >>= fun _ => change fun s => flags.setProcessing s false) (fun _ => flags.Cleared) flags.Cleared
            (flags.setProcessing s true) := by
        rw [Wlp, hRun, Wlp]
      have hRuns : ¬(false = true) := Bool.false_ne_true
      rw [hWlp, wlp_bind, or_iff_right hRuns, or_iff_right hRuns]
      refine wlp_congr fun _ t => ?_
      rw [wlp_change, Cleared, flags.processing_set]
      simp

variable (flags) in
/-- Every call of `mediatorCallback` settles: the look at the other backend, and what follows from it. -/
def CloningSettles (backendTo : MediatedBackend σ) (versioned : Bool) (labelRule : Str) (mFrom : Option TreeNode) (s : σ) : Prop :=
  Wlp (backendTo.getNode labelRule) (fun mTo after =>
    match MediatorNet.answer versioned labelRule mFrom mTo with
    | some (.deleteNode label) => flags.Settles (backendTo.deleteNode label) after
    | some (.upsertNode nodes) => flags.Settles (backendTo.upsertNode nodes) after
    | _ => True) flags.Cleared s

theorem clears_mediatorCallback_iff {backendTo : MediatedBackend σ} {versioned : Bool} {labelRule : Str}
    {mFrom : Option TreeNode} : flags.Clears (flags.mediatorCallback backendTo versioned labelRule mFrom) s ↔
      flags.isProcessing s = true ∨ flags.CloningSettles backendTo versioned labelRule mFrom (flags.setProcessing s true) := by
  rw [mediatorCallback, clears_guarded_iff, Settles, wlp_bind, CloningSettles]
  refine or_congr_right (wlp_congr fun mTo after => ?_)
  unfold MediatorNet.answer
  split_ifs with hEqual
  · simp
  · cases mFrom with
    | none => rfl
    | some source =>
        dsimp only
        split_ifs
        · simp
        · rfl

end ProcessingFlags

namespace YAMLMediatorState

variable {ρ : Type} (library : YamlCpp) (yamlBackend backend : MediatedBackend (YAMLMediatorState ρ)) (specifier : PropertySpecifier)

/-- Every call of `toYAMLCallback` settles: the document takes the change, its node is there or can be made,
has room for the text, and is accepted. -/
def ToYAMLSettles (fuel : ℕ) (labelRule : Str) (mModifiedNode : Option TreeNode) (s : YAMLMediatorState ρ) : Prop :=
  Wlp (updateYAMLFrom library backend fuel labelRule mModifiedNode true) (fun _ updated =>
    Wlp (yamlBackend.getNode specifier.nodeLabel) (fun mTo after =>
      Yields (containerOf specifier (library.emit updated.yamlRepresentation) mTo)
        (fun toNode => toYAMLFlags.Settles (yamlBackend.upsertNode [toNode]) after) (toYAMLFlags.Cleared after))
      toYAMLFlags.Cleared updated) toYAMLFlags.Cleared s

/-- The changes that a document asks for are all accepted. -/
def ChangesSettle (changes : List TreeNode × List TreeNode) (s : YAMLMediatorState ρ) : Prop :=
  let deletions := forEach (fun node => backend.deleteNode node.labelRule) changes.2
  if changes.1 ≠ [] then Wlp (backend.upsertNode changes.1) (fun _ => fromYAMLFlags.Settles deletions) fromYAMLFlags.Cleared s
  else fromYAMLFlags.Settles deletions s

/-- Every call of `fromYAMLCallback` settles: there is a node, it has the property, the text parses, the
document can be read as nodes, and the tree accepts the changes. -/
def FromYAMLSettles (mModifiedYAMLNode : Option TreeNode) (s : YAMLMediatorState ρ) : Prop :=
  ∃ fromNode, mModifiedYAMLNode = some fromNode ∧
    Wlp backend.getFullTree (fun nodes after =>
      Yields (loadDocument library specifier fromNode) (fun yaml =>
        Yields (changesFrom library yaml nodes)
          (fun changes => ChangesSettle backend changes { after with yamlRepresentation := yaml })
          (fromYAMLFlags.Cleared after))
        (fromYAMLFlags.Cleared after)) fromYAMLFlags.Cleared s

variable {library yamlBackend backend specifier} {s : YAMLMediatorState ρ} {labelRule : Str}

theorem clears_toYAMLCallback_iff {fuel : ℕ} {mModifiedNode : Option TreeNode} :
    toYAMLFlags.Clears (toYAMLCallback library yamlBackend backend specifier fuel labelRule mModifiedNode) s ↔
      s.processingYAMLTree = true ∨
        ToYAMLSettles library yamlBackend backend specifier fuel labelRule mModifiedNode { s with processingTree := true } := by
  rw [toYAMLCallback, ProcessingFlags.clears_guarded_iff, ProcessingFlags.Settles, ToYAMLSettles]
  simp only [wlp_bind, wlp_look, wlp_inspect]
  rfl

theorem clears_fromYAMLCallback_iff {mModifiedYAMLNode : Option TreeNode} :
    fromYAMLFlags.Clears (fromYAMLCallback library backend specifier labelRule mModifiedYAMLNode) s ↔
      s.processingTree = true ∨
        FromYAMLSettles library backend specifier mModifiedYAMLNode { s with processingYAMLTree := true } := by
  unfold fromYAMLCallback FromYAMLSettles
  rw [ProcessingFlags.clears_guarded_iff, ProcessingFlags.Settles]
  refine or_congr_right ?_
  cases mModifiedYAMLNode with
  | none =>
      have hThrown : ¬fromYAMLFlags.Cleared (fromYAMLFlags.setProcessing s true) := nofun
      simpa [Wlp, raise] using hThrown
  | some fromNode =>
      simp only [Option.some.injEq, exists_eq_left', followDocument, wlp_bind, wlp_inspect, wlp_change]
      refine wlp_congr fun nodes after => yields_congr fun yaml => yields_congr fun changes => ?_
      rw [ChangesSettle]
      split_ifs
      · exact wlp_bind _
      · rfl

/-- For each of the three callbacks: the flag that it set is false again at its end exactly when it ignores
the notification or all its calls settle. -/
theorem clears_iff {σ : Type} (flags : ProcessingFlags σ) (backendTo : MediatedBackend σ) (versioned : Bool) (t : σ)
    (library : YamlCpp) (yamlBackend backend : MediatedBackend (YAMLMediatorState ρ)) (specifier : PropertySpecifier)
    (fuel : ℕ) (labelRule : Str) (mNode : Option TreeNode) (s : YAMLMediatorState ρ) :
    (flags.Clears (flags.mediatorCallback backendTo versioned labelRule mNode) t ↔
      flags.isProcessing t = true ∨
        flags.CloningSettles backendTo versioned labelRule mNode (flags.setProcessing t true)) ∧
    (toYAMLFlags.Clears (toYAMLCallback library yamlBackend backend specifier fuel labelRule mNode) s ↔
      s.processingYAMLTree = true ∨
        ToYAMLSettles library yamlBackend backend specifier fuel labelRule mNode { s with processingTree := true }) ∧
    (fromYAMLFlags.Clears (fromYAMLCallback library backend specifier labelRule mNode) s ↔
      s.processingTree = true ∨
        FromYAMLSettles library backend specifier mNode { s with processingYAMLTree := true }) :=
  ⟨ProcessingFlags.clears_mediatorCallback_iff, clears_toYAMLCallback_iff, clears_fromYAMLCallback_iff⟩

/-- A backend without nodes that accepts every call. -/
def emptyBackend : MediatedBackend (YAMLMediatorState Unit) where
  getNode _ := pure none
  upsertNode _ := pure ()
  deleteNode _ := pure ()
  getFullTree := pure []

/-- When the YAML node is deleted, the flag stays set, and from then on changes of the tree are ignored. -/
theorem not_clears_deleted : ¬∀ (library : YamlCpp) (specifier : PropertySpecifier),
    fromYAMLFlags.Clears (fromYAMLCallback library emptyBackend specifier (str "config") none) ⟨false, false, .null, ()⟩ := by
  intro hClears
  have hConfig := hClears (.parsing .null) ⟨str "config", str "tree", str "yaml"⟩
  rcases clears_fromYAMLCallback_iff.mp hConfig with hBusy | ⟨_, hNode, _⟩
  · cases hBusy
  · cases hNode

end YAMLMediatorState
end Wwatp
