import Wwatp.Mediator.Callbacks
import Wwatp.Mediator.YAMLMediator
import Wwatp.Tree.YamlNodes

/-! The callbacks of a `YAMLMediator`: one keeps the document up to date with the tree, the other the
tree with the document. -/
namespace Wwatp

open Cxx Cxx.Effectful

/-- `split` at slashes: nothing follows a slash at the end. -/
def split (s : Str) : List Str :=
  let parts := s.splitOn (chr '/')
  if parts.getLast? = some [] then parts.dropLast else parts

/-- `getChildNode`. The entries of a sequence have no names. -/
def getChildNode (childName : Str) : Yaml → Outcome (Option Yaml)
  | .map entries => .ok (Yaml.lookup entries childName)
  | .sequence (_ :: _) => throw Yaml.badConversion
  | _ => .ok none

/-- The loop of `updateYAMLFrom` up to the last part: the document with the parents that `create` makes
where they are missing, and whether the last one has been reached. -/
def reachParent (create : Bool) : List Str → Yaml → Outcome (Bool × Yaml)
  | [], yaml => .ok (false, yaml)
  | [last], yaml => do
    let _ ← getChildNode last yaml
    return (true, yaml)
  | part :: rest, yaml => do
    match ← getChildNode part yaml with
    | some child =>
      let (reached, child) ← reachParent create rest child
      return (reached, ← yaml.put part child)
    | none =>
      if create then
        let yaml ← yaml.put part .null
        let (reached, child) ← reachParent create rest .null
        return (reached, ← yaml.put part child)
      else return (false, yaml)

/-- A change of the last parent. -/
def atParent (change : Str → Yaml → Outcome Yaml) : List Str → Yaml → Outcome Yaml
  | [], yaml => .ok yaml
  | [last], yaml => change last yaml
  | part :: rest, yaml => do
    match ← getChildNode part yaml with
    | some child => yaml.put part (← atParent change rest child)
    | none => return yaml

/-- The removal of an entry that is there. -/
def removeChild (last : Str) (yaml : Yaml) : Outcome Yaml := do
  match ← getChildNode last yaml with
  | some _ => return yaml.remove last
  | none => return yaml

section Reading

variable (library : YamlCpp)

/-- The names under the children that a node lists, each behind the name of the node. A child that is
listed and not there has no children. -/
def namesOf (walks : List (Str × (Str → Outcome (List Str)))) (labelPrefix : Str) : List Str → Outcome (List Str)
  | [] => .ok []
  | child :: rest => do
    let name := if labelPrefix = [] then child else labelPrefix ++ str "/" ++ child
    let below ← (walks.find? fun walk => walk.1 = child).elim (.ok []) fun walk => walk.2 name
    return name :: below ++ (← namesOf walks labelPrefix rest)

mutual

/-- `walk_children`. -/
def walkChildren : Yaml → Str → Outcome (List Str)
  | .map entries, labelPrefix => do
    match Yaml.lookup entries (str "child_names") with
    | some childNames => namesOf (walksOf entries) labelPrefix (← childNames.strings library.nullString)
    | none => return []
  | .sequence (_ :: _), _ => throw Yaml.badConversion
  | _, _ => .ok []

def walksOf : List (Str × Yaml) → List (Str × (Str → Outcome (List Str)))
  | [] => []
  | entry :: rest => walkOf entry :: walksOf rest

def walkOf : Str × Yaml → Str × (Str → Outcome (List Str))
  | (key, value) => (key, walkChildren value)

end

/-- `walk_names` of a whole document. -/
def walkNames : Yaml → Outcome (List Str)
  | .map entries => do
    return (← entries.mapM fun entry => do return entry.1 :: (← walkChildren library entry.2 entry.1)).flatten
  | .sequence items => do
    return (← items.zipIdx.mapM fun (item, i) => do
      let name := str "[" ++ toDecimal i ++ str "]"
      return name :: (← walkChildren library item name)).flatten
  | _ => .ok []

/-- The loop to the node of a label: only maps are looked into. -/
def nodeAt : List Str → Yaml → Option Yaml
  | [], yaml => some yaml
  | part :: rest, .map entries => (Yaml.lookup entries part).bind (nodeAt rest)
  | _, _ => none

/-- `isNodeModified`. -/
def isNodeModified (node : TreeNode) (yaml : Yaml) : Outcome Bool :=
  match nodeAt (split node.labelRule) yaml with
  | none => .ok true
  | some curNode => do
    let compareNode ← library.fromYAMLNode curNode [] node.labelRule
    return !node.equals compareNode

/-- `getNodeFromYAML`; the prefix ends with the last slash of the label. -/
def getNodeFromYAML (labelRule : Str) (yaml : Yaml) : Outcome (Option TreeNode) :=
  let parts := split labelRule
  match nodeAt parts yaml with
  | none => .ok none
  | some curNode =>
    match parts.getLast? with
    | none => throw (.undefined .index)
    | some name => do
      let labelPrefix := if 1 < parts.length then labelRule.take ((labelRule.findLast (chr '/')).elim 0 (· + 1)) else []
      return some (← library.fromYAMLNode curNode labelPrefix name)

/-- The loop over the stored nodes: the forms of the modified ones, and the ones to delete. -/
def compareStored (yaml : Yaml) : List TreeNode → Outcome (List TreeNode × List TreeNode)
  | [] => .ok ([], [])
  | node :: rest => do
    if ← isNodeModified library node yaml then
      match ← getNodeFromYAML library node.labelRule yaml with
      | none =>
        let (modifiedNodes, deletedNodes) ← compareStored yaml rest
        return (modifiedNodes, node :: deletedNodes)
      | some form =>
        let (modifiedNodes, deletedNodes) ← compareStored yaml rest
        return (form :: modifiedNodes, deletedNodes)
    else compareStored yaml rest

/-- The loop over the names that no stored node has. -/
def readCreated (yaml : Yaml) : List Str → Outcome (List TreeNode)
  | [] => .ok []
  | label :: rest => do
    match ← getNodeFromYAML library label yaml with
    | none => readCreated yaml rest
    | some form => return form :: (← readCreated yaml rest)

/-- The names that no stored node has, in the order of a `std::set`. -/
def createdNames (names : List Str) (nodes : List TreeNode) : List Str :=
  (names.filter fun name => name ∉ nodes.map TreeNode.labelRule).dedup.insertionSort fun a b => (compare a b).isLE

/-- The nodes to upsert and the nodes to delete. -/
def changesFrom (yaml : Yaml) (nodes : List TreeNode) : Outcome (List TreeNode × List TreeNode) := do
  let names ← walkNames library yaml
  let (modifiedNodes, deletedNodes) ← compareStored library yaml nodes
  return (modifiedNodes ++ (← readCreated library yaml (createdNames names nodes)), deletedNodes)

end Reading

/-- The state of a `YAMLMediator`, and what is around it. -/
structure YAMLMediatorState (ρ : Type) where
  processingTree : Bool
  processingYAMLTree : Bool
  yamlRepresentation : Yaml
  rest : ρ

namespace YAMLMediatorState

variable {ρ : Type}

def toYAMLFlags : ProcessingFlags (YAMLMediatorState ρ) where
  processing s := s.processingTree
  setProcessing s value := { s with processingTree := value }
  isProcessing s := s.processingYAMLTree
  processing_set _ _ := rfl

def fromYAMLFlags : ProcessingFlags (YAMLMediatorState ρ) where
  processing s := s.processingYAMLTree
  setProcessing s value := { s with processingYAMLTree := value }
  isProcessing s := s.processingTree
  processing_set _ _ := rfl

variable (library : YamlCpp) (yamlBackend backend : MediatedBackend (YAMLMediatorState ρ)) (specifier : PropertySpecifier)

/-- `updateYAMLFrom` of the document, with the fuel for the nodes below. -/
def updateYAMLFrom (fuel : ℕ) (labelRule : Str) (mModifiedNode : Option TreeNode) (loadChildren : Bool) :
    Effectful (YAMLMediatorState ρ) Unit := do
  let parts := split labelRule
  let (reached, yaml) ← inspect fun s => reachParent mModifiedNode.isSome parts s.yamlRepresentation
  change fun s => { s with yamlRepresentation := yaml }
  if reached then
    match mModifiedNode with
    | some node => do
      let entry ← library.asYAMLNode backend.getNode loadChildren fuel node
      let yaml ← inspect fun s => atParent (fun last parent => parent.put last entry) parts s.yamlRepresentation
      change fun s => { s with yamlRepresentation := yaml }
    | none => do
      let yaml ← inspect fun s => atParent removeChild parts s.yamlRepresentation
      change fun s => { s with yamlRepresentation := yaml }
  else pure ()

/-- The node that holds the document, with a text for it. -/
def containerOf (text : Str) : Option TreeNode → Outcome TreeNode
  | none => TreeNode.make {
      labelRule := specifier.nodeLabel
      description := specifier.nodeLabel ++ str " YAML Container"
      propertyInfos := [(specifier.propertyType, specifier.propertyName)]
      propertyData := .concat [.ofSignal (.payload ⟨0, 0x00, 8⟩) (leBytes 8 text.length),
        .ofSignal (.payload ⟨0, 0x00, .ofNat text.length⟩) text] }
  | some node => do
    let value := SharedSpan.ofSignal (.payload ⟨0, 0x00, .ofNat text.length⟩) text
    let info := (specifier.propertyType, specifier.propertyName)
    if info ∈ node.propertyInfos then node.setPropertyValueSpan specifier.propertyName value
    else do
      let inserted ← node.insertPropertySpan node.propertyInfos.length specifier.propertyName specifier.propertyType value
      return { inserted with propertyInfos := node.propertyInfos ++ [info] }

/-- `toYAMLCallback`. -/
def toYAMLCallback (fuel : ℕ) (labelRule : Str) (mModifiedNode : Option TreeNode) :
    Effectful (YAMLMediatorState ρ) Unit :=
  toYAMLFlags.guarded do
    updateYAMLFrom library backend fuel labelRule mModifiedNode true
    let text ← look fun s => library.emit s.yamlRepresentation
    let mTo ← yamlBackend.getNode specifier.nodeLabel
    let toNode ← inspect fun _ => containerOf specifier text mTo
    yamlBackend.upsertNode [toNode]

/-- `YAML::Load` of `getYAMLString`. -/
def loadDocument (node : TreeNode) : Outcome Yaml := do
  let (_, _, text) ← node.getPropertyValueSpan specifier.propertyName
  library.load text.bytes

/-- `fromYAMLCallback` once there is a node. -/
def followDocument (fromNode : TreeNode) : Effectful (YAMLMediatorState ρ) Unit := do
  let nodes ← backend.getFullTree
  let yaml ← inspect fun _ => loadDocument library specifier fromNode
  change fun s => { s with yamlRepresentation := yaml }
  let (modifiedNodes, deletedNodes) ← inspect fun _ => changesFrom library yaml nodes
  if modifiedNodes ≠ [] then backend.upsertNode modifiedNodes else pure ()
  forEach (fun node => backend.deleteNode node.labelRule) deletedNodes

/-- `fromYAMLCallback`. -/
def fromYAMLCallback (labelRule : Str) (mModifiedYAMLNode : Option TreeNode) : Effectful (YAMLMediatorState ρ) Unit :=
  fromYAMLFlags.guarded
    (match mModifiedYAMLNode with
    | none => raise (.runtimeError (str "Cannot update backend without an existing YAML node: " ++ labelRule))
    | some fromNode => followDocument library backend specifier fromNode)

end YAMLMediatorState
end Wwatp
