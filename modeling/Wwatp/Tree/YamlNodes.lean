import Wwatp.Cxx.Effects
import Wwatp.Cxx.Yaml
import Wwatp.Tree.Properties

/-! Tree nodes as YAML: what is read from the entries of a map, and what is written to one. -/
namespace Wwatp

open Cxx

/-- What is used of yaml-cpp besides its trees: the parser, the emitter, and the conversions between
scalars and values. -/
structure YamlCpp where
  load : Str → Outcome Yaml
  emit : Yaml → Str
  nullString : Option Str
  /-- a value of a type of fixed size as text -/
  encode : FixedValue → Str
  asInt64 : Str → Option Int64
  asUInt64 : Str → Option UInt64
  asDouble : Str → Option UInt64
  asFloat : Str → Option UInt32
  asBool : Str → Option Bool
  asUInt16 : Str → Option UInt16
  asInt : Str → Option Int32
  ofInt : Int32 → Str

namespace TreeNode

/-- `getNodeName`. -/
def getNodeName (n : TreeNode) : Str := (n.labelRule.reverse.takeWhile (· ≠ chr '/')).reverse

/-- The check of the constructor, and its empty texts. -/
def make (n : TreeNode) : Outcome TreeNode :=
  if n.labelRule.any fun c => c ∈ str " \t\n\r" then
    throw (.invalidArgument (str "Label rule cannot contain whitespace: " ++ n.labelRule))
  else
    match n.childNames.find? fun child => child.any fun c => c ∈ str " \t\n\r" with
    | some child => throw (.invalidArgument (str "Child names cannot contain whitespace: " ++ child))
    | none => .ok { n with
        queryHowTo := n.queryHowTo.filter (· ≠ [])
        qaSequence := n.qaSequence.filter (· ≠ []) }

end TreeNode

namespace YamlCpp

/-- The library where every text that is parsed holds one document, and scalars are not numbers. -/
def parsing (document : Yaml) : YamlCpp where
  load _ := .ok document
  emit _ := []
  nullString := none
  encode _ := []
  asInt64 _ := none
  asUInt64 _ := none
  asDouble _ := none
  asFloat _ := none
  asBool _ := none
  asUInt16 _ := none
  asInt _ := none
  ofInt _ := []

variable (library : YamlCpp)

def asString (yaml : Yaml) : Outcome Str := yaml.asString library.nullString

/-- `as<T>(fallback)` for the types of fixed size, with zero as the fallback. -/
def asFixed (type : Str) (yaml : Yaml) : Option FixedValue :=
  let text := match yaml with
    | .scalar text => some text
    | _ => none
  if type = str "int64" then some (.int64 ((text.bind library.asInt64).getD 0))
  else if type = str "uint64" then some (.uint64 ((text.bind library.asUInt64).getD 0))
  else if type = str "double" then some (.double ((text.bind library.asDouble).getD 0))
  else if type = str "float" then some (.float ((text.bind library.asFloat).getD 0))
  else if type = str "bool" then some (.bool ((text.bind library.asBool).getD false))
  else none

/-- A number in a scalar. -/
def asNumber {α : Type} (convert : Str → Option α) : Yaml → Outcome α
  | .scalar text =>
    match convert text with
    | some value => .ok value
    | none => throw Yaml.badConversion
  | _ => throw Yaml.badConversion

/-- The value of a key, if it is there. -/
def field {α : Type} (yaml : Yaml) (key : Str) (convert : Yaml → Outcome α) : Outcome (Option α) := do
  match ← yaml.get key with
  | none => return none
  | some value => return some (← convert value)

/-- `fromYAMLNode` of a version. -/
def versionOf (yaml : Yaml) : Outcome TreeNodeVersion := do
  let versionNumber ← field yaml (str "version_number") (asNumber library.asUInt16)
  let maxVersionSequence ← field yaml (str "max_version_sequence") (asNumber library.asUInt16)
  let policy ← field yaml (str "policy") library.asString
  let authorialProof ← field yaml (str "authorial_proof") library.asString
  let authors ← field yaml (str "authors") library.asString
  let readers ← field yaml (str "readers") library.asString
  let collisionDepth ← field yaml (str "collision_depth") (asNumber library.asInt)
  return {
    versionNumber := versionNumber.getD 0
    maxVersionSequence := maxVersionSequence.getD 256
    policy := policy.getD (str "default")
    authorialProof := authorialProof
    authors := authors
    readers := readers
    collisionDepth := collisionDepth }

/-- The keys that are not properties. -/
def reservedKeys : List Str :=
  [str "label_rule", str "description", str "version", str "child_names", str "query_how_to", str "qa_sequence"]

/-- The type of a scalar under a key without a type. -/
def scalarType (value : Str) : Str :=
  let isDigit : UInt8 → Bool := fun c => chr '0' ≤ c ∧ c ≤ chr '9'
  if value ∈ [str "true", str "True", str "false", str "False"] then str "bool"
  else if value.all isDigit ∨ (value.head? = some (chr '-') ∧ value.tail.all isDigit) then str "int64"
  else if chr '.' ∈ value ∧ value.all fun c => isDigit c ∨ c = chr '.' ∨ c = chr '-' then str "double"
  else str "string"

/-- The type and the name in a key; behind its first point a key has the type. -/
def infoOf (key : Str) (value : Yaml) : Outcome PropertyInfo :=
  if chr '.' ∈ key then
    let name := key.takeWhile (· ≠ chr '.')
    if name = [] then throw (.runtimeError (str "Invalid property name: " ++ key))
    else .ok ((key.dropWhile (· ≠ chr '.')).tail, name)
  else
    match value with
    | .scalar text => .ok (scalarType text, key)
    | _ => .ok (str "string", key)

/-- The spans of a value. -/
def spansOf (type : Str) (value : Yaml) : Outcome (List SharedSpan) :=
  match library.asFixed type value with
  | some fixed => .ok [.ofSignal (.payload ⟨0, 0x00, 8⟩) fixed.bytes]
  | none => do
    let text ← if type = str "yaml" then .ok (library.emit value) else library.asString value
    return [.ofSignal (.payload ⟨0, 0x00, 8⟩) (leBytes 8 text.length),
      .ofSignal (.payload ⟨0, 0x00, .ofNat text.length⟩) text]

/-- The loop over the entries: the properties with their spans, and the names of the children. -/
def readEntries (children : List Str) : List (Str × Yaml) → Outcome (List (PropertyInfo × List SharedSpan) × List Str)
  | [] => .ok ([], [])
  | (key, value) :: rest =>
    if key ∈ reservedKeys then readEntries children rest
    else if key ∈ children then do
      let (properties, names) ← readEntries children rest
      return (properties, key :: names)
    else do
      let info ← infoOf key value
      let spans ← library.spansOf info.1 value
      let (properties, names) ← readEntries children rest
      return ((info, spans) :: properties, names)

/-- `fromYAMLNode` without the children of the node. -/
def fromYAMLNode (yaml : Yaml) (labelPrefix name : Str) : Outcome TreeNode :=
  match yaml with
  | .map entries => do
    let description ← field yaml (str "description") library.asString
    let version ← field yaml (str "version") library.versionOf
    let children ← field yaml (str "child_names") (·.strings library.nullString)
    let queryHowTo ← field yaml (str "query_how_to") library.asString
    let qaSequence ← field yaml (str "qa_sequence") library.asString
    let (properties, childNames) ← library.readEntries (children.getD []) entries
    TreeNode.make {
      labelRule := labelPrefix ++ name
      description := description.getD name
      propertyInfos := properties.map Prod.fst
      version := version.getD {}
      childNames := childNames
      propertyData := .concat (properties.flatMap Prod.snd)
      queryHowTo := queryHowTo.filter (· ≠ [])
      qaSequence := qaSequence.filter (· ≠ []) }
  | _ => throw (.runtimeError (str "YAML node is not a map"))

/-- One round of `writeContentsToYAML`: the property goes under its name and type, and the data go
on behind it. The size of a value is no more than there can be in memory. -/
def writeProperty (info : PropertyInfo) (remaining : SharedSpan) (yaml : Yaml) : Outcome (SharedSpan × Yaml) :=
  let key := info.2 ++ str "." ++ info.1
  match fixedSize info.1 with
  | some size =>
    if remaining.size < size then
      throw (.runtimeError (str "Not enough data for " ++ info.1 ++ str " property: " ++ key))
    else do
      match FixedValue.ofBytes info.1 (← remaining.beginPod size) with
      | none => return (remaining.restrict size (remaining.size - size), yaml)
      | some value =>
        let yaml ← yaml.put key (.scalar (library.encode value))
        return (remaining.restrict size (remaining.size - size), yaml)
  | none => do
    let size := leValue (← remaining.beginPod 8)
    let content := (remaining.restrict 8 size).bytes
    let value ← if info.1 = str "yaml" then library.load content else .ok (.scalar content)
    let yaml ← yaml.put key value
    return (remaining.restrict (8 + size) (remaining.size - 8 - size), yaml)

def writeContentsToYAML : List PropertyInfo → SharedSpan → Yaml → Outcome Yaml
  | [], _, yaml => .ok yaml
  | info :: rest, remaining, yaml => do
    let (remaining, yaml) ← library.writeProperty info remaining yaml
    writeContentsToYAML rest remaining yaml

/-- `asYAMLNode` of a version. -/
def versionYAML (v : TreeNodeVersion) : Yaml :=
  let text (key : Str) (value : Option Str) : List (Str × Yaml) :=
    match value with
    | some value => [(key, .scalar value)]
    | none => []
  .map ([(str "version_number", .scalar (toDecimal v.versionNumber.toNat)),
      (str "max_version_sequence", .scalar (toDecimal v.maxVersionSequence.toNat)), (str "policy", .scalar v.policy)] ++
    text (str "authorial_proof") v.authorialProof ++ text (str "authors") v.authors ++ text (str "readers") v.readers ++
    text (str "collision_depth") (v.collisionDepth.map library.ofInt))

def putSome (key : Str) (value : Option Yaml) (yaml : Yaml) : Outcome Yaml :=
  match value with
  | some value => yaml.put key value
  | none => .ok yaml

/-- `updateYAMLNode`. -/
def updateYAMLNode (n : TreeNode) (yaml : Yaml) : Outcome Yaml := do
  let yaml ← putSome (str "description") (if n.description ≠ n.getNodeName then some (.scalar n.description) else none) yaml
  let yaml ← putSome (str "version") (if n.version ≠ {} then some (library.versionYAML n.version) else none) yaml
  let yaml ← putSome (str "query_how_to") (n.queryHowTo.map .scalar) yaml
  let yaml ← putSome (str "qa_sequence") (n.qaSequence.map .scalar) yaml
  library.writeContentsToYAML n.propertyInfos n.propertyData yaml

section Children

variable {σ : Type} (getNode : Str → Effectful σ (Option TreeNode)) (loadChildren : Bool)

/-- The loop of `asYAMLNode` over the children; `load` makes the entry of a child that is stored. -/
def childEntries (load : TreeNode → Effectful σ Yaml) (label : Str) : List Str → Yaml → Effectful σ Yaml
  | [], yaml => pure yaml
  | child :: rest, yaml => do
    let stored ← getNode (if chr '/' ∈ child then child else label ++ str "/" ++ child)
    let entry ← match stored with
      | some node => if loadChildren then load node else pure (.map [])
      | none => pure (.map [])
    let yaml ← Effectful.inspect fun _ => yaml.put child entry
    childEntries load label rest yaml

/-- `asYAMLNode`, with the fuel for the children of children. -/
def asYAMLNode : ℕ → TreeNode → Effectful σ Yaml
  | 0, _ => Effectful.raise (.undefined .nonTermination)
  | fuel + 1, n => do
    let entries ← childEntries getNode loadChildren (asYAMLNode fuel) n.labelRule n.childNames .null
    Effectful.inspect fun _ => do
      let yaml ← entries.put (str "child_names") (.sequence (n.childNames.map .scalar))
      library.updateYAMLNode n yaml

end Children

end YamlCpp
end Wwatp
