import Wwatp.Cxx.Numbers
import Wwatp.Cxx.Outcome

/-! Documents as yaml-cpp holds them: ordered trees of maps, sequences and scalars. The keys of maps
are strings. -/
namespace Cxx

/-- A `YAML::Node` and what is below it. -/
inductive Yaml
  | null
  | scalar (text : Str)
  | sequence (items : List Yaml)
  | map (entries : List (Str × Yaml))

namespace Yaml

/-- The exception for a value of the wrong kind. -/
def badConversion : Fault := .runtimeError (str "bad conversion")

def badSubscript : Fault := .runtimeError (str "operator[] call on a scalar")

/-- The first entry of a key. -/
def lookup (entries : List (Str × Yaml)) (key : Str) : Option Yaml :=
  (entries.find? fun entry => entry.1 = key).map Prod.snd

/-- `as<std::string>()`. Versions of the library differ in what they make of a null. -/
def asString (nullString : Option Str) : Yaml → Outcome Str
  | scalar text => .ok text
  | null =>
    match nullString with
    | some text => .ok text
    | none => throw badConversion
  | _ => throw badConversion

/-- The strings of an iteration over a node: a map has entries, and these are not strings. -/
def strings (nullString : Option Str) : Yaml → Outcome (List Str)
  | sequence items => items.mapM (asString nullString)
  | map (_ :: _) => throw badConversion
  | _ => .ok []

/-- `operator[]` of a constant node, with whether there is something. -/
def get (key : Str) : Yaml → Outcome (Option Yaml)
  | map entries => .ok (lookup entries key)
  | scalar _ => throw badSubscript
  | _ => .ok none

/-- The first entry of a key gets another value, or a new entry is the last one. -/
def setEntry (key : Str) (value : Yaml) : List (Str × Yaml) → List (Str × Yaml)
  | [] => [(key, value)]
  | entry :: rest => if entry.1 = key then (key, value) :: rest else entry :: setEntry key value rest

/-- An assignment to `operator[]`, which makes a map of a null or a sequence. -/
def put (key : Str) (value : Yaml) : Yaml → Outcome Yaml
  | map entries => .ok (map (setEntry key value entries))
  | null => .ok (map [(key, value)])
  | sequence items => .ok (map (setEntry key value (items.zipIdx.map fun (item, i) => (toDecimal i, item))))
  | scalar _ => throw badSubscript

/-- `remove`. -/
def remove (key : Str) : Yaml → Yaml
  | map entries => map (entries.eraseP fun entry => entry.1 = key)
  | yaml => yaml

def isMap : Yaml → Bool
  | map _ => true
  | _ => false

end Yaml
end Cxx
