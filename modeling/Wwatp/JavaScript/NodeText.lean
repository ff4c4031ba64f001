import Wwatp.JavaScript.Strings

/-! The nodes of the JavaScript client and their text. -/
namespace Wwatp
namespace JavaScript

open Cxx

/-- `TreeNodeVersion` of `tree_node.js`, whose constructor keeps 16 bits of the numbers. -/
structure JSTreeNodeVersion where
  versionNumber : UInt16 := 0
  maxVersionSequence : UInt16 := 256
  policy : JSString := js "default"
  authorialProof : Option JSString := none
  authors : Option JSString := none
  readers : Option JSString := none
  collisionDepth : Option Number := none
  deriving DecidableEq

/-- `TreeNode` of `tree_node.js`; an information about a property is its type and its name. -/
structure JSTreeNode where
  labelRule : JSString := []
  description : JSString := []
  propertyInfos : List (JSString × JSString) := []
  version : JSTreeNodeVersion := {}
  childNames : List JSString := []
  propertyData : List UInt8 := []
  queryHowTo : Option JSString := none
  qaSequence : Option JSString := none
  deriving DecidableEq

def maybeStrToText : Option JSString → JSString
  | some value => js "Just " ++ value
  | none => js "Nothing"

def textToMaybe (s : JSString) : Option JSString :=
  if s = js "Nothing" then none
  else if js "Just " <+: s then some (s.drop 5)
  else if s = [] then none
  else some s

/-- A string with its length, which is the number of its units. -/
def lengthString (label s : JSString) : JSString :=
  label ++ js " " ++ ofStr (toDecimal s.length) ++ js " :\n" ++ s ++ js "\n"

def versionText (v : JSTreeNodeVersion) : JSString :=
  js "Version: " ++ ofStr (toDecimal v.versionNumber.toNat) ++
    js " Max_Version: " ++ ofStr (toDecimal v.maxVersionSequence.toNat) ++
    js " Policy: " ++ v.policy ++
    js " Authorial_Proof: " ++ maybeStrToText v.authorialProof ++
    js " Authors: " ++ maybeStrToText v.authors ++
    js " Readers: " ++ maybeStrToText v.readers ++
    js " Collision_Depth: " ++ maybeStrToText (v.collisionDepth.map numberToString) ++ js " "

/-- The text of a node, with an empty span for its property data. -/
def formatTreeNodeText (tn : JSTreeNode) : JSString :=
  js "TreeNode(\n" ++ js "label_rule: " ++ tn.labelRule ++ js "\n" ++
    lengthString (js "description") tn.description ++
    js "property_infos: [ " ++ tn.propertyInfos.flatMap (fun (type, name) => type ++ js " (" ++ name ++ js "), ") ++ js "], " ++
    js "version: " ++ versionText tn.version ++ js ", " ++
    js "child_names: [ " ++ tn.childNames.flatMap (fun name => name ++ js ", ") ++ js "], " ++
    lengthString (js "query_how_to") (tn.queryHowTo.getD []) ++
    lengthString (js "qa_sequence") (tn.qaSequence.getD []) ++
    js "shared_span( signal_type: 0 signal_size: 0 data_size: 0 chunk_data: [\n])\n" ++ js ")\n"

/-- `expect`: the text after a token that it begins with. -/
def expect (token text : JSString) : Option JSString := if token <+: text then some (text.drop token.length) else none

/-- What stands before the first occurrence of a token, which `indexOf` finds, and what after it. Where the parser
finds none it goes on at a place in the first line, and fails there. -/
def before (token : JSString) : JSString → Option (JSString × JSString)
  | [] => none
  | unit :: rest =>
    if token <+: unit :: rest then some ([], (unit :: rest).drop token.length)
    else (before token rest).map fun (front, back) => (unit :: front, back)

def isDigit (unit : UInt16) : Bool := (digitOf 10 unit).isSome

def trim (s : JSString) : JSString := (s.dropWhile isWhiteSpace).rdropWhile isWhiteSpace

/-- The matches of a class at the front of a text, at least one. -/
def oneOrMore (inClass : UInt16 → Bool) (text : JSString) : Option (JSString × JSString) :=
  let matched := text.takeWhile inClass
  if matched = [] then none else some (matched, text.drop matched.length)

def parseLengthString (label text : JSString) : Option (JSString × JSString) := do
  let text ← expect (label ++ js " ") text
  let digits := text.takeWhile isDigit
  let text ← expect (js " :\n") (text.drop digits.length)
  let n := valueOf 10 (leadingDigits 10 digits)
  let rest ← expect (js "\n") (text.drop n)
  return (text.take n, rest)

/-- The parts of a line between commas, without blanks around them and without empty ones. -/
def parseItems (line : JSString) : List JSString := ((line.splitOn 0x2C).map trim).filter (· ≠ [])

/-- `/^(\S+) \(([^)]*)\)$/` -/
def parsePropertyInfo (item : JSString) : Option (JSString × JSString) := do
  let (type, rest) ← oneOrMore (!isWhiteSpace ·) item
  let rest ← expect (js " (") rest
  let name := rest.takeWhile (· ≠ 0x29)
  if rest.drop name.length = js ")" then some (type, name) else none

/-- `(Nothing|Just\s+\S+)` -/
def parseMaybe (text : JSString) : Option (JSString × JSString) :=
  match expect (js "Nothing") text with
  | some rest => some (js "Nothing", rest)
  | none => do
    let rest ← expect (js "Just") text
    let (blanks, rest) ← oneOrMore isWhiteSpace rest
    let (word, rest) ← oneOrMore (!isWhiteSpace ·) rest
    return (js "Just" ++ blanks ++ word, rest)

/-- `parseInt(s, 10) || other`, with a natural number for `other` -/
def parseNatural (s : JSString) (other : ℕ) : ℕ :=
  let n := nearestDouble (valueOf 10 (leadingDigits 10 s))
  if n = 0 then other else n

def parseVersion (text : JSString) : Option JSTreeNodeVersion := do
  let text ← expect (js "Version: ") text
  let (versionNumber, text) ← oneOrMore isDigit text
  let text ← expect (js " Max_Version: ") text
  let (maxVersionSequence, text) ← oneOrMore isDigit text
  let text ← expect (js " Policy: ") text
  let (policy, text) ← oneOrMore (!isWhiteSpace ·) text
  let text ← expect (js " Authorial_Proof: ") text
  let (authorialProof, text) ← parseMaybe text
  let text ← expect (js " Authors: ") text
  let (authors, text) ← parseMaybe text
  let text ← expect (js " Readers: ") text
  let (readers, text) ← parseMaybe text
  let text ← expect (js " Collision_Depth: ") text
  let (collisionDepth, text) ← parseMaybe text
  if text = js " " then
    some {
      versionNumber := .ofNat (parseNatural versionNumber 0)
      maxVersionSequence := .ofNat (parseNatural maxVersionSequence 256)
      policy
      authorialProof := textToMaybe authorialProof
      authors := textToMaybe authors
      readers := textToMaybe readers
      collisionDepth :=
        if collisionDepth = js "Nothing" then none else some (some ((parseInt 10 (trim (collisionDepth.drop 5))).getD 0)) }
  else none

/-- The line `maybe_flags`, which may be missing: whether the two strings after it are there. -/
def parseFlags (text : JSString) : Option (Option (Bool × Bool) × JSString) :=
  match expect (js "maybe_flags: ") text with
  | none => some (none, text)
  | some text => do
    let (line, rest) ← before (js "\n") text
    let flags := [(true, true), (true, false), (false, true), (false, false)].find? fun (qh, qa) =>
      line = js "qh=" ++ js (if qh then "J" else "N") ++ js " qa=" ++ js (if qa then "J" else "N")
    return (flags, rest)

def maybeOf (flag : Option Bool) (value : JSString) : Option JSString :=
  if flag.getD (value ≠ []) then some value else none

def parseTreeNodeText (text : JSString) : Option JSTreeNode := do
  let text ← expect (js "TreeNode(\n") text
  let text ← expect (js "label_rule: ") text
  let (labelRule, text) ← before (js "\n") text
  let (description, text) ← parseLengthString (js "description") text
  let text ← expect (js "property_infos: [ ") text
  let (propertyLine, text) ← before (js "], ") text
  let text ← expect (js "version: ") text
  let (versionLine, text) ← before (js ", ") text
  let version ← parseVersion versionLine
  let text ← expect (js "child_names: [ ") text
  let (childLine, text) ← before (js "], ") text
  let (qh, text) ← parseLengthString (js "query_how_to") text
  let (qa, text) ← parseLengthString (js "qa_sequence") text
  let (flags, text) ← parseFlags text
  let text ← expect (js "shared_span( signal_type: 0 signal_size: 0 data_size: 0 chunk_data: [\n])\n") text
  let _ ← expect (js ")\n") text
  return {
    labelRule, description, version
    propertyInfos := (parseItems propertyLine).filterMap parsePropertyInfo
    childNames := parseItems childLine
    queryHowTo := maybeOf (flags.map (·.1)) qh
    qaSequence := maybeOf (flags.map (·.2)) qa }

end JavaScript
end Wwatp
