import Wwatp.Tree.Node

/-! The text form of a tree node: what `operator<<` writes under `hide_contents`. -/
namespace Wwatp

open Cxx

/-- What `<<` prints for an `int`. -/
def intText (n : Int32) : Str :=
  if n.toInt < 0 then str "-" ++ toDecimal n.toInt.natAbs else toDecimal n.toInt.natAbs

/-- `operator<<` of `fplus::maybe`. -/
def maybeText {α : Type} (text : α → Str) : Option α → Str
  | some value => str "Just " ++ text value
  | none => str "Nothing"

/-- `write_length_string`. -/
def writeLengthString (label s : Str) : Str :=
  label ++ str " " ++ toDecimal s.length ++ str " :\n" ++ s ++ str "\n"

/-- `operator<<` of `TreeNodeVersion`. -/
def TreeNodeVersion.text (v : TreeNodeVersion) : Outcome Str :=
  if v.policy = [] then
    throw (.runtimeError
      (str "TreeNodeVersion policy cannot be empty.  'default' should be used at minimum."))
  else .ok (str "Version: " ++ toDecimal v.versionNumber.toNat ++
    str " Max_Version: " ++ toDecimal v.maxVersionSequence.toNat ++
    str " Policy: " ++ v.policy ++
    str " Authorial_Proof: " ++ maybeText id v.authorialProof ++
    str " Authors: " ++ maybeText id v.authors ++
    str " Readers: " ++ maybeText id v.readers ++
    str " Collision_Depth: " ++ maybeText intText v.collisionDepth ++ str " ")

/-- `shared_span::write` of a span without chunks, written in place of the contents. -/
def hiddenContentsText : Str :=
  str "shared_span( signal_type: 0 signal_size: 0 data_size: 0 chunk_data: [\n])\n"

/-- `operator<<` of `TreeNode` on a stream that `hide_contents` was written to. -/
def TreeNode.text (n : TreeNode) : Outcome Str := do
  let version ← n.version.text
  return str "TreeNode(\n" ++ str "label_rule: " ++ n.labelRule ++ str "\n" ++
    writeLengthString (str "description") n.description ++
    str "property_infos: [ " ++
    n.propertyInfos.flatMap (fun info => info.1 ++ str " (" ++ info.2 ++ str "), ") ++
    str "], " ++ str "version: " ++ version ++ str ", " ++
    str "child_names: [ " ++ n.childNames.flatMap (fun child => child ++ str ", ") ++ str "], " ++
    writeLengthString (str "query_how_to") (n.queryHowTo.getD []) ++
    writeLengthString (str "qa_sequence") (n.qaSequence.getD []) ++
    hiddenContentsText ++ str ")\n"

/-- The text exists exactly when the version names a policy. -/
theorem TreeNode.text_eq_ok_iff {n : TreeNode} : (∃ text, n.text = .ok text) ↔ n.version.policy ≠ [] := by
  rw [TreeNode.text, TreeNodeVersion.text]
  rcases Decidable.em (n.version.policy = []) with hEmpty | hPolicy
  · simp [hEmpty]
  · simp [hPolicy]

end Wwatp
