import Wwatp.Tree.Node

/-! The names of a node's directory and files, made from its label, and what a name says about
its node. -/
namespace Cxx

/-- `s.find_first_of(c, position)`. -/
def Str.findFrom (s : Str) (c : UInt8) (position : ℕ) : Option ℕ :=
  (Str.find (s.drop position) c).map (· + position)

/-- `s.substr(position)`. -/
def Str.substr (s : Str) (position : ℕ) : Outcome Str :=
  if s.length < position then throw .outOfRange else .ok (s.drop position)

end Cxx

namespace Wwatp

open Cxx

def getNodeDirectoryPath (basePath labelRule : Str) : Str :=
  if labelRule = [] then basePath
  else if labelRule.getLast? = some (chr '/') then basePath ++ labelRule
  else basePath ++ labelRule ++ str "/"

/-- `if (s.back() == '/') s.pop_back()`. -/
def popSlash (s : Str) : Str := if s.getLast? = some (chr '/') then s.dropLast else s

/-- The last step of `getNodeName` and `getNodeParentPath`: the directory path is cut behind
the last slash. -/
def splitDirectory (nodeDir : Str) : Outcome (Str × Str) :=
  match nodeDir.findLast (chr '/') with
  | none => throw (.runtimeError (str "Invalid node directory path: " ++ nodeDir))
  | some slash => .ok (nodeDir.take (slash + 1), nodeDir.drop (slash + 1))

def getNodeName (basePath labelRule : Str) : Outcome Str := do
  return (← splitDirectory (popSlash (getNodeDirectoryPath basePath labelRule))).2

def getNodeParentPath (basePath labelRule : Str) : Outcome Str :=
  if getNodeDirectoryPath basePath labelRule = basePath then .ok basePath
  else do return (← splitDirectory (popSlash (getNodeDirectoryPath basePath labelRule))).1

def getNodeFileName (basePath labelRule : Str) : Str := basePath ++ labelRule ++ str ".node"

def getContentFileName (basePath labelRule : Str) (order : ℕ) (info : PropertyInfo) : Str :=
  if info.2 = [] then basePath ++ labelRule ++ str "." ++ toDecimal order ++ str "." ++ info.1
  else basePath ++ labelRule ++ str "." ++ toDecimal order ++ str "." ++ info.2 ++ str "." ++ info.1

def getContentFileNames (basePath labelRule : Str) (infos : List PropertyInfo) : List Str :=
  infos.zipIdx.map fun (info, order) => getContentFileName basePath labelRule order info

/-- The label of the node that a file or directory belongs to. -/
def getLabelRuleFromFileName (basePath fileName : Str) : Outcome Str :=
  if str ".node" <:+ fileName then do
    let labelRule ← fileName.substr basePath.length
    return labelRule.take ((labelRule.findLast (chr '.')).getD labelRule.length)
  else if chr '.' ∈ fileName then do
    let labelRule ← fileName.substr basePath.length
    return labelRule.take ((labelRule.find (chr '.')).getD labelRule.length)
  else if fileName.getLast? = some (chr '/') then
    if fileName.length ≤ basePath.length then .ok []
    else Str.substr fileName.dropLast basePath.length
  else fileName.substr basePath.length

/-- The type and the name that a content file is called after. -/
def parsePropertyInfo (fileName : Str) : Option PropertyInfo :=
  let firstDot := fileName.findFrom (chr '.') (((fileName.findLast (chr '/')).map (· + 1)).getD 0)
  let secondDot := firstDot.bind fun first => fileName.findFrom (chr '.') (first + 1)
  (fileName.findLast (chr '.')).map fun lastDot => (fileName.drop (lastDot + 1),
    match firstDot, secondDot with
    | some first, some second =>
      if first + 1 < second then
        -- the length is a `size_t`: of a file with two dots the rest of the name is taken
        (fileName.drop (second + 1)).take (sizeSub lastDot (second + 1))
      else []
    | _, _ => [])

def parsePropertyInfos (contentFileNames : List Str) : List PropertyInfo :=
  contentFileNames.filterMap parsePropertyInfo

section Parents

variable {basePath labelRule : Str}

theorem splitDirectory_ok {nodeDir : Str} {parts : Str × Str} (h : splitDirectory nodeDir = .ok parts) :
    nodeDir = parts.1 ++ parts.2 ∧ parts.1.getLast? = some (chr '/') ∧ chr '/' ∉ parts.2 := by
  rw [splitDirectory] at h
  split at h
  · cases h
  next slash hSlash =>
  obtain rfl := Except.ok.inj h
  obtain ⟨front, back, rfl, rfl, hBack⟩ := Str.findLast_eq_some.mp hSlash
  have hTake : (front ++ chr '/' :: back).take (front.length + 1) = front ++ [chr '/'] := by
    rw [List.take_length_add_append]
    rfl
  have hDrop : (front ++ chr '/' :: back).drop (front.length + 1) = back := by
    rw [List.drop_length_add_append]
    rfl
  rw [hTake, hDrop]
  exact ⟨(List.append_assoc front [chr '/'] back).symm, List.getLast?_concat .., hBack⟩

theorem popSlash_concat (s : Str) : popSlash (s ++ [chr '/']) = s := by
  rw [popSlash, if_pos (List.getLast?_concat ..), List.dropLast_concat]

theorem splitDirectory_length {nodeDir : Str} {parts : Str × Str} (h : splitDirectory nodeDir = .ok parts)
    (hLast : nodeDir.getLast? ≠ some (chr '/')) : parts.1.length < nodeDir.length := by
  obtain ⟨hParts, hSlash, -⟩ := splitDirectory_ok h
  have hName : parts.2 ≠ [] := by
    intro hEmpty
    rw [hEmpty, List.append_nil] at hParts
    exact hLast (hParts ▸ hSlash)
  have hPos := List.length_pos_iff.mpr hName
  rw [hParts, List.length_append]
  omega

/-- The path of a label's parent is shorter than that of the label. -/
theorem length_getNodeParentPath {parentPath : Str} (h : getNodeParentPath basePath labelRule = .ok parentPath)
    (hLabel : labelRule ≠ []) : parentPath.length < basePath.length + labelRule.length := by
  have hPos : 0 < labelRule.length := List.length_pos_iff.mpr hLabel
  rw [getNodeParentPath] at h
  split_ifs at h
  · obtain rfl := Except.ok.inj h
    omega
  obtain ⟨parts, hSplit, h⟩ := Outcome.bind_eq_ok.mp h
  obtain rfl := Except.ok.inj h
  rw [getNodeDirectoryPath, if_neg hLabel] at hSplit
  split_ifs at hSplit with hSlash
  · obtain ⟨front, rfl⟩ := List.getLast?_eq_some_iff.mp hSlash
    rw [← List.append_assoc, popSlash_concat] at hSplit
    obtain ⟨hParts, -, -⟩ := splitDirectory_ok hSplit
    have hLength := congrArg List.length hParts
    simp only [List.length_append, List.length_singleton] at hLength ⊢
    omega
  · have hShort := splitDirectory_length (popSlash_concat (basePath ++ labelRule) ▸ hSplit) (by
      rwa [List.getLast?_append_of_ne_nil _ hLabel])
    rwa [List.length_append] at hShort

theorem substr_ok {s t : Str} {position : ℕ} (h : s.substr position = .ok t) :
    t.length + position = s.length := by
  rw [Str.substr] at h
  split_ifs at h with hShort
  obtain rfl := Except.ok.inj h
  rw [List.length_drop]
  omega

/-- The label in a file name is no longer than what is behind the base path. -/
theorem length_getLabelRuleFromFileName {fileName : Str}
    (h : getLabelRuleFromFileName basePath fileName = .ok labelRule) :
    labelRule = [] ∨ labelRule.length + basePath.length ≤ fileName.length := by
  have hTake : ∀ {rest : Str} {n : ℕ}, fileName.substr basePath.length = .ok rest →
      rest.take n = labelRule → labelRule.length + basePath.length ≤ fileName.length := by
    rintro rest n hRest rfl
    have hLength := substr_ok hRest
    rw [List.length_take]
    omega
  rw [getLabelRuleFromFileName] at h
  split_ifs at h
  · obtain ⟨rest, hRest, h⟩ := Outcome.bind_eq_ok.mp h
    exact .inr (hTake hRest (Except.ok.inj h))
  · obtain ⟨rest, hRest, h⟩ := Outcome.bind_eq_ok.mp h
    exact .inr (hTake hRest (Except.ok.inj h))
  · exact .inl (Except.ok.inj h).symm
  · have hLength := substr_ok h
    rw [List.length_dropLast] at hLength
    exact .inr (by omega)
  · exact .inr (substr_ok h).le

/-- The label that `createNodeDirectory` goes on with. -/
def parentLabelRule (basePath labelRule : Str) : Outcome Str := do
  getLabelRuleFromFileName basePath (← getNodeParentPath basePath labelRule)

theorem length_parentLabelRule {parent : Str} (h : parentLabelRule basePath labelRule = .ok parent)
    (hLabel : labelRule ≠ []) : parent.length < labelRule.length := by
  obtain ⟨parentPath, hPath, h⟩ := Outcome.bind_eq_ok.mp h
  have hShorter := length_getNodeParentPath hPath hLabel
  rcases length_getLabelRuleFromFileName h with rfl | hLength
  · exact List.length_pos_iff.mpr hLabel
  · omega

end Parents

end Wwatp
