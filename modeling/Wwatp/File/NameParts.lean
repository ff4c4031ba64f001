import Wwatp.Cxx.PathNames
import Wwatp.File.Names

/-! Where the names made from a label are cut: at the last slash, and at the dots behind it. -/
namespace Cxx.Str

variable {s t : Str} {c : UInt8}

theorem findLast_append_of_mem (s : Str) (h : c ∈ t) :
    findLast (s ++ t) c = (findLast t c).map (· + s.length) := by
  obtain ⟨i, hLast⟩ := Option.ne_none_iff_exists'.mp fun hNone => findLast_eq_none.mp hNone h
  obtain ⟨before, after, rfl, rfl, hAfter⟩ := findLast_eq_some.mp hLast
  rw [hLast]
  refine findLast_eq_some.mpr ⟨s ++ before, after, (List.append_assoc ..).symm, ?_, hAfter⟩
  rw [List.length_append, Nat.add_comm]

theorem findFrom_append (s t : Str) (c : UInt8) (n : ℕ) :
    findFrom (s ++ t) c (s.length + n) = (findFrom t c n).map (· + s.length) := by
  rw [findFrom, findFrom, List.drop_length_add_append, Option.map_map]
  refine Option.map_congr fun i _ => ?_
  rw [Function.comp_apply, Nat.add_comm s.length n, Nat.add_assoc]

/-- What is in front of the first occurrence. -/
theorem not_mem_take_find (s : Str) (c : UInt8) : c ∉ s.take ((find s c).getD s.length) := by
  cases hFind : find s c with
  | none =>
    rw [Option.getD_none, List.take_length]
    intro hMem
    have hNone := List.findIdx?_eq_none_iff.mp hFind c hMem
    rw [beq_self_eq_true] at hNone
    cases hNone
  | some i =>
    rw [Option.getD_some]
    intro hMem
    obtain ⟨hLt, -, hBefore⟩ := List.findIdx?_eq_some_iff_getElem.mp hFind
    obtain ⟨j, hj, hSame⟩ := List.getElem_of_mem hMem
    rw [List.length_take] at hj
    rw [List.getElem_take] at hSame
    refine hBefore j (by omega) ?_
    rw [hSame, beq_self_eq_true]

end Cxx.Str

namespace Wwatp

open Cxx

theorem toDecimal_digits {n : ℕ} {c : UInt8} (h : c ∈ toDecimal n) : 48 ≤ c ∧ c ≤ 57 := by
  rw [toDecimal, toBase_eq, List.mem_map] at h
  obtain ⟨d, hd, rfl⟩ := h
  have hLt : d < 10 := digitsOf_lt (by decide) d hd
  interval_cases d <;> decide

theorem toDecimal_ne_nil (n : ℕ) : toDecimal n ≠ [] := by
  rw [toDecimal, toBase_eq]
  exact fun h => digitsOf_ne_nil 10 n (List.map_eq_nil_iff.mp h)

section ContentFiles

variable {dir entry : Str}

/-- What the name of a content file says is behind its last slash. -/
theorem parsePropertyInfo_append (hDir : dir.getLast? = some (chr '/')) (hSlash : chr '/' ∉ entry)
    (hDot : chr '.' ∈ entry) : parsePropertyInfo (dir ++ entry) = parsePropertyInfo entry := by
  obtain ⟨front, rfl⟩ := List.getLast?_eq_some_iff.mp hDir
  have hLastSlash : Str.findLast (front ++ [chr '/'] ++ entry) (chr '/') = some front.length :=
    Str.findLast_eq_some.mpr ⟨front, entry, List.append_assoc .., rfl, hSlash⟩
  have hNoSlash : Str.findLast entry (chr '/') = none := Str.findLast_eq_none.mpr hSlash
  have hLength : front.length + 1 = (front ++ [chr '/']).length + 0 := by rw [List.length_append]; rfl
  have hDrop : ∀ n, (front ++ [chr '/'] ++ entry).drop (n + (front ++ [chr '/']).length) = entry.drop n := by
    intro n
    rw [Nat.add_comm, List.drop_length_add_append]
  simp only [parsePropertyInfo, hLastSlash, hNoSlash, Option.map_some, Option.map_none, Option.getD_some,
    Option.getD_none, Str.findLast_append_of_mem _ hDot]
  rw [hLength, Str.findFrom_append, Option.map_map]
  refine Option.map_congr fun last _ => ?_
  rw [Function.comp_apply, Nat.add_right_comm, hDrop]
  cases Str.findFrom entry (chr '.') 0 with
  | none => rfl
  | some first =>
    have hSecond : Str.findFrom (front ++ [chr '/'] ++ entry) (chr '.') (first + (front ++ [chr '/']).length + 1) =
        (Str.findFrom entry (chr '.') (first + 1)).map (· + (front ++ [chr '/']).length) := by
      rw [Nat.add_right_comm, Nat.add_comm, Str.findFrom_append]
    simp only [Option.map_some, Option.bind_some, hSecond]
    cases Str.findFrom entry (chr '.') (first + 1) with
    | none => rfl
    | some second =>
      have hSize : sizeSub (last + (front ++ [chr '/']).length) (second + (front ++ [chr '/']).length + 1) =
          sizeSub last (second + 1) := by
        rw [sizeSub, sizeSub]
        split_ifs <;> omega
      have hOrder : first + (front ++ [chr '/']).length + 1 < second + (front ++ [chr '/']).length ↔
          first + 1 < second := by omega
      simp only [Option.map_some, hSize, hOrder]
      rw [Nat.add_right_comm second, hDrop]

/-- The type and the name are parts of the name of the file. -/
theorem subset_of_parsePropertyInfo {info : PropertyInfo} (h : parsePropertyInfo entry = some info) :
    info.1 ⊆ entry ∧ info.2 ⊆ entry := by
  obtain ⟨last, -, rfl⟩ := Option.map_eq_some_iff.mp h
  refine ⟨List.drop_subset _ _, ?_⟩
  dsimp only
  split
  · split_ifs
    · exact List.Subset.trans (List.take_subset _ _) (List.drop_subset _ _)
    · exact List.nil_subset _
  · exact List.nil_subset _

end ContentFiles

section Labels

variable {basePath labelRule : Str}

theorem getNodeDirectoryPath_eq (basePath labelRule : Str) : ∃ tail,
    getNodeDirectoryPath basePath labelRule = basePath ++ labelRule ++ tail ∧ tail ⊆ [chr '/'] := by
  rw [getNodeDirectoryPath]
  split_ifs with hEmpty
  · exact ⟨[], by rw [hEmpty, List.append_nil, List.append_nil], List.nil_subset _⟩
  · exact ⟨[], (List.append_nil _).symm, List.nil_subset _⟩
  · exact ⟨str "/", rfl, List.Subset.refl _⟩

theorem getNodeDirectoryPath_slash (hBase : basePath.getLast? = some (chr '/')) :
    (getNodeDirectoryPath basePath labelRule).getLast? = some (chr '/') := by
  rw [getNodeDirectoryPath]
  split_ifs with hEmpty hSlash
  · exact hBase
  · rwa [List.getLast?_append_of_ne_nil _ hEmpty]
  · exact List.getLast?_concat ..

theorem popSlash_append {nodeDir : Str} (h : nodeDir.getLast? = some (chr '/')) :
    nodeDir = popSlash nodeDir ++ [chr '/'] := by
  obtain ⟨front, rfl⟩ := List.getLast?_eq_some_iff.mp h
  rw [popSlash_concat]

theorem getLabelRuleFromFileName_noDot {fileName : Str} (hSlash : fileName.getLast? = some (chr '/'))
    (h : getLabelRuleFromFileName basePath fileName = .ok labelRule) : chr '.' ∉ labelRule := by
  obtain ⟨front, rfl⟩ := List.getLast?_eq_some_iff.mp hSlash
  rw [getLabelRuleFromFileName] at h
  split_ifs at h with hNode hDot
  · obtain ⟨other, hOther⟩ := hNode
    have hLast := congrArg List.getLast? hOther
    rw [List.getLast?_concat, List.getLast?_append_of_ne_nil _ (by decide)] at hLast
    exact absurd hLast (by decide)
  · obtain ⟨rest, -, h⟩ := Outcome.bind_eq_ok.mp h
    rw [← Except.ok.inj h]
    exact Str.not_mem_take_find rest (chr '.')
  · rw [← Except.ok.inj h]
    exact List.not_mem_nil
  · rw [Str.substr] at h
    split_ifs at h
    rw [← Except.ok.inj h]
    exact fun hMem => hDot (List.dropLast_subset _ (List.drop_subset _ _ hMem))

/-- The directory that the parent of a label is kept in. -/
theorem getNodeParentPath_slash {parentPath : Str} (hBase : basePath.getLast? = some (chr '/'))
    (h : getNodeParentPath basePath labelRule = .ok parentPath) : parentPath.getLast? = some (chr '/') := by
  rw [getNodeParentPath] at h
  split_ifs at h
  · rw [← Except.ok.inj h]
    exact hBase
  · obtain ⟨parts, hParts, h⟩ := Outcome.bind_eq_ok.mp h
    rw [← Except.ok.inj h]
    exact (splitDirectory_ok hParts).2.1

/-- The labels that directories are made for, other than the label itself, have no dots. -/
theorem parentLabelRule_noDot {parent : Str} (hBase : basePath.getLast? = some (chr '/'))
    (h : parentLabelRule basePath labelRule = .ok parent) : chr '.' ∉ parent := by
  obtain ⟨parentPath, hPath, h⟩ := Outcome.bind_eq_ok.mp h
  exact getLabelRuleFromFileName_noDot (getNodeParentPath_slash hBase hPath) h

/-- A label's directory path is that of its parent and its name. -/
theorem getNodeParentPath_append {parentPath nodeName : Str} (hBase : basePath.getLast? = some (chr '/'))
    (hPath : getNodeParentPath basePath labelRule = .ok parentPath)
    (hName : getNodeName basePath labelRule = .ok nodeName) (hLabel : labelRule ≠ []) :
    getNodeDirectoryPath basePath labelRule = parentPath ++ nodeName ++ [chr '/'] := by
  obtain ⟨tail, hDir, -⟩ := getNodeDirectoryPath_eq basePath labelRule
  rw [getNodeParentPath, if_neg] at hPath
  · obtain ⟨parts, hParts, h⟩ := Outcome.bind_eq_ok.mp hPath
    obtain rfl := Except.ok.inj h
    rw [getNodeName, hParts] at hName
    obtain rfl := Except.ok.inj hName
    rw [← (splitDirectory_ok hParts).1]
    exact popSlash_append (getNodeDirectoryPath_slash hBase)
  · intro hSame
    have hLength := congrArg List.length (hDir.symm.trans hSame)
    have hPos := List.length_pos_iff.mpr hLabel
    simp only [List.length_append] at hLength
    omega

/-- No byte comes into the path of the parent. -/
theorem getNodeParentPath_subset {parentPath : Str} (hBase : basePath.getLast? = some (chr '/'))
    (h : getNodeParentPath basePath labelRule = .ok parentPath) : parentPath ⊆ basePath ++ labelRule := by
  rw [getNodeParentPath] at h
  split_ifs at h
  · rw [← Except.ok.inj h]
    exact List.subset_append_left _ _
  obtain ⟨parts, hParts, h⟩ := Outcome.bind_eq_ok.mp h
  obtain rfl := Except.ok.inj h
  obtain ⟨tail, hDir, hTail⟩ := getNodeDirectoryPath_eq basePath labelRule
  have hSlash : chr '/' ∈ basePath ++ labelRule := List.mem_append_left _ (List.mem_of_getLast? hBase)
  have hPop : popSlash (getNodeDirectoryPath basePath labelRule) ⊆ basePath ++ labelRule ++ tail := by
    rw [← hDir, popSlash]
    split_ifs
    · exact List.dropLast_subset _
    · exact List.Subset.refl _
  intro c hc
  rw [(splitDirectory_ok hParts).1] at hPop
  refine (List.mem_append.mp (hPop (List.mem_append_left _ hc))).elim id fun hIn => ?_
  rwa [List.mem_singleton.mp (hTail hIn)]

/-- The path of the parent is there, and it begins with the base path. -/
theorem exists_getNodeParentPath (hBase : basePath.getLast? = some (chr '/')) (labelRule : Str) :
    ∃ parentPath, getNodeParentPath basePath labelRule = .ok parentPath ∧ basePath <+: parentPath := by
  rw [getNodeParentPath]
  split_ifs with hSame
  · exact ⟨basePath, rfl, List.prefix_rfl⟩
  obtain ⟨tail, hDir, -⟩ := getNodeDirectoryPath_eq basePath labelRule
  have hDirSlash : (getNodeDirectoryPath basePath labelRule).getLast? = some (chr '/') :=
    getNodeDirectoryPath_slash hBase
  have hPop := popSlash_append hDirSlash
  have hBegins : basePath <+: popSlash (getNodeDirectoryPath basePath labelRule) := by
    have hIn : basePath <+: popSlash (getNodeDirectoryPath basePath labelRule) ++ [chr '/'] := by
      rw [← hPop, hDir, List.append_assoc]
      exact List.prefix_append _ _
    rcases List.prefix_concat_iff.mp hIn with hWhole | hFront
    · exact absurd (hPop.trans hWhole.symm) hSame
    · exact hFront
  have hSlash : chr '/' ∈ popSlash (getNodeDirectoryPath basePath labelRule) :=
    hBegins.subset (List.mem_of_getLast? hBase)
  cases hSplit : splitDirectory (popSlash (getNodeDirectoryPath basePath labelRule)) with
  | error fault =>
    rw [splitDirectory] at hSplit
    split at hSplit
    · next hNone => exact absurd hSlash (Str.findLast_eq_none.mp hNone)
    · cases hSplit
  | ok parts =>
    refine ⟨parts.1, rfl, ?_⟩
    obtain ⟨hParts, -, hName⟩ := splitDirectory_ok hSplit
    have hFront : parts.1 <+: popSlash (getNodeDirectoryPath basePath labelRule) := ⟨parts.2, hParts.symm⟩
    rcases List.prefix_or_prefix_of_prefix hBegins hFront with hShort | ⟨rest, hRest⟩
    · exact hShort
    rw [hParts, ← hRest] at hBegins
    have hRestName : rest <+: parts.2 := (List.prefix_append_right_inj parts.1).mp hBegins
    by_cases hEmpty : rest = []
    · rw [hEmpty, List.append_nil] at hRest
      rw [hRest]
    · rw [← hRest, List.getLast?_append_of_ne_nil _ hEmpty] at hBase
      exact absurd (hRestName.subset (List.mem_of_getLast? hBase)) hName

/-- A name that is no shorter than the base path says which label it is of. -/
theorem exists_getLabelRuleFromFileName {fileName : Str} (hLength : basePath.length ≤ fileName.length) :
    ∃ labelRule, getLabelRuleFromFileName basePath fileName = .ok labelRule := by
  have hSubstr : ∀ s : Str, basePath.length ≤ s.length → s.substr basePath.length = .ok (s.drop basePath.length) :=
    fun s hs => if_neg hs.not_gt
  rw [getLabelRuleFromFileName]
  split_ifs with _ _ hSlash hShort
  · rw [hSubstr _ hLength]
    exact ⟨_, rfl⟩
  · rw [hSubstr _ hLength]
    exact ⟨_, rfl⟩
  · exact ⟨_, rfl⟩
  · exact ⟨_, hSubstr _ (by rw [List.length_dropLast]; omega)⟩
  · exact ⟨_, hSubstr _ hLength⟩

theorem exists_parentLabelRule (hBase : basePath.getLast? = some (chr '/')) (labelRule : Str) :
    ∃ parent, parentLabelRule basePath labelRule = .ok parent := by
  obtain ⟨parentPath, hPath, hBegins⟩ := exists_getNodeParentPath hBase labelRule
  rw [parentLabelRule, hPath, Outcome.ok_bind]
  exact exists_getLabelRuleFromFileName hBegins.length_le

/-- A file named by a label and an extension is in the label's directory or in that of its parent. -/
theorem labelPath_split (hBase : basePath.getLast? = some (chr '/')) (labelRule : Str) :
    ∃ front last, basePath ++ labelRule = front ++ last ∧ front.getLast? = some (chr '/') ∧ chr '/' ∉ last ∧
      (front = getNodeDirectoryPath basePath labelRule ∨ getNodeParentPath basePath labelRule = .ok front) := by
  by_cases hEmpty : labelRule = []
  · refine ⟨basePath, [], by rw [hEmpty], hBase, List.not_mem_nil, .inl ?_⟩
    rw [getNodeDirectoryPath, if_pos hEmpty]
  by_cases hSlash : labelRule.getLast? = some (chr '/')
  · have hLast : (basePath ++ labelRule).getLast? = some (chr '/') := by
      rwa [List.getLast?_append_of_ne_nil _ hEmpty]
    refine ⟨basePath ++ labelRule, [], (List.append_nil _).symm, hLast, List.not_mem_nil, .inl ?_⟩
    rw [getNodeDirectoryPath, if_neg hEmpty, if_pos hSlash]
  · have hDir : getNodeDirectoryPath basePath labelRule = basePath ++ labelRule ++ [chr '/'] := by
      rw [getNodeDirectoryPath, if_neg hEmpty, if_neg hSlash]
      rfl
    have hMem : chr '/' ∈ basePath ++ labelRule :=
      List.mem_append_left _ (List.mem_of_getLast? hBase)
    have hSplit : ∃ parts, splitDirectory (basePath ++ labelRule) = .ok parts := by
      rw [splitDirectory]
      split
      · next hNone => exact absurd hMem (Str.findLast_eq_none.mp hNone)
      · exact ⟨_, rfl⟩
    obtain ⟨parts, hParts⟩ := hSplit
    obtain ⟨hAppend, hFront, hBack⟩ := splitDirectory_ok hParts
    refine ⟨parts.1, parts.2, hAppend, hFront, hBack, .inr ?_⟩
    rw [getNodeParentPath, hDir, popSlash_concat, hParts, if_neg]
    · rfl
    · intro hSame
      have := congrArg List.length hSame
      simp only [List.length_append, List.length_singleton] at this
      omega

end Labels

end Wwatp
