import Wwatp.Cxx.Loops
import Wwatp.File.Escape
import Wwatp.File.Watches

/-! The recursion of `createNodeDirectory` and the loop of `node_watch_chain` go from a label to its parent until they
come to the base path. -/
namespace Wwatp

open Cxx Cxx.Effectful

/-- The label that `createNodeDirectory` calls itself with. -/
def nextDirectory (basePath labelRule : Str) : Option Str :=
  if labelRule = [] ∨ labelRule = str "/" then none else (parentLabelRule basePath labelRule).toOption

/-- A round of the loop of `node_watch_chain`: `node_dir`, or nothing once the loop is left, and the chain. -/
def nextWatch (basePath : Str) : Option Str × WatchChain → Option (Option Str × WatchChain)
  | (none, _) => none
  | (some nodeDir, chain) =>
    if nodeDir.length < basePath.length then none
    else if nodeDir = basePath then some (none, (.entries, nodeDir) :: chain)
    else do
      let labelRule ← (getLabelRuleFromFileName basePath nodeDir).toOption
      let parent ← (getNodeParentPath basePath labelRule).toOption
      return (some parent, (.entries, nodeDir) :: chain)

section Recursion

variable {basePath : Str}

/-- A label that is not the end has a parent. -/
theorem nextDirectory_eq_none (hBase : basePath.getLast? = some (chr '/')) {labelRule : Str}
    (h : nextDirectory basePath labelRule = none) : labelRule = [] ∨ labelRule = str "/" := by
  by_contra hRoot
  obtain ⟨parent, hParent⟩ := exists_parentLabelRule hBase labelRule
  rw [nextDirectory, if_neg hRoot, hParent] at h
  cases h

theorem length_nextDirectory {labelRule parent : Str} (h : nextDirectory basePath labelRule = some parent) :
    parent.length < labelRule.length := by
  rw [nextDirectory] at h
  split_ifs at h with hRoot
  cases hParent : parentLabelRule basePath labelRule with
  | error fault =>
      rw [hParent] at h
      cases h
  | ok found =>
      rw [hParent] at h
      obtain rfl := Option.some.inj h
      exact length_parentLabelRule hParent fun hEmpty => hRoot (.inl hEmpty)

/-- The calls go on to the empty label or a slash, no more of them than the label has characters. -/
theorem exists_calls (hBase : basePath.getLast? = some (chr '/')) (labelRule : Str) :
    ∃ n last, n ≤ labelRule.length ∧ LoopRun (nextDirectory basePath) labelRule n last ∧
      (last = [] ∨ last = str "/") := by
  obtain ⟨n, last, hBound, hRun⟩ := exists_run_of_lt List.length (fun _ _ => length_nextDirectory) labelRule
  have hEnd := (hRun.invariant (P := fun _ => True) (fun _ _ _ _ => trivial) trivial).2
  exact ⟨n, last, hBound, hRun, nextDirectory_eq_none hBase hEnd⟩

end Recursion

section Loop

variable {basePath nodeDir : Str}

/-- From a directory the loop goes on to a shorter one, or to the base path. -/
theorem exists_nextWatch (hBase : basePath.getLast? = some (chr '/')) (hDir : basePath <+: nodeDir) : ∃ labelRule parent, getLabelRuleFromFileName basePath nodeDir = .ok labelRule ∧
      getNodeParentPath basePath labelRule = .ok parent ∧ basePath <+: parent ∧
      (parent = basePath ∨ parent.length < nodeDir.length) := by
  obtain ⟨labelRule, hLabel⟩ := exists_getLabelRuleFromFileName hDir.length_le
  obtain ⟨parent, hParent, hBegins⟩ := exists_getNodeParentPath hBase labelRule
  refine ⟨labelRule, parent, hLabel, hParent, hBegins, ?_⟩
  by_cases hEmpty : labelRule = []
  · -- the directory of the empty label is the base path, which is its own parent
    rw [hEmpty, getNodeParentPath, getNodeDirectoryPath, if_pos rfl, if_pos rfl] at hParent
    exact .inl (Except.ok.inj hParent).symm
  · have hShorter := length_getNodeParentPath hParent hEmpty
    have hLength := (length_getLabelRuleFromFileName hLabel).resolve_left hEmpty
    exact .inr (by omega)

/-- The loop is left at the base path, which it puts in front of the chain. -/
theorem exists_watchRun (hBase : basePath.getLast? = some (chr '/')) (hDir : basePath <+: nodeDir) (chain : WatchChain) :
    ∃ n above, n ≤ nodeDir.length - basePath.length + 1 ∧
      LoopRun (nextWatch basePath) (some nodeDir, chain) n (none, (.entries, basePath) :: above) := by
  induction hLength : nodeDir.length using Nat.strong_induction_on generalizing nodeDir chain with
  | _ length ih =>
      subst hLength
      have hLong : ¬nodeDir.length < basePath.length := not_lt.mpr hDir.length_le
      by_cases hSame : nodeDir = basePath
      · refine ⟨1, chain, by omega, .goes ?_ (.ends rfl)⟩
        rw [nextWatch, if_neg hLong, if_pos hSame, hSame]
      · obtain ⟨labelRule, parent, hLabel, hParent, hBegins, hCloser⟩ := exists_nextWatch hBase hDir
        have hStep : nextWatch basePath (some nodeDir, chain) = some (some parent, (.entries, nodeDir) :: chain) := by
          rw [nextWatch, if_neg hLong, if_neg hSame, hLabel]
          show (getNodeParentPath basePath labelRule).toOption.bind _ = _
          rw [hParent]
          rfl
        have hInside : basePath.length < nodeDir.length := by
          refine lt_of_le_of_ne hDir.length_le fun hEqual => hSame ?_
          exact (hDir.eq_of_length hEqual).symm
        rcases hCloser with rfl | hShorter
        · -- one more round, at the base path
          refine ⟨2, (.entries, nodeDir) :: chain, by omega, .goes hStep (.goes ?_ (.ends rfl))⟩
          rw [nextWatch, if_neg (lt_irrefl _), if_pos rfl]
        · obtain ⟨n, above, hBound, hRun⟩ := ih _ hShorter hBegins ((.entries, nodeDir) :: chain) rfl
          have hFront := hBegins.length_le
          exact ⟨n + 1, above, by omega, .goes hStep hRun⟩

end Loop

namespace FileBackend

variable {b : FileBackend}

/-- The loop computes what it puts together. -/
theorem directoryWatchChain_of_run {n : ℕ} {nodeDir : Str} {chain whole : WatchChain}
    (h : LoopRun (nextWatch b.basePath) (some nodeDir, chain) n (none, whole)) :
    b.directoryWatchChain nodeDir chain = .ok whole := by
  induction n generalizing nodeDir chain with
  | zero => cases h
  | succ n ih =>
      cases h with
      | goes hNext rest =>
          rw [nextWatch] at hNext
          split_ifs at hNext with hShort hBase
          · obtain rfl := Option.some.inj hNext
            cases rest with
            | ends => rw [directoryWatchChain, dif_neg hShort, dif_pos hBase]
            | goes hMore => cases hMore
          · obtain ⟨labelRule, hLabel, hNext⟩ := Option.bind_eq_some_iff.mp hNext
            obtain ⟨parent, hParent, hNext⟩ := Option.bind_eq_some_iff.mp hNext
            obtain rfl := Option.some.inj hNext
            rw [directoryWatchChain, dif_neg hShort, dif_neg hBase]
            split
            · next fault hFault =>
                rw [hFault] at hLabel
                cases hLabel
            · next found hFound =>
                rw [hFound] at hLabel
                obtain rfl := Option.some.inj hLabel
                split
                · next fault hFault =>
                    rw [hFault] at hParent
                    cases hParent
                · next above hAbove =>
                    rw [hAbove] at hParent
                    obtain rfl := Option.some.inj hParent
                    exact ih rest

end FileBackend

/-- For every base path that ends in a slash and every label, the calls of `createNodeDirectory` come to an end, as
many of them as the label has characters at most, and the loop of `node_watch_chain` does, at the base path; on every
disk they return. -/
theorem directories_end (basePath : Str) (hBase : basePath.getLast? = some (chr '/')) (labelRule : Str) :
    (∃ n last, n ≤ labelRule.length ∧ LoopRun (nextDirectory basePath) labelRule n last ∧
      (last = [] ∨ last = str "/")) ∧
    (∃ start n above, getNodeParentPath basePath labelRule = .ok start ∧
      n ≤ start.length - basePath.length + 1 ∧
      LoopRun (nextWatch basePath) (some start, []) n (none, (.entries, basePath) :: above) ∧
      ∀ b : FileBackend, b.basePath = basePath → b.directoryWatchChain start [] = .ok ((.entries, basePath) :: above)) ∧
    ∀ b : FileBackend, b.basePath = basePath → ∀ d : Disk, ∃ made other,
      b.createNodeDirectory labelRule d = (.ok made, other) := by
  refine ⟨exists_calls hBase labelRule, ?_, fun b _ d => FileBackend.createNodeDirectory_ok labelRule d⟩
  obtain ⟨start, hStart, hBegins⟩ := exists_getNodeParentPath hBase labelRule
  obtain ⟨n, above, hBound, hRun⟩ := exists_watchRun hBase hBegins []
  refine ⟨start, n, above, hStart, hBound, hRun, ?_⟩
  rintro b rfl
  exact FileBackend.directoryWatchChain_of_run hRun

theorem directories_end_dotted : ∃ n last, n ≤ (str "x//../.y/").length ∧
    LoopRun (nextDirectory (str "/a.b/")) (str "x//../.y/") n last ∧ (last = [] ∨ last = str "/") :=
  (directories_end (str "/a.b/") (by decide) (str "x//../.y/")).1

end Wwatp
