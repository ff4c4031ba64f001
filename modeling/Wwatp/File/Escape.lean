import Wwatp.Cxx.Directories
import Wwatp.File.Confinement

/-! Where a label or a node leads out of the base directory, some files let an operation follow it
there. -/
namespace Wwatp

open Cxx Effectful FileSystem

namespace FileBackend

variable {b : FileBackend} {node : TreeNode}

section Growth

variable {place : Path}

end Growth

section Directory

variable {path : Str} {fs : FileSystem}

end Directory

section Opened

/-- The steps for a label that has a parent. -/
theorem createNodeDirectory_eq {labelRule parent : Str} (hRoot : ¬(labelRule = [] ∨ labelRule = str "/"))
    (hParent : parentLabelRule b.basePath labelRule = .ok parent) : b.createNodeDirectory labelRule = (do
      let _ ← b.createNodeDirectory parent
      match ← Effectful.call (Disk.mkdir b.cwd (getNodeDirectoryPath b.basePath labelRule)) with
      | .error errno => return errno = .exist
      | .ok () => return true) := by
  rw [createNodeDirectory, dif_neg hRoot]
  split
  · next fault hFault => cases hParent.symm.trans hFault
  · next found hFound =>
    obtain rfl := Except.ok.inj (hParent.symm.trans hFound)
    rfl

theorem createNodeDirectory_ok (labelRule : Str) (d : Disk) :
    ∃ made other, b.createNodeDirectory labelRule d = (.ok made, other) := by
  induction hLength : labelRule.length using Nat.strong_induction_on generalizing labelRule d with
  | _ length ih =>
    by_cases hRoot : labelRule = [] ∨ labelRule = str "/"
    · rw [createNodeDirectory, dif_pos hRoot]
      exact ⟨_, _, rfl⟩
    obtain ⟨parent, hParent⟩ := exists_parentLabelRule b.endsWithSlash labelRule
    have hShorter := length_parentLabelRule hParent fun hEmpty => hRoot (.inl hEmpty)
    obtain ⟨made, other, hMade⟩ := ih _ (hLength ▸ hShorter) parent d rfl
    rw [createNodeDirectory_eq hRoot hParent, bind_ok hMade]
    rcases hCall : Disk.mkdir b.cwd (getNodeDirectoryPath b.basePath labelRule) other with ⟨errno | _, after⟩
    · rw [bind_ok (show call (Disk.mkdir b.cwd _) other = (.ok (.error errno), after) by rw [call, hCall])]
      exact ⟨_, _, rfl⟩
    · rw [bind_ok (show call (Disk.mkdir b.cwd _) other = (.ok (.ok ()), after) by rw [call, hCall])]
      exact ⟨_, _, rfl⟩

end Opened

section Parent

end Parent

section Confinement

end Confinement

end FileBackend

end Wwatp
