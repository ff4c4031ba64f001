import Wwatp.Cxx.PathNames

/-! File systems that hold given directories and little else. -/
namespace Cxx

namespace FileSystem

/-- The file system that has nothing but its root. -/
def onlyRoot : FileSystem where
  inodes := (∅ : Std.ExtTreeMap Path Inode).insert [] .directory
  root := by rw [getElem?_insert, if_pos rfl]
  entry := by
    intro name dir hMem
    rcases Std.ExtTreeMap.mem_insert.mp hMem with hRoot | hNone
    · cases Std.LawfulEqCmp.eq_of_compare hRoot
    · exact absurd hNone Std.ExtTreeMap.not_mem_empty

end FileSystem

open FileSystem

section Walks

variable {cwd : Path} {path s : Str}

variable {fs : FileSystem} {place : Path}

end Walks

/-- Directories are listed with one name first. -/
def ReaddirOrder.first (name : Str) : ReaddirOrder where
  list fs dir := if name ∈ fs.names dir then name :: (fs.names dir).erase name else fs.names dir
  perm fs dir := by
    split_ifs with hMem
    · exact (List.perm_cons_erase hMem).symm
    · exact .refl _

end Cxx
