import Wwatp.Cxx.Effects

/-! A file system as system calls see it: directories and files at places, without links. A
call names its file by a string that is walked component by component. -/
namespace Cxx

/-- A place in the file system: the names from it back to the root. -/
abbrev Path := List Str

inductive Inode
  | directory
  | file (bytes : List UInt8)
  deriving DecidableEq, Repr

/-- A name that an entry of a directory can have. -/
def ValidName (name : Str) : Prop :=
  name ≠ [] ∧ name ≠ str "." ∧ name ≠ str ".." ∧ chr '/' ∉ name ∧ 0 ∉ name

instance (name : Str) : Decidable (ValidName name) := inferInstanceAs (Decidable (_ ∧ _))

theorem validName_nil : ∀ name ∈ ([] : Path), ValidName name := by simp

instance Path.transOrd : Std.TransOrd Path := inferInstanceAs (Std.TransOrd (List Str))

/-- The root is a directory, and so is the place that an entry is in. -/
structure FileSystem where
  inodes : Std.ExtTreeMap Path Inode
  root : inodes[([] : Path)]? = some .directory
  entry : ∀ name dir, (name :: dir : Path) ∈ inodes → ValidName name ∧ inodes[dir]? = some .directory

inductive Errno
  | noEntry
  | exist
  | notDirectory
  | isDirectory
  | notEmpty
  | invalid
  | busy
  | access
  deriving DecidableEq, Repr

namespace FileSystem

def find (fs : FileSystem) (place : Path) : Option Inode := fs.inodes[place]?

/-- The name of a place in a directory. -/
def nameIn (dir : Path) : Path → Option Str
  | name :: parent => if parent = dir then some name else none
  | [] => none

/-- The names in a directory. -/
def names (fs : FileSystem) (dir : Path) : List Str := fs.inodes.keys.filterMap (nameIn dir)

/-- The step of a walk over one component. -/
def descend (dir : Path) (name : Str) : Path :=
  if name = [] ∨ name = str "." then dir else if name = str ".." then dir.tail else name :: dir

/-- Walks the components; each step is taken from a directory. What the last step leads to
need not be there. -/
def walk (fs : FileSystem) : Path → List Str → Except Errno Path
  | dir, [] => .ok dir
  | dir, name :: rest =>
    match fs.find dir with
    | some .directory => walk fs (descend dir name) rest
    | some (.file _) => .error .notDirectory
    | none => .error .noEntry

end FileSystem

/-- The bytes of a string that a system call sees. -/
def cString (s : Str) : Str := s.takeWhile (· ≠ 0)

/-- The components of a name. -/
def components (path : Str) : List Str := (cString path).splitOn (chr '/')

/-- Where the walk of a name begins. -/
def origin (cwd : Path) (path : Str) : Path :=
  if (cString path).head? = some (chr '/') then [] else cwd

/-- The place that a name stands for. -/
def placeOf (cwd : Path) (path : Str) : Path :=
  (components path).foldl FileSystem.descend (origin cwd path)

namespace FileSystem

def lookup (fs : FileSystem) (cwd : Path) (path : Str) : Except Errno Path :=
  if cString path = [] then .error .noEntry else fs.walk (origin cwd path) (components path)

/-- `std::filesystem::exists`. -/
def fileExists (fs : FileSystem) (cwd : Path) (path : Str) : Bool :=
  match fs.lookup cwd path with
  | .ok place => (fs.find place).isSome
  | .error _ => false

/-- A file opened for reading; a directory can be opened as well. -/
def openRead (fs : FileSystem) (cwd : Path) (path : Str) : Option Inode :=
  match fs.lookup cwd path with
  | .ok place => fs.find place
  | .error _ => none

theorem getElem?_insert (inodes : Std.ExtTreeMap Path Inode) (place other : Path) (inode : Inode) :
    (inodes.insert place inode)[other]? = if other = place then some inode else inodes[other]? := by
  rw [Std.ExtTreeMap.getElem?_insert]
  exact if_congr (Std.LawfulEqCmp.compare_eq_iff_eq.trans eq_comm) rfl rfl

theorem getElem?_erase (inodes : Std.ExtTreeMap Path Inode) (place other : Path) :
    (inodes.erase place)[other]? = if other = place then none else inodes[other]? := by
  rw [Std.ExtTreeMap.getElem?_erase]
  exact if_congr (Std.LawfulEqCmp.compare_eq_iff_eq.trans eq_comm) rfl rfl

theorem mem_names {fs : FileSystem} {name : Str} {dir : Path} :
    name ∈ fs.names dir ↔ (name :: dir : Path) ∈ fs.inodes := by
  rw [names, List.mem_filterMap]
  constructor
  · rintro ⟨place, hPlace, hName⟩
    cases place with
    | nil => cases hName
    | cons other parent =>
      rw [nameIn, Option.ite_none_right_eq_some] at hName
      obtain ⟨rfl, hName⟩ := hName
      obtain rfl := Option.some.inj hName
      exact Std.ExtTreeMap.mem_keys.mp hPlace
  · exact fun hMem => ⟨name :: dir, Std.ExtTreeMap.mem_keys.mpr hMem, if_pos rfl⟩

/-- An entry can be made, or overwritten without cutting off what is below it. -/
def Puttable (fs : FileSystem) (place : Path) (inode : Inode) : Prop :=
  ∃ name dir, place = name :: dir ∧ ValidName name ∧ fs.find dir = some .directory ∧
    (fs.find (name :: dir) = some .directory → inode = .directory)

instance (fs : FileSystem) (place : Path) (inode : Inode) : Decidable (fs.Puttable place inode) :=
  match place with
  | [] => isFalse nofun
  | name :: dir => decidable_of_iff (ValidName name ∧ fs.find dir = some .directory ∧
      (fs.find (name :: dir) = some .directory → inode = .directory))
      ⟨fun h => ⟨name, dir, rfl, h⟩, fun ⟨_, _, hPlace, h⟩ => by cases hPlace; exact h⟩

/-- An entry is made or overwritten, where that leaves a file system. -/
def put (fs : FileSystem) (place : Path) (inode : Inode) : FileSystem :=
  if h : fs.Puttable place inode then
    { inodes := fs.inodes.insert place inode
      root := by
        obtain ⟨name, dir, rfl, -⟩ := h
        rw [getElem?_insert, if_neg (List.cons_ne_nil _ _).symm]
        exact fs.root
      entry := by
        obtain ⟨name, dir, rfl, hName, hDir, hKeep⟩ := h
        intro other parent hMem
        rw [getElem?_insert]
        rcases Std.ExtTreeMap.mem_insert.mp hMem with hNew | hOld
        · obtain ⟨rfl, rfl⟩ := List.cons.inj (Std.LawfulEqCmp.eq_of_compare hNew)
          rw [if_neg (List.cons_ne_self _ _).symm]
          exact ⟨hName, hDir⟩
        · obtain ⟨hOther, hParent⟩ := fs.entry other parent hOld
          refine ⟨hOther, ?_⟩
          split_ifs with hSame
          · rw [hSame] at hParent
            rw [hKeep hParent]
          · exact hParent }
  else fs

/-- An entry other than the root that nothing is below. -/
def Erasable (fs : FileSystem) (place : Path) : Prop := place ≠ [] ∧ fs.names place = []

instance (fs : FileSystem) (place : Path) : Decidable (fs.Erasable place) :=
  inferInstanceAs (Decidable (_ ∧ _))

/-- An entry is removed, where that leaves a file system. -/
def erase (fs : FileSystem) (place : Path) : FileSystem :=
  if h : fs.Erasable place then
    { inodes := fs.inodes.erase place
      root := by
        rw [getElem?_erase, if_neg h.1.symm]
        exact fs.root
      entry := by
        intro name dir hMem
        obtain ⟨-, hOld⟩ := Std.ExtTreeMap.mem_erase.mp hMem
        obtain ⟨hName, hDir⟩ := fs.entry name dir hOld
        refine ⟨hName, ?_⟩
        have hPlace : dir ≠ place := by
          rintro rfl
          have hIn := mem_names.mpr hOld
          rw [h.2] at hIn
          exact List.not_mem_nil hIn
        rw [getElem?_erase, if_neg hPlace]
        exact hDir }
  else fs

end FileSystem

/-- A file system in use. In the `frozen` directories no entry can be made or removed.
`touched` records the places of the entries that calls have made, written and removed. -/
structure Disk where
  files : FileSystem
  frozen : List Path := []
  touched : List Path := []

namespace Disk

def put (d : Disk) (place : Path) (inode : Inode) : Disk :=
  { d with files := d.files.put place inode, touched := d.touched ++ [place] }

def erase (d : Disk) (place : Path) : Disk :=
  { d with files := d.files.erase place, touched := d.touched ++ [place] }

/-- `mkdir`; slashes at the end of the name do not count. -/
def mkdir (cwd : Path) (path : Str) (d : Disk) : Except Errno Unit × Disk :=
  if cString path = [] then (.error .noEntry, d)
  else match d.files.walk (origin cwd path) ((components path).rdropWhile (· = [])) with
    | .error errno => (.error errno, d)
    | .ok place =>
      if (d.files.find place).isSome then (.error .exist, d)
      else if place.tail ∈ d.frozen then (.error .access, d)
      else (.ok (), d.put place .directory)

/-- A file opened for writing, which makes it or empties it, and what is written to it. -/
def writeFile (cwd : Path) (path : Str) (bytes : List UInt8) (d : Disk) : Except Errno Unit × Disk :=
  match d.files.lookup cwd path with
  | .error errno => (.error errno, d)
  | .ok place =>
    if d.files.find place = some .directory then (.error .isDirectory, d)
    else if d.files.find place = none ∧ place.tail ∈ d.frozen then (.error .access, d)
    else (.ok (), d.put place (.file bytes))

/-- `rmdir` of a directory that has been found. -/
def removeDirectory (path : Str) (place : Path) (d : Disk) : Except Errno Unit × Disk :=
  if ((components path).rdropWhile (· = [])).getLast? = some (str ".") then (.error .invalid, d)
  else if place = [] then (.error .busy, d)
  else if d.files.names place ≠ [] then (.error .notEmpty, d)
  else if place.tail ∈ d.frozen then (.error .access, d)
  else (.ok (), d.erase place)

def rmdir (cwd : Path) (path : Str) (d : Disk) : Except Errno Unit × Disk :=
  match d.files.lookup cwd path with
  | .error errno => (.error errno, d)
  | .ok place =>
    match d.files.find place with
    | none => (.error .noEntry, d)
    | some (.file _) => (.error .notDirectory, d)
    | some .directory => d.removeDirectory path place

/-- `remove`: `unlink` of a file, `rmdir` of a directory. -/
def remove (cwd : Path) (path : Str) (d : Disk) : Except Errno Unit × Disk :=
  match d.files.lookup cwd path with
  | .error errno => (.error errno, d)
  | .ok place =>
    match d.files.find place with
    | none => (.error .noEntry, d)
    | some (.file _) =>
      if place.tail ∈ d.frozen then (.error .access, d) else (.ok (), d.erase place)
    | some .directory => d.removeDirectory path place

end Disk

theorem FileSystem.perm_names (fs : FileSystem) (dir : Path) : (fs.names dir).Perm (fs.names dir) := .refl _

/-- The order in which the entries of a directory are listed. -/
structure ReaddirOrder where
  list : FileSystem → Path → List Str
  perm : ∀ fs dir, (list fs dir).Perm (fs.names dir)

/-- `opendir` and `readdir`, without `.` and `..`: the names, and which are directories. -/
def FileSystem.readdir (order : ReaddirOrder) (fs : FileSystem) (cwd : Path) (path : Str) :
    Except Errno (List (Str × Bool)) :=
  match fs.lookup cwd path with
  | .error errno => .error errno
  | .ok place =>
    match fs.find place with
    | none => .error .noEntry
    | some (.file _) => .error .notDirectory
    | some .directory =>
      .ok ((order.list fs place).map fun name => (name, fs.find (name :: place) = some .directory))

namespace FileSystem

variable {fs : FileSystem} {place other dir : Path} {name : Str} {inode : Inode}

theorem find_put (h : fs.Puttable place inode) :
    (fs.put place inode).find other = if other = place then some inode else fs.find other := by
  rw [put, dif_pos h]
  exact getElem?_insert fs.inodes place other inode

theorem find_erase (h : fs.Erasable place) :
    (fs.erase place).find other = if other = place then none else fs.find other := by
  rw [erase, dif_pos h]
  exact getElem?_erase fs.inodes place other

theorem mem_names_iff : name ∈ fs.names dir ↔ (fs.find (name :: dir)).isSome :=
  mem_names.trans Std.ExtTreeMap.mem_iff_isSome_getElem?

theorem nodup_names (fs : FileSystem) (dir : Path) : (fs.names dir).Nodup := by
  refine List.Nodup.filterMap (fun place other name hPlace hOther => ?_) Std.ExtTreeMap.nodup_keys
  cases place <;> cases other <;> simp_all [nameIn]

/-- An entry has a valid name and is in a directory. -/
theorem entry_of_find (h : fs.find (name :: dir) = some inode) :
    ValidName name ∧ fs.find dir = some .directory :=
  fs.entry name dir (Std.ExtTreeMap.mem_iff_isSome_getElem?.mpr (Option.isSome_of_eq_some h))

/-- What is above an entry is a directory. -/
theorem directory_of_suffix {below : Path} (h : fs.find (below ++ dir) = some inode) (hBelow : below ≠ []) :
    fs.find dir = some .directory := by
  induction below generalizing inode with
  | nil => exact absurd rfl hBelow
  | cons name below ih =>
    obtain ⟨-, hDir⟩ := entry_of_find h
    by_cases hEmpty : below = []
    · rwa [hEmpty] at hDir
    · exact ih hDir hEmpty

/-- Where a walk ends. -/
theorem walk_ok {names : List Str} (h : fs.walk dir names = .ok place) :
    place = names.foldl descend dir := by
  induction names generalizing dir with
  | nil => exact (Except.ok.inj h).symm
  | cons name rest ih =>
    rw [walk] at h
    split at h
    · exact ih h
    · cases h
    · cases h

/-- A walk over directories succeeds. -/
theorem walk_eq {names : List Str}
    (h : ∀ front name back, names = front ++ name :: back →
      fs.find (front.foldl descend dir) = some .directory) :
    fs.walk dir names = .ok (names.foldl descend dir) := by
  induction names generalizing dir with
  | nil => rfl
  | cons name rest ih =>
    have hDir : fs.find dir = some .directory := h [] name rest rfl
    rw [walk, hDir]
    exact ih fun front other back hRest => h (name :: front) other back (hRest ▸ rfl)

/-- What a walk that ends has gone through. -/
theorem directory_of_walk {names : List Str} (h : fs.walk dir names = .ok place) {front back : List Str}
    {name : Str} (hNames : names = front ++ name :: back) :
    fs.find (front.foldl descend dir) = some .directory := by
  induction front generalizing dir names with
  | nil =>
    rw [hNames, List.nil_append, walk] at h
    split at h
    · assumption
    · cases h
    · cases h
  | cons first front ih =>
    rw [hNames, List.cons_append, walk] at h
    split at h
    · exact ih h rfl
    · cases h
    · cases h

end FileSystem
end Cxx
