import Wwatp.Cxx.FileSystem

/-! The place that the name of a file stands for, and the directories on the way to it. -/
namespace Cxx

section CStrings

variable {s t : Str}

theorem ne_zero_of_noNul (h : 0 ∉ s) : ∀ c ∈ s, decide (c ≠ 0) = true := by
  intro c hc
  exact decide_eq_true (fun hZero => h (by rwa [hZero] at hc))

theorem cString_of_noNul (h : 0 ∉ s) : cString s = s :=
  List.takeWhile_eq_self_iff.mpr (ne_zero_of_noNul h)

theorem cString_append (h : 0 ∉ s) (t : Str) : cString (s ++ t) = s ++ cString t :=
  List.takeWhile_append_of_pos (ne_zero_of_noNul h)

/-- Nothing behind a NUL is seen. -/
theorem cString_append_of_nul (h : 0 ∈ s) (t : Str) : cString (s ++ t) = cString s := by
  obtain ⟨front, back, rfl⟩ := List.append_of_mem h
  induction front with
  | nil => rfl
  | cons c front ih =>
    simp only [cString, List.cons_append, List.takeWhile_cons] at ih ⊢
    split_ifs
    · rw [ih (List.mem_append_right _ List.mem_cons_self)]
    · rfl

theorem nul_not_mem_cString (s : Str) : 0 ∉ cString s := by
  intro h
  have hNe := List.mem_takeWhile_imp (p := fun c : UInt8 => decide (c ≠ 0)) h
  exact absurd rfl (of_decide_eq_true hNe)

end CStrings

section Components

variable {path name s : Str}

theorem components_ne_nil (path : Str) : components path ≠ [] := List.splitOn_ne_nil _ _

theorem components_append_slash (h : 0 ∉ s) (t : Str) :
    components (s ++ chr '/' :: t) = components s ++ components t := by
  have hSlash : cString (chr '/' :: t) = chr '/' :: cString t := cString_append (s := [chr '/']) (by decide) t
  rw [components, cString_append h, hSlash, List.splitOn_append_cons_self, components, components,
    cString_of_noNul h]

theorem components_of_noSlash (h : chr '/' ∉ s) : components s = [cString s] :=
  List.splitOn_eq_singleton fun hMem => h ((List.takeWhile_sublist _).subset hMem)

/-- No component has a slash. -/
theorem slash_not_mem_of_splitOn (h : name ∈ s.splitOn (chr '/')) : chr '/' ∉ name := by
  induction s generalizing name with
  | nil =>
    rw [List.splitOn_nil, List.mem_singleton] at h
    rw [h]
    exact List.not_mem_nil
  | cons c s ih =>
    rw [List.splitOn_cons_eq_if_modifyHead] at h
    split_ifs at h with hSlash
    · rcases List.mem_cons.mp h with rfl | hRest
      · exact List.not_mem_nil
      · exact ih hRest
    · obtain ⟨first, rest, hParts⟩ := List.exists_cons_of_ne_nil (List.splitOn_ne_nil (chr '/') s)
      rw [hParts, List.modifyHead_cons] at h
      rcases List.mem_cons.mp h with rfl | hRest
      · have hNot := ih (hParts ▸ List.mem_cons_self)
        exact fun hMem => (List.mem_cons.mp hMem).elim (fun hSame => hSlash (beq_iff_eq.mpr hSame.symm)) hNot
      · exact ih (hParts ▸ List.mem_cons_of_mem first hRest)

theorem mem_of_mem_splitOn {c : UInt8} (h : name ∈ s.splitOn (chr '/')) (hc : c ∈ name) : c ∈ s := by
  induction s generalizing name with
  | nil =>
    rw [List.splitOn_nil, List.mem_singleton] at h
    exact absurd (h ▸ hc) List.not_mem_nil
  | cons d s ih =>
    rw [List.splitOn_cons_eq_if_modifyHead] at h
    split_ifs at h with hSlash
    · rcases List.mem_cons.mp h with rfl | hRest
      · exact absurd hc List.not_mem_nil
      · exact List.mem_cons_of_mem d (ih hRest hc)
    · obtain ⟨first, rest, hParts⟩ := List.exists_cons_of_ne_nil (List.splitOn_ne_nil (chr '/') s)
      rw [hParts, List.modifyHead_cons] at h
      rcases List.mem_cons.mp h with rfl | hRest
      · rcases List.mem_cons.mp hc with rfl | hMore
        · exact List.mem_cons_self
        · exact List.mem_cons_of_mem d (ih (hParts ▸ List.mem_cons_self) hMore)
      · exact List.mem_cons_of_mem d (ih (hParts ▸ List.mem_cons_of_mem first hRest) hc)

theorem mem_components (h : name ∈ components path) : chr '/' ∉ name ∧ 0 ∉ name :=
  ⟨slash_not_mem_of_splitOn h, fun hMem => nul_not_mem_cString path (mem_of_mem_splitOn h hMem)⟩

end Components

namespace FileSystem

theorem descend_nil (dir : Path) : descend dir [] = dir := if_pos (.inl rfl)

theorem descend_valid {name : Str} (h : ValidName name) (dir : Path) : descend dir name = name :: dir := by
  obtain ⟨hEmpty, hDot, hDots, -⟩ := h
  rw [descend, if_neg (not_or.mpr ⟨hEmpty, hDot⟩), if_neg hDots]

theorem foldl_descend_of_empty {names : List Str} (h : ∀ name ∈ names, name = []) (dir : Path) :
    names.foldl descend dir = dir := by
  induction names with
  | nil => rfl
  | cons name rest ih =>
    rw [List.foldl_cons, h name List.mem_cons_self, descend_nil]
    exact ih fun other hOther => h other (List.mem_cons_of_mem name hOther)

/-- Components that do not lead up end inside of the directory. -/
theorem suffix_foldl_descend {names : List Str} (h : str ".." ∉ names) (dir : Path) :
    dir <:+ names.foldl descend dir := by
  induction names generalizing dir with
  | nil => exact List.suffix_rfl
  | cons name rest ih =>
    have hStep : dir <:+ descend dir name := by
      rw [descend, if_neg (List.ne_of_not_mem_cons h).symm]
      split_ifs
      · exact List.suffix_rfl
      · exact List.suffix_cons name dir
    exact hStep.trans (ih (List.not_mem_of_not_mem_cons h) _)

/-- A component without NUL and slash is a name, or it leads to the directory or one above it. -/
theorem descend_cases {name : Str} (hSlash : chr '/' ∉ name) (hNul : 0 ∉ name) (dir : Path) :
    ValidName name ∧ descend dir name = name :: dir ∨ descend dir name <:+ dir := by
  rw [descend]
  split_ifs with hSame hParent
  · exact .inr List.suffix_rfl
  · exact .inr (List.tail_suffix dir)
  · rw [not_or] at hSame
    exact .inl ⟨⟨hSame.1, hSame.2, hParent, hSlash, hNul⟩, rfl⟩

end FileSystem

open FileSystem

/-- A directory that the walk of a name takes a step from. -/
def Crosses (cwd : Path) (path : Str) (dir : Path) : Prop :=
  ∃ front name back, components path = front ++ name :: back ∧ dir = front.foldl descend (origin cwd path)

section Places

variable {cwd : Path} {path s t : Str}

theorem origin_append (hNul : 0 ∉ s) (hNe : s ≠ []) (t : Str) : origin cwd (s ++ t) = origin cwd s := by
  rw [origin, origin, cString_append hNul, cString_of_noNul hNul, List.head?_append_of_ne_nil _ hNe]

theorem components_congr (h : cString s = cString t) : components s = components t := by
  rw [components, components, h]

/-- What is behind a NUL does not change the place. -/
theorem placeOf_congr (h : cString s = cString t) : placeOf cwd s = placeOf cwd t := by
  rw [placeOf, placeOf, components_congr h, origin, origin, h]

theorem Crosses.congr {dir : Path} (hCrosses : Crosses cwd s dir) (h : cString s = cString t) :
    Crosses cwd t dir := by
  obtain ⟨front, name, back, hNames, rfl⟩ := hCrosses
  exact ⟨front, name, back, components_congr h ▸ hNames, by rw [origin, origin, h]⟩

/-- What is behind the slash of a directory's name is walked from there. -/
theorem placeOf_append (hNul : 0 ∉ s) (hSlash : s.getLast? = some (chr '/')) (t : Str) :
    placeOf cwd (s ++ t) = (components t).foldl descend (placeOf cwd s) := by
  obtain ⟨front, rfl⟩ := List.getLast?_eq_some_iff.mp hSlash
  have hFront : 0 ∉ front := fun h => hNul (List.mem_append_left _ h)
  have hPath : front ++ [chr '/'] ++ t = front ++ chr '/' :: t := List.append_assoc front [chr '/'] t
  have hOrigin : origin cwd (front ++ [chr '/'] ++ t) = origin cwd (front ++ [chr '/']) :=
    origin_append hNul (List.append_ne_nil_of_right_ne_nil _ (List.cons_ne_nil _ _)) t
  rw [placeOf, placeOf, hOrigin, hPath, components_append_slash hFront, components_append_slash hFront,
    List.foldl_append, List.foldl_append]
  rfl

/-- The place of a file that is named behind the slash of its directory. -/
theorem placeOf_append_name (hNul : 0 ∉ s) (hSlash : s.getLast? = some (chr '/')) {name : Str}
    (hName : ValidName name) : placeOf cwd (s ++ name) = name :: placeOf cwd s := by
  obtain ⟨-, -, -, hNoSlash, hNoNul⟩ := id hName
  rw [placeOf_append hNul hSlash, components_of_noSlash hNoSlash, cString_of_noNul hNoNul]
  exact descend_valid hName _

theorem placeOf_append_slash (hNul : 0 ∉ s) (hNe : s ≠ []) : placeOf cwd (s ++ str "/") = placeOf cwd s := by
  rw [placeOf, placeOf, origin_append hNul hNe, show str "/" = chr '/' :: [] from rfl, components_append_slash hNul,
    List.foldl_append]
  rfl

/-- What is behind the last component that is not empty. -/
theorem components_eq_trimmed (path : Str) : ∃ rest, components path =
    (components path).rdropWhile (· = []) ++ rest ∧ ∀ name ∈ rest, name = [] := by
  refine ⟨(components path).rtakeWhile (· = []), List.rdropWhile_append_rtakeWhile.symm, fun name hName => ?_⟩
  have hEmpty := List.mem_rtakeWhile_imp (p := fun name : Str => decide (name = [])) hName
  exact of_decide_eq_true hEmpty

/-- Empty components at the end of a name do not change the place. -/
theorem placeOf_eq_trimmed : placeOf cwd path =
    ((components path).rdropWhile (· = [])).foldl descend (origin cwd path) := by
  obtain ⟨rest, hRest, hEmpty⟩ := components_eq_trimmed path
  calc placeOf cwd path = ((components path).rdropWhile (· = []) ++ rest).foldl descend (origin cwd path) :=
        congrArg (List.foldl descend (origin cwd path)) hRest
    _ = _ := by rw [List.foldl_append, foldl_descend_of_empty hEmpty]

variable {fs : FileSystem} {place dir : Path}

/-- A name is found exactly where the walk goes over directories. -/
theorem FileSystem.lookup_eq_ok_iff : fs.lookup cwd path = .ok place ↔ cString path ≠ [] ∧
    place = placeOf cwd path ∧ ∀ dir, Crosses cwd path dir → fs.find dir = some .directory := by
  rw [lookup]
  split_ifs with hEmpty
  · exact ⟨nofun, fun h => absurd hEmpty h.1⟩
  constructor
  · refine fun h => ⟨hEmpty, walk_ok h, ?_⟩
    rintro dir ⟨front, name, back, hNames, rfl⟩
    exact directory_of_walk h hNames
  · rintro ⟨-, rfl, hCrosses⟩
    exact walk_eq fun front name back hNames => hCrosses _ ⟨front, name, back, hNames, rfl⟩

/-- Above a directory there are directories. -/
theorem FileSystem.directory_above (h : fs.find dir = some .directory) (hAbove : place <:+ dir) :
    fs.find place = some .directory := by
  obtain ⟨below, rfl⟩ := hAbove
  cases below with
  | nil => exact h
  | cons name below => exact directory_of_suffix h (List.cons_ne_nil _ _)

/-- What is found and is no directory has a name of its own in a directory. -/
theorem FileSystem.entry_of_lookup (h : fs.lookup cwd path = .ok place) (hNot : fs.find place ≠ some .directory) :
    ∃ name dir, place = name :: dir ∧ ValidName name ∧ Crosses cwd path dir ∧
      fs.find dir = some .directory := by
  obtain ⟨-, rfl, hCrosses⟩ := lookup_eq_ok_iff.mp h
  obtain ⟨front, name, hNames⟩ := (List.eq_nil_or_concat' (components path)).resolve_left (components_ne_nil path)
  have hName : name ∈ components path := hNames ▸ List.mem_append_right _ List.mem_cons_self
  have hLast : Crosses cwd path (front.foldl descend (origin cwd path)) := ⟨front, name, [], hNames, rfl⟩
  have hPlace : placeOf cwd path = descend (front.foldl descend (origin cwd path)) name := by
    rw [placeOf, hNames, List.foldl_append]
    rfl
  have hDir := hCrosses _ hLast
  rw [hPlace] at hNot ⊢
  rcases descend_cases (mem_components hName).1 (mem_components hName).2 _ with ⟨hValid, hDescend⟩ | hAbove
  · exact ⟨name, _, hDescend, hValid, hLast, hDir⟩
  · exact absurd (directory_above hDir hAbove) hNot

/-- A name that is found stays found while directories stay. -/
theorem FileSystem.lookup_mono {other : FileSystem}
    (h : ∀ dir, fs.find dir = some .directory → other.find dir = some .directory)
    (hLookup : fs.lookup cwd path = .ok place) : other.lookup cwd path = .ok place := by
  obtain ⟨hNe, hPlace, hCrosses⟩ := lookup_eq_ok_iff.mp hLookup
  exact lookup_eq_ok_iff.mpr ⟨hNe, hPlace, fun dir hDir => h dir (hCrosses dir hDir)⟩

theorem FileSystem.openRead_eq_some_iff {inode : Inode} : fs.openRead cwd path = some inode ↔
    fs.lookup cwd path = .ok (placeOf cwd path) ∧ fs.find (placeOf cwd path) = some inode := by
  rw [openRead]
  split
  · next place hLookup =>
    obtain ⟨-, rfl, -⟩ := lookup_eq_ok_iff.mp hLookup
    rw [hLookup]
    exact ⟨fun h => ⟨rfl, h⟩, fun h => h.2⟩
  · next errno hLookup =>
    rw [hLookup]
    exact ⟨nofun, fun h => nomatch h.1⟩

/-- A file can be made where a name that is found is no directory. -/
theorem FileSystem.puttable_of_lookup (hLookup : fs.lookup cwd path = .ok place)
    (hNot : fs.find place ≠ some .directory) (bytes : List UInt8) : fs.Puttable place (.file bytes) := by
  obtain ⟨name, dir, rfl, hName, -, hDir⟩ := entry_of_lookup hLookup hNot
  exact ⟨name, dir, rfl, hName, hDir, fun h => absurd h hNot⟩

/-- What is a directory stays one when a file is written. -/
theorem FileSystem.directory_put {bytes : List UInt8} (hPut : fs.Puttable place (.file bytes))
    (hNot : fs.find place ≠ some .directory) (h : fs.find dir = some .directory) :
    (fs.put place (.file bytes)).find dir = some .directory := by
  rw [find_put hPut, if_neg, h]
  rintro rfl
  exact hNot h

end Places

/-- No call on the name has an effect: it ends with a dot, or it stands for a directory that the
walk has gone below. -/
def Stuck (cwd : Path) (path : Str) : Prop :=
  ((components path).rdropWhile (· = [])).getLast? = some (str ".") ∨
    ∃ dir, Crosses cwd path dir ∧ dir ≠ placeOf cwd path ∧ placeOf cwd path <:+ dir

section Calls

variable {cwd : Path} {path : Str} {I : Disk → Prop} {d : Disk} {place : Path}

theorem Stuck.congr {s t : Str} (hStuck : Stuck cwd s) (h : cString s = cString t) : Stuck cwd t := by
  rcases hStuck with hDot | ⟨dir, hCrosses, hNe, hAbove⟩
  · exact .inl (by rwa [← components_congr h])
  · rw [placeOf_congr h] at hNe hAbove
    exact .inr ⟨dir, hCrosses.congr h, hNe, hAbove⟩

/-- Where a walk goes below the place that it ends at, an entry of that place is left. -/
theorem names_ne_nil_of_above {fs : FileSystem} {dir : Path} (hDir : fs.find dir = some .directory)
    (hNe : dir ≠ place) (hAbove : place <:+ dir) : fs.names place ≠ [] := by
  obtain ⟨below, rfl⟩ := hAbove
  obtain ⟨front, name, rfl⟩ := (List.eq_nil_or_concat' below).resolve_left fun h => hNe (by rw [h]; rfl)
  have hEntry : (fs.find (name :: place)).isSome := by
    rw [List.append_assoc] at hDir
    exact Option.isSome_of_eq_some (directory_above hDir (List.suffix_append front (name :: place)))
  exact List.ne_nil_of_mem (mem_names_iff.mpr hEntry)

/-- The directories that the walk without the empty components at the end takes its steps from. -/
theorem Crosses.trimmed {dir : Path} (h : Crosses cwd path dir) (hNe : dir ≠ placeOf cwd path) :
    ∃ front name back, (components path).rdropWhile (· = []) = front ++ name :: back ∧
      dir = front.foldl descend (origin cwd path) := by
  obtain ⟨front, name, back, hNames, rfl⟩ := h
  have hPrefix : front <+: components path := ⟨name :: back, hNames.symm⟩
  rcases List.prefix_or_prefix_of_prefix hPrefix (List.rdropWhile_prefix (· = []) (l := components path))
    with ⟨rest, hRest⟩ | ⟨rest, hRest⟩
  · cases rest with
    | nil =>
      rw [List.append_nil] at hRest
      exact absurd (by rw [placeOf_eq_trimmed, hRest]) hNe
    | cons other rest => exact ⟨front, other, rest, hRest.symm, rfl⟩
  · obtain ⟨empties, hEmpties, hEmpty⟩ := components_eq_trimmed path
    have hSame : rest ++ name :: back = empties := by
      refine (List.append_right_inj ((components path).rdropWhile (· = []))).mp ?_
      rw [← hEmpties, ← List.append_assoc, hRest, hNames]
    have hNone : ∀ other ∈ rest, other = [] := fun other hOther =>
      hEmpty other (hSame ▸ List.mem_append_left _ hOther)
    rw [← hRest, List.foldl_append, foldl_descend_of_empty hNone, ← placeOf_eq_trimmed] at hNe
    exact absurd rfl hNe

/-- A name that is found is found without the empty components at its end. -/
theorem walk_trimmed {fs : FileSystem} (h : fs.lookup cwd path = .ok place) :
    fs.walk (origin cwd path) ((components path).rdropWhile (· = [])) = .ok place := by
  obtain ⟨-, rfl, hCrosses⟩ := lookup_eq_ok_iff.mp h
  obtain ⟨rest, hRest, -⟩ := components_eq_trimmed path
  rw [placeOf_eq_trimmed]
  refine walk_eq fun front name back hNames => hCrosses _ ⟨front, name, back ++ rest, ?_, rfl⟩
  rw [hNames, List.append_assoc, List.cons_append] at hRest
  exact hRest

/-- What a stuck name is found to be. -/
theorem Stuck.directory {fs : FileSystem} (hStuck : Stuck cwd path)
    (hWalk : fs.walk (origin cwd path) ((components path).rdropWhile (· = [])) = .ok place) :
    fs.find place = some .directory ∧
      (((components path).rdropWhile (· = [])).getLast? = some (str ".") ∨ fs.names place ≠ []) := by
  have hPlace : place = placeOf cwd path := (walk_ok hWalk).trans placeOf_eq_trimmed.symm
  rcases hStuck with hDot | ⟨dir, hCrosses, hNe, hAbove⟩
  · refine ⟨?_, .inl hDot⟩
    obtain ⟨front, hFront⟩ := List.getLast?_eq_some_iff.mp hDot
    have hDir := directory_of_walk hWalk (show _ = front ++ str "." :: [] from hFront)
    rw [walk_ok hWalk, hFront, List.foldl_append]
    exact hDir
  · obtain ⟨front, name, back, hNames, hFront⟩ := hCrosses.trimmed hNe
    have hDir := directory_of_walk hWalk hNames
    rw [← hFront] at hDir
    rw [← hPlace] at hNe hAbove
    exact ⟨directory_above hDir hAbove, .inr (names_ne_nil_of_above hDir hNe hAbove)⟩

theorem Stuck.removeDirectory (hStuck : Stuck cwd path) (h : d.files.lookup cwd path = .ok place) :
    (d.removeDirectory path place).2 = d := by
  rw [Disk.removeDirectory]
  split_ifs with hDot hRoot hNames
  · rfl
  · rfl
  · rfl
  · rfl
  · exact absurd ((hStuck.directory (walk_trimmed h)).2.resolve_left hDot) hNames

theorem Stuck.mkdir (hStuck : Stuck cwd path) : (d.mkdir cwd path).2 = d := by
  rw [Disk.mkdir]
  split_ifs
  · rfl
  split
  · rfl
  next place hWalk =>
  rw [(hStuck.directory hWalk).1]
  rfl

theorem Stuck.writeFile (hStuck : Stuck cwd path) (bytes : List UInt8) : (d.writeFile cwd path bytes).2 = d := by
  rw [Disk.writeFile]
  split
  · rfl
  next place hPlace =>
  rw [if_pos (hStuck.directory (walk_trimmed hPlace)).1]

theorem Stuck.rmdir (hStuck : Stuck cwd path) : (d.rmdir cwd path).2 = d := by
  rw [Disk.rmdir]
  split
  · rfl
  next place hPlace =>
  rw [(hStuck.directory (walk_trimmed hPlace)).1]
  exact hStuck.removeDirectory hPlace

theorem Stuck.remove (hStuck : Stuck cwd path) : (d.remove cwd path).2 = d := by
  rw [Disk.remove]
  split
  · rfl
  next place hPlace =>
  rw [(hStuck.directory (walk_trimmed hPlace)).1]
  exact hStuck.removeDirectory hPlace

theorem writeFile_ok {bytes : List UInt8} {other : Disk} (h : d.writeFile cwd path bytes = (.ok (), other)) :
    d.files.lookup cwd path = .ok (placeOf cwd path) ∧ d.files.find (placeOf cwd path) ≠ some .directory ∧
      other = d.put (placeOf cwd path) (.file bytes) := by
  rw [Disk.writeFile] at h
  split at h
  · cases h
  next place hLookup =>
  obtain ⟨-, rfl, -⟩ := lookup_eq_ok_iff.mp hLookup
  split_ifs at h with hDirectory hFrozen
  · cases h
  · cases h
  · exact ⟨hLookup, hDirectory, (Prod.mk.inj h).2.symm⟩

theorem writeFile_error {bytes : List UInt8} {errno : Errno} {other : Disk}
    (h : d.writeFile cwd path bytes = (.error errno, other)) : other = d := by
  rw [Disk.writeFile] at h
  split at h
  · exact (Prod.mk.inj h).2.symm
  split_ifs at h
  · exact (Prod.mk.inj h).2.symm
  · exact (Prod.mk.inj h).2.symm
  · cases h

/-- After a file has been written, it can be read, and what could be read as a file still can. -/
theorem openRead_of_writeFile {bytes : List UInt8} {other : Disk}
    (h : d.writeFile cwd path bytes = (.ok (), other)) :
    other.files.openRead cwd path = some (.file bytes) ∧
      ∀ name, (∃ old, d.files.openRead cwd name = some (.file old)) →
        ∃ new, other.files.openRead cwd name = some (.file new) := by
  obtain ⟨hLookup, hNot, rfl⟩ := writeFile_ok h
  have hPut := puttable_of_lookup hLookup hNot bytes
  have hMono : ∀ dir, d.files.find dir = some .directory →
      (d.files.put (placeOf cwd path) (.file bytes)).find dir = some .directory :=
    fun dir => directory_put hPut hNot
  refine ⟨openRead_eq_some_iff.mpr ⟨lookup_mono hMono hLookup, ?_⟩, ?_⟩
  · exact (find_put hPut).trans (if_pos rfl)
  · rintro name ⟨old, hOld⟩
    obtain ⟨hName, hFile⟩ := openRead_eq_some_iff.mp hOld
    by_cases hSame : placeOf cwd name = placeOf cwd path
    · refine ⟨bytes, openRead_eq_some_iff.mpr ⟨lookup_mono hMono hName, ?_⟩⟩
      exact (find_put hPut).trans (if_pos hSame)
    · refine ⟨old, openRead_eq_some_iff.mpr ⟨lookup_mono hMono hName, ?_⟩⟩
      exact (find_put hPut).trans ((if_neg hSame).trans hFile)

/-- An invariant does not depend on the entry at a place. -/
def Steady (I : Disk → Prop) (place : Path) : Prop :=
  ∀ d, I d → (∀ inode, I (d.put place inode)) ∧ I (d.erase place)

/-- A call on the name keeps the invariant, or it has no effect. -/
def Harmless (I : Disk → Prop) (cwd : Path) (path : Str) : Prop := Steady I (placeOf cwd path) ∨ Stuck cwd path

theorem Harmless.congr {s t : Str} (h : Harmless I cwd s) (hSame : cString s = cString t) : Harmless I cwd t :=
  h.imp (placeOf_congr hSame ▸ ·) (·.congr hSame)

/-- Everything that has been touched is in a set. -/
def Disk.Within (S : Path → Prop) (d : Disk) : Prop := ∀ place ∈ d.touched, S place

theorem steady_within {S : Path → Prop} (h : S place) : Steady (Disk.Within S) place := by
  have hTouch : ∀ d other : Disk, d.Within S → other.touched = d.touched ++ [place] → other.Within S := by
    intro d other hWithin hTouched p hp
    rw [hTouched, List.mem_append, List.mem_singleton] at hp
    exact hp.elim (hWithin p) (fun hSame => hSame ▸ h)
  exact fun d hWithin => ⟨fun _ => hTouch d _ hWithin rfl, hTouch d _ hWithin rfl⟩

theorem Steady.removeDirectory (h : Steady I place) (hd : I d) : I (d.removeDirectory path place).2 := by
  rw [Disk.removeDirectory]
  split_ifs
  · exact hd
  · exact hd
  · exact hd
  · exact hd
  · exact (h d hd).2

open Effectful

theorem keeps_mkdir (h : Harmless I cwd path) : Keeps I (call (Disk.mkdir cwd path)) := by
  intro d hd
  change I (d.mkdir cwd path).2
  rcases h with hPlace | hStuck
  · rw [Disk.mkdir]
    split_ifs
    · exact hd
    split
    · exact hd
    next place hWalk =>
    rw [placeOf_eq_trimmed, ← walk_ok hWalk] at hPlace
    split_ifs
    · exact hd
    · exact hd
    · exact (hPlace d hd).1 .directory
  · rwa [hStuck.mkdir]

theorem keeps_writeFile (h : Harmless I cwd path) (bytes : List UInt8) :
    Keeps I (call (Disk.writeFile cwd path bytes)) := by
  intro d hd
  change I (d.writeFile cwd path bytes).2
  rcases h with hPlace | hStuck
  · rw [Disk.writeFile]
    split
    · exact hd
    next place hLookup =>
    obtain ⟨-, rfl, -⟩ := lookup_eq_ok_iff.mp hLookup
    split_ifs
    · exact hd
    · exact hd
    · exact (hPlace d hd).1 (.file bytes)
  · rwa [hStuck.writeFile]

theorem keeps_rmdir (h : Harmless I cwd path) : Keeps I (call (Disk.rmdir cwd path)) := by
  intro d hd
  change I (d.rmdir cwd path).2
  rcases h with hPlace | hStuck
  · rw [Disk.rmdir]
    split
    · exact hd
    next place hLookup =>
    obtain ⟨-, rfl, -⟩ := lookup_eq_ok_iff.mp hLookup
    split
    · exact hd
    · exact hd
    · exact hPlace.removeDirectory hd
  · rwa [hStuck.rmdir]

theorem keeps_remove (h : Harmless I cwd path) : Keeps I (call (Disk.remove cwd path)) := by
  intro d hd
  change I (d.remove cwd path).2
  rcases h with hPlace | hStuck
  · rw [Disk.remove]
    split
    · exact hd
    next place hLookup =>
    obtain ⟨-, rfl, -⟩ := lookup_eq_ok_iff.mp hLookup
    split
    · exact hd
    · split_ifs
      · exact hd
      · exact (hPlace d hd).2
    · exact hPlace.removeDirectory hd
  · rwa [hStuck.remove]

end Calls

end Cxx
