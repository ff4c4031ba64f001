import Wwatp.File.FileBackend
import Wwatp.File.NameParts

/-! The operations of the file backend and the directory that it is given: which labels and nodes
let them make, write or remove something outside of it. -/
namespace Wwatp

open Cxx Effectful

namespace FileBackend

variable (b : FileBackend)

/-- An operation of the backend that changes files. -/
inductive Operation
  | upsertNode (nodes : List TreeNode)
  | deleteNode (labelRule : Str)
  | applyTransaction (transaction : Transaction)

/-- What the operation does to the files. -/
def Operation.run : Operation → Effectful Disk Unit
  | .upsertNode nodes => do let _ ← b.upsertNode nodes
  | .deleteNode labelRule => do let _ ← b.deleteNode labelRule
  | .applyTransaction transaction => b.applyTransaction transaction

/-- A change writes the node or deletes its label. -/
def ChangeOf (node : TreeNode) (change : NewNodeVersion) : Prop :=
  match change.node with
  | some other => other = node
  | none => change.labelRule = node.labelRule

/-- The operation writes no node but this one, and deletes no label but that of the node. -/
def Operation.About (node : TreeNode) : Operation → Prop
  | .upsertNode nodes => ∀ other ∈ nodes, other = node
  | .deleteNode labelRule => labelRule = node.labelRule
  | .applyTransaction transaction =>
    ∀ sub ∈ transaction, ∀ change ∈ sub.parent :: sub.descendants, ChangeOf node change

/-- A place in the directory of the base path, or that directory itself. -/
def Inside (place : Path) : Prop := placeOf b.cwd b.basePath <:+ place

/-- The content files that are opened for writing: up to the first one whose value is missing. -/
def contentPaths : List (PropertyInfo × Str) → SharedSpan → List Str
  | [], _ => []
  | (info, fileName) :: rest, remaining =>
    fileName :: match b.takeValue info.1 remaining with
      | .error _ => []
      | .ok (_, behind) => contentPaths rest behind

/-- The files that are opened for writing when the node is written. -/
def openedFiles (node : TreeNode) : List Str :=
  getNodeFileName b.basePath node.labelRule :: match node.text with
    | .error _ => []
    | .ok _ =>
      let fileNames := getContentFileNames b.basePath node.labelRule node.propertyInfos
      b.contentPaths ((parsePropertyInfos fileNames).zip fileNames) node.propertyData

/-- The names stand for files. -/
def Holds (fs : FileSystem) (fileNames : List Str) : Prop :=
  ∀ fileName ∈ fileNames, ∃ bytes, fs.openRead b.cwd fileName = some (.file bytes)

/-- The label, whose names are all read in full, and the node stay in the base directory: the
label's directory and that of its parent are there, and so is each file of the node that can be
opened together with those before it. -/
structure Stays (node : TreeNode) : Prop where
  directory : b.Inside (placeOf b.cwd (getNodeDirectoryPath b.basePath node.labelRule))
  parent : ∀ path, getNodeParentPath b.basePath node.labelRule = .ok path → b.Inside (placeOf b.cwd path)
  opened : ∀ fs front fileName back, b.openedFiles node = front ++ fileName :: back →
    b.Holds fs (front ++ [fileName]) → b.Inside (placeOf b.cwd fileName)

/-- Where a label has a NUL byte, all names made from it end there. -/
def Contained (node : TreeNode) : Prop :=
  if 0 ∈ node.labelRule then
    b.Inside (placeOf b.cwd (b.basePath ++ node.labelRule)) ∨ Stuck b.cwd (b.basePath ++ node.labelRule)
  else b.Stays node

variable {b : FileBackend}

theorem basePath_ne_nil (b : FileBackend) : b.basePath ≠ [] := by
  intro h
  have hSlash := b.endsWithSlash
  rw [h] at hSlash
  cases hSlash

theorem Inside.entry {place : Path} (h : b.Inside place) (name : Str) : b.Inside (name :: place) :=
  h.trans (List.suffix_cons name place)

/-- A label without dots stays in the base directory. -/
theorem inside_of_noDot {labelRule : Str} (h : chr '.' ∉ labelRule) :
    b.Inside (placeOf b.cwd (getNodeDirectoryPath b.basePath labelRule)) := by
  obtain ⟨tail, hDir, hTail⟩ := getNodeDirectoryPath_eq b.basePath labelRule
  have hDot : chr '.' ∉ labelRule ++ tail := fun hMem =>
    (List.mem_append.mp hMem).elim h fun hIn => absurd (hTail hIn) (by decide)
  rw [List.append_assoc] at hDir
  rw [hDir, Inside, placeOf_append b.noNul b.endsWithSlash]
  refine FileSystem.suffix_foldl_descend (fun hUp => hDot ?_) _
  exact (List.takeWhile_subset _) (mem_of_mem_splitOn hUp (by decide))

/-- A name that an operation may use: it is not empty, and it stands for a place in the base
directory, or a NUL byte ends it where no call has an effect outside. -/
structure Sound (b : FileBackend) (path : Str) : Prop where
  nonempty : path ≠ []
  inside : 0 ∉ path → b.Inside (placeOf b.cwd path)
  harmless : Harmless (Disk.Within b.Inside) b.cwd path

theorem Sound.of_inside {path : Str} (hNe : path ≠ []) (h : b.Inside (placeOf b.cwd path)) : Sound b path :=
  ⟨hNe, fun _ => h, .inl (steady_within h)⟩

/-- An entry of a directory is sound if the directory is. -/
theorem Sound.entry {path name : Str} (h : Sound b path) (hName : ValidName name) :
    Sound b (path ++ str "/" ++ name) := by
  have hNe : path ++ str "/" ++ name ≠ [] := List.append_ne_nil_of_left_ne_nil
    (List.append_ne_nil_of_left_ne_nil h.nonempty _) _
  by_cases hNul : 0 ∈ path
  · have hSame : cString path = cString (path ++ str "/" ++ name) := by
      rw [List.append_assoc, cString_append_of_nul hNul]
    refine ⟨hNe, fun hNot => absurd ?_ hNot, h.harmless.congr hSame⟩
    exact List.mem_append_left _ (List.mem_append_left _ hNul)
  · have hDirNul : 0 ∉ path ++ str "/" := fun hMem => (List.mem_append.mp hMem).elim hNul (by decide)
    refine .of_inside hNe ?_
    rw [placeOf_append_name hDirNul (List.getLast?_concat ..) hName, placeOf_append_slash hNul h.nonempty]
    exact (h.inside hNul).entry name

theorem readdir_valid {order : ReaddirOrder} {fs : FileSystem} {cwd : Path} {path : Str}
    {entries : List (Str × Bool)} (h : fs.readdir order cwd path = .ok entries) :
    ∀ entry ∈ entries, ValidName entry.1 := by
  rw [FileSystem.readdir] at h
  split at h
  · cases h
  split at h
  · cases h
  · cases h
  next place _ _ _ =>
  obtain rfl := Except.ok.inj h
  intro entry hEntry
  obtain ⟨name, hName, rfl⟩ := List.mem_map.mp hEntry
  have hIn := FileSystem.mem_names.mp ((order.perm fs place).mem_iff.mp hName)
  exact (fs.entry name place hIn).1

section Invariants

variable {I : Disk → Prop}

/-- The removal of a directory keeps an invariant that calls on the names below it keep. -/
theorem keeps_deleteDirectoryRecursively {P : Str → Prop}
    (hEntry : ∀ path name, P path → ValidName name → P (path ++ str "/" ++ name))
    (hHarmless : ∀ path, P path → Harmless I b.cwd path) (depth : ℕ) {path : Str} (h : P path) :
    Keeps I (b.deleteDirectoryRecursively depth path) := by
  induction depth generalizing path with
  | zero => exact keeps_raise _
  | succ depth ih =>
    rw [deleteDirectoryRecursively]
    split_ifs
    · exact keeps_pure false
    refine keeps_bind (keeps_look _) fun d result hResult => ?_
    cases result with
    | error errno => exact keeps_pure _
    | ok entries =>
      have hValid := readdir_valid (Except.ok.inj hResult)
      refine keeps_bind (keeps_forAll fun entry hMem => ?_) fun _ removed _ => ?_
      · have hBelow := hEntry path entry.1 h (hValid entry hMem)
        dsimp only
        split_ifs
        · exact ih hBelow
        · exact keeps_pure false
        · exact keeps_bind (keeps_remove (hHarmless _ hBelow)) fun _ _ _ => keeps_pure _
      · cases removed
        · exact keeps_pure false
        · exact keeps_bind (keeps_rmdir (hHarmless _ h)) fun _ _ _ => keeps_pure _

theorem keeps_removeFile {fileName : Str} (h : Harmless I b.cwd fileName) : Keeps I (b.removeFile fileName) := by
  refine keeps_bind (keeps_remove h) fun _ result _ => ?_
  cases result <;> exact keeps_pure _

theorem keeps_removeContentFiles {fileNames : List Str} (success : Bool)
    (h : ∀ fileName ∈ fileNames, Harmless I b.cwd fileName) :
    Keeps I (b.removeContentFiles fileNames success) := by
  induction fileNames generalizing success with
  | nil => exact keeps_pure success
  | cons fileName rest ih =>
    have hRest := fun success => ih success fun other hOther => h other (List.mem_cons_of_mem fileName hOther)
    rw [removeContentFiles]
    split_ifs
    · exact hRest success
    · exact keeps_bind (keeps_removeFile (h fileName List.mem_cons_self)) fun _ _ _ => hRest _

theorem keeps_writeStream {fileName : Str} (h : Harmless I b.cwd fileName) (what : Str) (bytes : List UInt8)
    (ends : Outcome Unit) : Keeps I (b.writeStream fileName what bytes ends) := by
  refine keeps_bind (keeps_writeFile h bytes) fun _ result _ => ?_
  cases result
  · exact keeps_raise _
  · exact keeps_inspect _

theorem writeContentFiles_error {info : PropertyInfo} {fileName : Str} {rest : List (PropertyInfo × Str)}
    {remaining : SharedSpan} {fault : Fault} (h : b.takeValue info.1 remaining = .error fault) :
    b.writeContentFiles ((info, fileName) :: rest) remaining =
      b.writeStream fileName (str "content") [] (.error fault) := by
  rw [writeContentFiles, h]

theorem writeContentFiles_ok {info : PropertyInfo} {fileName text : Str} {rest : List (PropertyInfo × Str)}
    {remaining behind : SharedSpan} (h : b.takeValue info.1 remaining = .ok (text, behind)) :
    b.writeContentFiles ((info, fileName) :: rest) remaining =
      (b.writeStream fileName (str "content") text (.ok ()) >>= fun _ => b.writeContentFiles rest behind) := by
  rw [writeContentFiles, h]

theorem keeps_writeContentFiles {pairs : List (PropertyInfo × Str)} (remaining : SharedSpan)
    (h : ∀ pair ∈ pairs, Harmless I b.cwd pair.2) : Keeps I (b.writeContentFiles pairs remaining) := by
  induction pairs generalizing remaining with
  | nil => exact keeps_pure ()
  | cons pair rest ih =>
    have hFirst := h pair List.mem_cons_self
    cases hValue : b.takeValue pair.1.1 remaining with
    | error fault =>
      rw [writeContentFiles_error hValue]
      exact keeps_writeStream hFirst _ _ _
    | ok value =>
      rw [writeContentFiles_ok hValue]
      refine keeps_bind (keeps_writeStream hFirst _ _ _) fun _ _ _ => ?_
      exact ih _ fun other hOther => h other (List.mem_cons_of_mem pair hOther)

/-- The directories that are made are that of the label and those of labels without dots. -/
theorem keeps_createNodeDirectory {labelRule : Str}
    (h : ∀ other, other = labelRule ∨ chr '.' ∉ other →
      Keeps I (call (Disk.mkdir b.cwd (getNodeDirectoryPath b.basePath other)))) :
    Keeps I (b.createNodeDirectory labelRule) := by
  induction hLength : labelRule.length using Nat.strong_induction_on generalizing labelRule with
  | _ length ih =>
    rw [createNodeDirectory]
    split_ifs with hRoot
    · exact keeps_pure true
    split
    · exact keeps_raise _
    next parent hParent =>
    have hShorter := length_parentLabelRule hParent fun hEmpty => hRoot (.inl hEmpty)
    have hNoDot := parentLabelRule_noDot b.endsWithSlash hParent
    refine keeps_bind (ih _ (hLength ▸ hShorter) (fun other hOther => h other ?_) rfl) fun _ _ _ => ?_
    · exact .inr (hOther.elim (· ▸ hNoDot) id)
    · refine keeps_bind (h labelRule (.inl rfl)) fun _ result _ => ?_
      cases result <;> exact keeps_pure _

end Invariants

/-- What a content file of a label is found as. -/
theorem mem_readContentFileNames {labelRule fileName : Str} {fs : FileSystem} {fileNames : List Str}
    (h : b.readContentFileNames labelRule fs = .ok fileNames) (hMem : fileName ∈ fileNames) :
    ∃ nodeDir nodeName entry, getNodeParentPath b.basePath labelRule = .ok nodeDir ∧
      getNodeName b.basePath labelRule = .ok nodeName ∧ fileName = nodeDir ++ entry ∧ ValidName entry ∧
      isContentFile nodeName entry = true := by
  obtain ⟨nodeDir, hDir, h⟩ := Outcome.bind_eq_ok.mp h
  obtain ⟨nodeName, hName, h⟩ := Outcome.bind_eq_ok.mp h
  split at h
  · rw [← Except.ok.inj h] at hMem
    exact absurd hMem List.not_mem_nil
  next entries hEntries =>
  rw [← Except.ok.inj h, List.mem_mergeSort] at hMem
  obtain ⟨entry, hEntry, rfl⟩ := List.mem_map.mp hMem
  obtain ⟨hEntry, hContent⟩ := List.mem_filter.mp hEntry
  obtain ⟨found, hFound, rfl⟩ := List.mem_map.mp hEntry
  exact ⟨nodeDir, nodeName, found.1, hDir, hName, rfl, readdir_valid hEntries found hFound, hContent⟩

section Names

variable {node : TreeNode}

/-- Whatever is put behind a label with a NUL byte, a call on the name is harmless. -/
theorem Contained.harmless_of_nul (h : b.Contained node) (hNul : 0 ∈ node.labelRule) (tail : Str) :
    Harmless (Disk.Within b.Inside) b.cwd (b.basePath ++ node.labelRule ++ tail) := by
  rw [Contained, if_pos hNul] at h
  have hLabel : Harmless (Disk.Within b.Inside) b.cwd (b.basePath ++ node.labelRule) := h.imp_left steady_within
  exact hLabel.congr (cString_append_of_nul (List.mem_append_right _ hNul) tail).symm

theorem Contained.stays (h : b.Contained node) (hNul : 0 ∉ node.labelRule) : b.Stays node := by
  rwa [Contained, if_neg hNul] at h

theorem Contained.directory (h : b.Contained node) :
    Sound b (getNodeDirectoryPath b.basePath node.labelRule) := by
  obtain ⟨tail, hDir, -⟩ := getNodeDirectoryPath_eq b.basePath node.labelRule
  have hNe : b.basePath ++ node.labelRule ++ tail ≠ [] :=
    List.append_ne_nil_of_left_ne_nil (List.append_ne_nil_of_left_ne_nil b.basePath_ne_nil _) _
  by_cases hNul : 0 ∈ node.labelRule
  · rw [hDir]
    refine ⟨hNe, fun hNot => absurd ?_ hNot, h.harmless_of_nul hNul tail⟩
    exact List.mem_append_left _ (List.mem_append_right _ hNul)
  · have hInside := (h.stays hNul).directory
    rw [hDir] at hInside ⊢
    exact .of_inside hNe hInside

/-- The directory of the files named by a label and an extension. -/
theorem Contained.front (h : b.Contained node) (hNul : 0 ∉ node.labelRule) :
    ∃ front last, b.basePath ++ node.labelRule = front ++ last ∧ front.getLast? = some (chr '/') ∧
      chr '/' ∉ last ∧ 0 ∉ front ∧ 0 ∉ last ∧ b.Inside (placeOf b.cwd front) := by
  obtain ⟨front, last, hPath, hSlash, hLast, hFront⟩ := labelPath_split b.endsWithSlash node.labelRule
  have hNoNul : 0 ∉ front ++ last := by
    rw [← hPath]
    exact fun hMem => (List.mem_append.mp hMem).elim b.noNul hNul
  rw [List.mem_append, not_or] at hNoNul
  refine ⟨front, last, hPath, hSlash, hLast, hNoNul.1, hNoNul.2, ?_⟩
  rcases hFront with rfl | hParent
  · exact (h.stays hNul).directory
  · exact (h.stays hNul).parent front hParent

/-- A file named by the label and an extension. -/
theorem Contained.extension (h : b.Contained node) {tail : Str} (hSlash : chr '/' ∉ tail) (hNul : 0 ∉ tail)
    (hLength : 3 ≤ tail.length) : Harmless (Disk.Within b.Inside) b.cwd (b.basePath ++ node.labelRule ++ tail) := by
  by_cases hLabel : 0 ∈ node.labelRule
  · exact h.harmless_of_nul hLabel tail
  obtain ⟨front, last, hPath, hFront, hLast, hFrontNul, hLastNul, hInside⟩ := h.front hLabel
  have hLong : ∀ short : Str, short.length < 3 → last ++ tail ≠ short := by
    rintro short hShort rfl
    rw [List.length_append] at hShort
    omega
  have hValid : ValidName (last ++ tail) := by
    refine ⟨hLong _ (by decide), hLong _ (by decide), hLong _ (by decide), ?_, ?_⟩
    · exact fun hMem => (List.mem_append.mp hMem).elim hLast hSlash
    · exact fun hMem => (List.mem_append.mp hMem).elim hLastNul hNul
  rw [hPath, List.append_assoc]
  refine .inl (steady_within ?_)
  rw [placeOf_append_name hFrontNul hFront hValid]
  exact hInside.entry _

/-- What a NUL byte in the label leaves of the name of a content file. -/
theorem cString_contentFile {labelRule nodeDir nodeName entry : Str} (hNul : 0 ∈ labelRule)
    (hDir : getNodeParentPath b.basePath labelRule = .ok nodeDir)
    (hName : getNodeName b.basePath labelRule = .ok nodeName) (hValid : ValidName entry)
    (hContent : isContentFile nodeName entry = true) :
    cString (nodeDir ++ entry) = cString (b.basePath ++ labelRule) := by
  obtain ⟨tail, hTail, -⟩ := getNodeDirectoryPath_eq b.basePath labelRule
  have hPath := getNodeParentPath_append b.endsWithSlash hDir hName (List.ne_nil_of_mem hNul)
  have hIn : 0 ∈ nodeDir ++ nodeName := by
    have hMem : 0 ∈ getNodeDirectoryPath b.basePath labelRule := by
      rw [hTail]
      exact List.mem_append_left _ (List.mem_append_right _ hNul)
    rw [hPath] at hMem
    exact (List.mem_append.mp hMem).resolve_right (by decide)
  have hWhole : cString (b.basePath ++ labelRule) = cString (nodeDir ++ nodeName) := by
    rw [← cString_append_of_nul (List.mem_append_right _ hNul) tail, ← hTail, hPath, cString_append_of_nul hIn]
  rw [hWhole]
  by_cases hDirNul : 0 ∈ nodeDir
  · rw [cString_append_of_nul hDirNul, cString_append_of_nul hDirNul]
  · have hNameNul := (List.mem_append.mp hIn).resolve_left hDirNul
    rw [isContentFile, if_pos hNameNul, Bool.and_eq_true, Bool.and_eq_true] at hContent
    rw [cString_append hDirNul, cString_append hDirNul, cString_of_noNul hValid.2.2.2.2]
    exact congrArg (nodeDir ++ ·) (of_decide_eq_true hContent.1.1)

/-- A content file that is found for the label. -/
theorem Contained.contentFile (h : b.Contained node) {fs : FileSystem} {fileNames : List Str} {fileName : Str}
    (hNames : b.readContentFileNames node.labelRule fs = .ok fileNames) (hMem : fileName ∈ fileNames) :
    Harmless (Disk.Within b.Inside) b.cwd fileName := by
  obtain ⟨nodeDir, nodeName, entry, hDir, hName, rfl, hValid, hContent⟩ := mem_readContentFileNames hNames hMem
  by_cases hLabel : 0 ∈ node.labelRule
  · have hHarmless := h.harmless_of_nul hLabel []
    rw [List.append_nil] at hHarmless
    exact hHarmless.congr (cString_contentFile hLabel hDir hName hValid hContent).symm
  · have hDirNul : 0 ∉ nodeDir := fun hMem =>
      (List.mem_append.mp (getNodeParentPath_subset b.endsWithSlash hDir hMem)).elim b.noNul hLabel
    refine .inl (steady_within ?_)
    rw [placeOf_append_name hDirNul (getNodeParentPath_slash b.endsWithSlash hDir) hValid]
    exact ((h.stays hLabel).parent nodeDir hDir).entry entry

end Names

/-- A stream cannot be opened, or its file has been written. -/
theorem writeStream_cases (fileName what : Str) (bytes : List UInt8) (ends : Outcome Unit) (d : Disk) :
    (∃ e, b.writeStream fileName what bytes ends d = (.error e, d)) ∨
      ∃ other, d.writeFile b.cwd fileName bytes = (.ok (), other) ∧
        b.writeStream fileName what bytes ends d = (ends, other) := by
  rw [writeStream]
  rcases hCall : d.writeFile b.cwd fileName bytes with ⟨errno | _, other⟩
  · obtain rfl := writeFile_error hCall
    rw [bind_ok (show call (Disk.writeFile b.cwd fileName bytes) other = (.ok (.error errno), other) by
      rw [call, hCall])]
    exact .inl ⟨_, rfl⟩
  · refine .inr ⟨other, rfl, ?_⟩
    rw [bind_ok (show call (Disk.writeFile b.cwd fileName bytes) d = (.ok (.ok ()), other) by
      rw [call, hCall])]
    rfl

/-- After the next file has been written, all files written so far can be read. -/
theorem Holds.write {front : List Str} {fileName : Str} {bytes : List UInt8} {d other : Disk}
    (h : b.Holds d.files front) (hWrite : d.writeFile b.cwd fileName bytes = (.ok (), other)) :
    b.Holds other.files (front ++ [fileName]) := by
  obtain ⟨hNew, hOld⟩ := openRead_of_writeFile hWrite
  intro name hName
  rcases List.mem_append.mp hName with hFront | hLast
  · exact hOld name (h name hFront)
  · rw [List.mem_singleton.mp hLast]
    exact ⟨bytes, hNew⟩

/-- Each of the files to be opened is in the base directory, if those before it are files. -/
def Allowed (b : FileBackend) (done todo : List Str) : Prop :=
  ∀ fs front fileName back, todo = front ++ fileName :: back → b.Holds fs (done ++ front ++ [fileName]) →
    b.Inside (placeOf b.cwd fileName)

theorem Allowed.first {done rest : List Str} {fileName : Str} (h : Allowed b done (fileName :: rest))
    {fs : FileSystem} (hHolds : b.Holds fs (done ++ [fileName])) : b.Inside (placeOf b.cwd fileName) :=
  h fs [] fileName rest rfl (by rwa [List.append_nil])

theorem Allowed.next {done rest : List Str} {fileName : Str} (h : Allowed b done (fileName :: rest)) :
    Allowed b (done ++ [fileName]) rest := by
  intro fs front other back hRest hHolds
  refine h fs (fileName :: front) other back (by rw [hRest]; rfl) ?_
  rwa [List.append_assoc done [fileName] front] at hHolds

theorem writeFile_within {fileName : Str} {bytes : List UInt8} {d other : Disk} (hWithin : d.Within b.Inside)
    (hInside : b.Inside (placeOf b.cwd fileName)) (hWrite : d.writeFile b.cwd fileName bytes = (.ok (), other)) :
    other.Within b.Inside := by
  obtain ⟨-, -, rfl⟩ := writeFile_ok hWrite
  exact (steady_within hInside d hWithin).1 _

/-- The loop over the content files keeps to the base directory; the induction is on the files that
are left, with the files written so far as the invariant. -/
theorem writeContentFiles_within {pairs : List (PropertyInfo × Str)} {remaining : SharedSpan} {done : List Str}
    {d : Disk} (hAllowed : Allowed b done (b.contentPaths pairs remaining)) (hHolds : b.Holds d.files done)
    (hWithin : d.Within b.Inside) : (b.writeContentFiles pairs remaining d).2.Within b.Inside := by
  induction pairs generalizing remaining done d with
  | nil => exact hWithin
  | cons pair rest ih =>
    obtain ⟨info, fileName⟩ := pair
    rw [contentPaths] at hAllowed
    cases hValue : b.takeValue info.1 remaining with
    | error fault =>
      rw [writeContentFiles_error hValue]
      rcases writeStream_cases fileName (str "content") [] (.error fault) d with
        ⟨e, hFail⟩ | ⟨other, hWrite, hDone⟩
      · rwa [hFail]
      · rw [hDone]
        exact writeFile_within hWithin (hAllowed.first (hHolds.write hWrite)) hWrite
    | ok value =>
      obtain ⟨text, behind⟩ := value
      rw [writeContentFiles_ok hValue]
      rcases writeStream_cases fileName (str "content") text (.ok ()) d with
        ⟨e, hFail⟩ | ⟨other, hWrite, hDone⟩
      · rwa [bind_error hFail]
      · rw [bind_ok hDone]
        rw [hValue] at hAllowed
        have hNow := hHolds.write hWrite
        exact ih hAllowed.next hNow (writeFile_within hWithin (hAllowed.first hNow) hWrite)

theorem getContentFileName_eq (basePath labelRule : Str) (order : ℕ) (info : PropertyInfo) : ∃ tail,
    getContentFileName basePath labelRule order info =
      basePath ++ labelRule ++ (str "." ++ toDecimal order ++ tail) ∧
        str "." <+: tail ∧ tail ⊆ str "." ++ info.2 ++ info.1 := by
  rw [getContentFileName]
  split_ifs with hName
  · refine ⟨str "." ++ info.1, by simp only [List.append_assoc], List.prefix_append _ _, ?_⟩
    rw [hName, List.append_nil]
    exact List.Subset.refl _
  · refine ⟨str "." ++ info.2 ++ str "." ++ info.1, by simp only [List.append_assoc], ?_, ?_⟩
    · rw [List.append_assoc, List.append_assoc]
      exact List.prefix_append _ _
    · intro c hc
      simp only [List.mem_append] at hc ⊢
      tauto

theorem mem_getContentFileNames {basePath labelRule fileName : Str} {infos : List PropertyInfo}
    (h : fileName ∈ getContentFileNames basePath labelRule infos) :
    ∃ tail, fileName = basePath ++ labelRule ++ tail := by
  obtain ⟨⟨info, order⟩, -, rfl⟩ := List.mem_map.mp h
  obtain ⟨tail, hTail, -⟩ := getContentFileName_eq basePath labelRule order info
  exact ⟨_, hTail⟩

section Operations

variable {node : TreeNode}

theorem Contained.writeFiles (h : b.Contained node) :
    Keeps (Disk.Within b.Inside) (do
      b.writeNodeFile node
      let fileNames := getContentFileNames b.basePath node.getLabelRule node.propertyInfos
      b.writeContentFiles ((parsePropertyInfos fileNames).zip fileNames) node.propertyData
      return true) := by
  by_cases hNul : 0 ∈ node.labelRule
  · refine keeps_bind ?_ fun _ _ _ => keeps_bind (keeps_writeContentFiles _ ?_) fun _ _ _ => keeps_pure true
    · rw [writeNodeFile]
      split <;> exact keeps_writeStream (h.harmless_of_nul hNul _) _ _ _
    · intro pair hPair
      obtain ⟨tail, hTail⟩ := mem_getContentFileNames (List.of_mem_zip hPair).2
      rw [hTail]
      exact h.harmless_of_nul hNul tail
  · intro d hWithin
    have hAllowed : Allowed b [] (b.openedFiles node) := (h.stays hNul).opened
    have hNone : b.Holds d.files [] := fun name hName => absurd hName List.not_mem_nil
    rw [openedFiles] at hAllowed
    rw [writeNodeFile]
    cases hText : node.text with
    | error fault =>
      rcases writeStream_cases (b := b) (getNodeFileName b.basePath node.getLabelRule) (str "node")
        (textBeforeVersion node) (.error fault) d with ⟨e, hFail⟩ | ⟨other, hWrite, hDone⟩
      · simp only
        rwa [bind_error hFail]
      · simp only
        rw [bind_error hDone]
        exact writeFile_within hWithin (hAllowed.first (hNone.write hWrite)) hWrite
    | ok text =>
      rcases writeStream_cases (b := b) (getNodeFileName b.basePath node.getLabelRule) (str "node") text (.ok ()) d
        with ⟨e, hFail⟩ | ⟨other, hWrite, hDone⟩
      · simp only
        rwa [bind_error hFail]
      · simp only
        rw [bind_ok hDone, bind_pure_state]
        rw [hText] at hAllowed
        have hNow := hNone.write hWrite
        exact writeContentFiles_within hAllowed.next hNow (writeFile_within hWithin (hAllowed.first hNow) hWrite)

theorem Contained.writeNodeToFiles (h : b.Contained node) :
    Keeps (Disk.Within b.Inside) (b.writeNodeToFiles node) := by
  refine keeps_orElse ?_ false
  refine keeps_bind (keeps_createNodeDirectory fun other hOther => ?_) fun _ _ _ => h.writeFiles
  rcases hOther with rfl | hNoDot
  · exact keeps_mkdir h.directory.harmless
  · exact keeps_mkdir (.inl (steady_within (inside_of_noDot hNoDot)))

theorem Contained.deleteNodeFiles (h : b.Contained node) (recursive : Bool) :
    Keeps (Disk.Within b.Inside) (b.deleteNodeFiles node.labelRule recursive) := by
  refine keeps_bind ?_ fun _ success _ => ?_
  · split_ifs
    · refine keeps_bind (keeps_look _) fun _ depth _ => ?_
      exact keeps_deleteDirectoryRecursively (P := Sound b) (fun _ _ hPath => hPath.entry)
        (fun _ hPath => hPath.harmless) depth h.directory
    · exact keeps_pure true
  refine keeps_bind (keeps_inspect _) fun d contentFiles hFiles => ?_
  refine keeps_bind (keeps_removeContentFiles success fun fileName hMem => h.contentFile hFiles hMem)
    fun _ success _ => ?_
  dsimp only
  split_ifs
  · exact keeps_pure false
  · refine keeps_bind (keeps_removeFile ?_) fun _ _ _ => keeps_pure _
    exact h.extension (by decide) (by decide) (by decide)

/-- The properties of a node that has been read say what its content files are called. -/
theorem readNodeFromFiles_infos {labelRule : Str} {fs : FileSystem} {old : TreeNode}
    (h : b.readNodeFromFiles labelRule fs = .ok (some old)) : ∃ fileNames,
    b.readContentFileNames labelRule fs = .ok fileNames ∧ old.propertyInfos = parsePropertyInfos fileNames := by
  obtain ⟨found, -, h⟩ := Outcome.bind_eq_ok.mp (Outcome.orElse_eq_ok h (Option.some_ne_none old))
  cases found with
  | none => cases h
  | some node =>
    obtain ⟨fileNames, hNames, h⟩ := Outcome.bind_eq_ok.mp h
    obtain ⟨data, -, h⟩ := Outcome.bind_eq_ok.mp h
    obtain rfl := Option.some.inj (Except.ok.inj h)
    exact ⟨fileNames, hNames, rfl⟩

/-- The content file of a property of the old node that the new one does not have. -/
theorem Contained.missing (h : b.Contained node) {fs : FileSystem} {old : TreeNode} {missing : PropertyInfo × ℕ}
    (hOld : b.getNode node.labelRule fs = .ok (some old)) (hMissing : missing ∈ missingProperties old node) :
    Harmless (Disk.Within b.Inside) b.cwd (getContentFileName b.basePath node.labelRule missing.2 missing.1) := by
  obtain ⟨fileNames, hNames, hInfos⟩ := readNodeFromFiles_infos hOld
  have hInfo : missing.1 ∈ parsePropertyInfos fileNames := by
    rw [← hInfos]
    exact List.fst_mem_of_mem_zipIdx (List.mem_filter.mp hMissing).1
  obtain ⟨fileName, hFile, hParse⟩ := List.mem_filterMap.mp hInfo
  obtain ⟨nodeDir, nodeName, entry, hDir, -, rfl, hValid, hContent⟩ := mem_readContentFileNames hNames hFile
  have hDot : chr '.' ∈ entry := by
    rw [isContentFile, Bool.and_eq_true] at hContent
    exact of_decide_eq_true hContent.2
  obtain ⟨-, -, -, hEntrySlash, hEntryNul⟩ := hValid
  rw [parsePropertyInfo_append (getNodeParentPath_slash b.endsWithSlash hDir) hEntrySlash hDot] at hParse
  obtain ⟨hType, hName⟩ := subset_of_parsePropertyInfo hParse
  obtain ⟨tail, hTail, ⟨rest, rfl⟩, hSubset⟩ :=
    getContentFileName_eq b.basePath node.labelRule missing.2 missing.1
  -- neither a digit nor a dot nor a byte of the old file's name is a slash or NUL
  have hOther : ∀ c ∈ str "." ++ toDecimal missing.2 ++ (str "." ++ rest), c ≠ chr '/' ∧ c ≠ 0 := by
    intro c hc
    rcases List.mem_append.mp hc with hFront | hBack
    · rcases List.mem_append.mp hFront with hPoint | hDigit
      · rw [List.mem_singleton.mp hPoint]
        decide
      · have hRange := toDecimal_digits hDigit
        constructor <;> rintro rfl <;> revert hRange <;> decide
    · have hIn := hSubset hBack
      simp only [List.mem_append] at hIn
      rcases hIn with (hPoint | hSecond) | hFirst
      · rw [List.mem_singleton.mp hPoint]
        decide
      · exact ⟨fun h => hEntrySlash (h ▸ hName hSecond), fun h => hEntryNul (h ▸ hName hSecond)⟩
      · exact ⟨fun h => hEntrySlash (h ▸ hType hFirst), fun h => hEntryNul (h ▸ hType hFirst)⟩
  rw [hTail]
  refine h.extension (fun hMem => (hOther _ hMem).1 rfl) (fun hMem => (hOther _ hMem).2 rfl) ?_
  have hDigits := List.length_pos_iff.mpr (toDecimal_ne_nil missing.2)
  simp only [List.length_append, show (str ".").length = 1 from rfl]
  omega

theorem Contained.upsertNode (h : b.Contained node) {nodes : List TreeNode} (hNodes : ∀ other ∈ nodes, other = node) :
    Keeps (Disk.Within b.Inside) (b.upsertNode nodes) := by
  induction nodes with
  | nil => exact keeps_pure true
  | cons other rest ih =>
    obtain rfl := hNodes other List.mem_cons_self
    have hRest := ih fun more hMore => hNodes more (List.mem_cons_of_mem other hMore)
    rw [FileBackend.upsertNode]
    refine keeps_bind (keeps_inspect _) fun d found hFound => ?_
    refine keeps_bind ?_ fun _ removed _ => ?_
    · cases found with
      | none => exact keeps_pure true
      | some old =>
        refine keeps_forAll fun missing hMissing => ?_
        dsimp only
        split_ifs
        · exact keeps_pure true
        · exact keeps_removeFile (h.missing hFound hMissing)
    · cases removed
      · exact keeps_pure false
      · refine keeps_bind h.writeNodeToFiles fun _ written _ => ?_
        cases written
        · exact keeps_pure false
        · exact hRest

theorem Contained.performChange (h : b.Contained node) {change : NewNodeVersion} (hChange : ChangeOf node change) :
    Keeps (Disk.Within b.Inside) (b.performChange change) := by
  rw [ChangeOf] at hChange
  rw [FileBackend.performChange]
  refine keeps_bind ?_ fun _ _ _ => keeps_pure ()
  cases hNode : change.node with
  | none =>
    rw [hNode] at hChange
    rw [show change.labelRule = node.labelRule from hChange]
    exact h.deleteNodeFiles true
  | some other =>
    rw [hNode] at hChange
    obtain rfl : other = node := hChange
    exact h.writeNodeToFiles

/-- Where the condition holds, every operation stays in the base directory. -/
theorem Contained.run (h : b.Contained node) {operation : Operation} (hAbout : operation.About node) :
    Keeps (Disk.Within b.Inside) (operation.run b) := by
  cases operation with
  | upsertNode nodes => exact keeps_bind (h.upsertNode hAbout) fun _ _ _ => keeps_pure ()
  | deleteNode labelRule =>
    obtain rfl : labelRule = node.labelRule := hAbout
    exact keeps_bind (h.deleteNodeFiles true) fun _ _ _ => keeps_pure ()
  | applyTransaction transaction =>
    refine keeps_bind (keeps_inspect _) fun _ _ _ => ?_
    refine keeps_forEach fun sub hSub => keeps_forEach fun change hChange => ?_
    exact h.performChange (hAbout sub hSub change hChange)

end Operations

end FileBackend

end Wwatp
