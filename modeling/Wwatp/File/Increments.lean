import Wwatp.Client.Resync
import Wwatp.File.Escape
import Wwatp.Memory.Increments

/-! Stores that nodes were written to, and whether a transaction or a new layer can count their versions on. No
decoder refuses a version with a maximum of zero, and no store does. -/
namespace Wwatp

open Cxx Cxx.Outcome Cxx.Reader

section Reading

variable {α : Type} {s : IStream}

@[simp] theorem avoids_readMaybe {value : Reader α} (h : ∀ s, Avoids .divisionByZero (value s)) :
    Avoids .divisionByZero (readMaybe value s) := by
  simp [readMaybe, h]

@[simp] theorem avoids_writtenByRead (a : Option α) : Avoids .divisionByZero (written a s) :=
  avoids_written nofun

@[simp] theorem avoids_readLengthString : Avoids .divisionByZero (readLengthString s) := by
  simp [readLengthString]

@[simp] theorem avoids_readVersion : Avoids .divisionByZero (readVersion s) := by
  simp [readVersion]

@[simp] theorem avoids_popComma (text : Str) : Avoids .divisionByZero (popComma text) := by
  unfold popComma
  split <;> simp

@[simp] theorem avoids_stripParentheses (name : Str) : Avoids .divisionByZero (stripParentheses name) := by
  unfold stripParentheses
  split <;> simp

@[simp] theorem avoids_skipSpace : Avoids .divisionByZero (skipSpace s) := by
  simp [skipSpace]

@[simp] theorem avoids_readPropertyInfo : Avoids .divisionByZero (readPropertyInfo s) := by
  simp [readPropertyInfo]

@[simp] theorem avoids_readChildName : Avoids .divisionByZero (readChildName s) := by
  simp [readChildName]

theorem avoids_readNonSpaceFuel (fuel count : ℕ) : Avoids .divisionByZero (readNonSpaceFuel fuel count s) := by
  induction fuel generalizing count s with
  | zero => cases count <;> simp [readNonSpaceFuel]
  | succ fuel ih =>
      cases count with
      | zero => simp [readNonSpaceFuel]
      | succ count =>
          rw [readNonSpaceFuel, Reader.avoids_bind]
          refine ⟨avoids_get, fun c t _ => ?_⟩
          cases c <;> simp [ih]

@[simp] theorem avoids_readNonSpace (count : ℕ) : Avoids .divisionByZero (readNonSpace count s) :=
  avoids_readNonSpaceFuel _ count

@[simp] theorem avoids_hexByte (hex : Str) : Avoids .divisionByZero (hexByte hex) := by
  rw [hexByte, Outcome.avoids_bind]
  refine ⟨avoids_int 16, fun read _ => ?_⟩
  obtain ⟨value, t⟩ := read
  cases value <;> simp

@[simp] theorem avoids_readHexBytes (total : ℕ) : Avoids .divisionByZero (readHexBytes total s) := by
  induction total generalizing s with
  | zero => simp [readHexBytes]
  | succ total ih => simp [readHexBytes, ih]

@[simp] theorem avoids_createFromData (data : List UInt8) : Avoids .divisionByZero (SharedSpan.createFromData data) := by
  unfold SharedSpan.createFromData
  split
  · simp
  · dsimp only
    split_ifs <;> simp

@[simp] theorem avoids_readSpan : Avoids .divisionByZero (readSpan s) := by
  simp [readSpan]

@[simp] theorem avoids_readNode : Avoids .divisionByZero (readNode s) := by
  simp [readNode, avoids_untilPeek]

end Reading

section Files

variable {basePath labelRule : Str}

@[simp] theorem avoids_substr (text : Str) (position : ℕ) : Avoids .divisionByZero (Str.substr text position) := by
  simp [Str.substr]

@[simp] theorem avoids_splitDirectory (nodeDir : Str) : Avoids .divisionByZero (splitDirectory nodeDir) := by
  unfold splitDirectory
  split <;> simp

@[simp] theorem avoids_getNodeName : Avoids .divisionByZero (getNodeName basePath labelRule) := by
  simp [getNodeName]

@[simp] theorem avoids_getNodeParentPath : Avoids .divisionByZero (getNodeParentPath basePath labelRule) := by
  simp [getNodeParentPath]

@[simp] theorem avoids_getLabelRuleFromFileName (fileName : Str) :
    Avoids .divisionByZero (getLabelRuleFromFileName basePath fileName) := by
  simp [getLabelRuleFromFileName]

@[simp] theorem avoids_parentLabelRule : Avoids .divisionByZero (parentLabelRule basePath labelRule) := by
  simp [parentLabelRule]

namespace FileBackend

variable {b : FileBackend} {fs : FileSystem} {d : Disk}

@[simp] theorem avoids_readContentFileNames : Avoids .divisionByZero (b.readContentFileNames labelRule fs) := by
  rw [readContentFileNames, Outcome.avoids_bind]
  refine ⟨avoids_getNodeParentPath, fun nodeDir _ => ?_⟩
  rw [Outcome.avoids_bind]
  refine ⟨avoids_getNodeName, fun nodeName _ => ?_⟩
  split <;> simp

theorem avoids_readContentLoop (infos : List PropertyInfo) (fileNames : List Str) (order : ℕ) :
    Avoids .divisionByZero (b.readContentLoop infos fs fileNames order) := by
  induction fileNames generalizing order with
  | nil => exact avoids_ok []
  | cons fileName rest ih =>
      rw [readContentLoop]
      split
      · exact ih order
      · simp
      · split <;> simp [ih]

@[simp] theorem avoids_readNodeFile : Avoids .divisionByZero (b.readNodeFile labelRule fs) := by
  unfold readNodeFile
  dsimp only
  split_ifs
  · split <;> simp
  · simp

/-- Reading a node does not count. -/
@[simp] theorem avoids_readNodeFromFiles : Avoids .divisionByZero (b.readNodeFromFiles labelRule fs) := by
  rw [readNodeFromFiles, avoids_orElse, Outcome.avoids_bind]
  refine ⟨avoids_readNodeFile, fun node _ => ?_⟩
  cases node with
  | none => simp
  | some node => simp [readContentFiles, avoids_readContentLoop]

/-- The version of every node in the files has a number after it. -/
def CountsOn (b : FileBackend) (fs : FileSystem) : Prop :=
  ∀ label node, b.readNodeFromFiles label fs = .ok (some node) → node.version.maxVersionSequence ≠ 0

theorem avoids_canPerformChildren (children : List NewNodeVersion) :
    Avoids .divisionByZero (b.canPerformChildren fs children) := by
  have hOne : ∀ child, Avoids .divisionByZero (b.canPerformChild fs child) := by
    intro child
    rw [canPerformChild, Outcome.avoids_bind]
    refine ⟨avoids_readNodeFromFiles, fun old _ => ?_⟩
    cases old <;> simp
  induction children with
  | nil => exact avoids_ok true
  | cons child rest ih => simp [canPerformChildren, hOne, ih]

theorem avoids_canPerformSubTransaction (h : b.CountsOn fs) (sub : SubTransaction) :
    Avoids .divisionByZero (b.canPerformSubTransaction fs sub) := by
  unfold canPerformSubTransaction
  split_ifs
  swap
  · simp
  rw [Outcome.avoids_bind]
  refine ⟨avoids_readNodeFromFiles, fun old hOld => ?_⟩
  cases old with
  | none => simp
  | some stored =>
      have hNext := (TreeNodeVersion.avoids_nextNumber stored.version).mpr (h _ _ hOld)
      cases sub.parent.priorVersion with
      | none => simp
      | some prior => simp [hNext, avoids_canPerformChildren]

theorem avoids_checkSubTransactions (h : b.CountsOn fs) (transaction : Transaction) :
    Avoids .divisionByZero (b.checkSubTransactions fs transaction) := by
  induction transaction with
  | nil => exact avoids_ok ()
  | cons sub rest ih => simp [checkSubTransactions, avoids_canPerformSubTransaction h, ih, MemoryTree.notValid]

theorem avoids_createNodeDirectory (labelRule : Str) : Avoids .divisionByZero (b.createNodeDirectory labelRule d).1 := by
  obtain ⟨made, other, hMade⟩ := createNodeDirectory_ok (b := b) labelRule d
  rw [hMade]
  exact avoids_ok made

@[simp] theorem avoids_writeStream {fileName what : Str} {bytes : List UInt8} {ends : Outcome Unit}
    (h : Avoids .divisionByZero ends) : Avoids .divisionByZero (b.writeStream fileName what bytes ends d).1 := by
  rw [writeStream, Effectful.avoids_bind]
  refine ⟨Effectful.avoids_call _, fun opened t _ => ?_⟩
  cases opened with
  | error errno => simp
  | ok u => simpa using h

theorem avoids_text (n : TreeNode) : Avoids .divisionByZero n.text := by
  simp [TreeNode.text, TreeNodeVersion.text]

theorem avoids_writeNodeFile (node : TreeNode) : Avoids .divisionByZero (b.writeNodeFile node d).1 := by
  have hText := avoids_text node
  rw [writeNodeFile]
  cases hNode : node.text with
  | ok text => exact avoids_writeStream (avoids_ok ())
  | error fault =>
      rw [hNode] at hText
      exact avoids_writeStream (avoids_error.mpr (avoids_error.mp hText))

theorem avoids_podFromChunk (length : ℕ) (parts : List (List UInt8)) :
    Avoids .divisionByZero (SharedSpan.podFromChunk length parts) := by
  induction parts generalizing length with
  | nil => cases length <;> simp [SharedSpan.podFromChunk]
  | cons part rest ih => cases length <;> simp [SharedSpan.podFromChunk, ih]

@[simp] theorem avoids_podAt (s : SharedSpan) (length : ℕ) : Avoids .divisionByZero (s.podAt length) := by
  simp [SharedSpan.podAt, avoids_podFromChunk]

@[simp] theorem avoids_takeValue (type : Str) (remaining : SharedSpan) :
    Avoids .divisionByZero (b.takeValue type remaining) := by
  simp [takeValue]

theorem avoids_writeContentFiles (files : List (PropertyInfo × Str)) (remaining : SharedSpan) :
    Avoids .divisionByZero (b.writeContentFiles files remaining d).1 := by
  induction files generalizing remaining d with
  | nil => exact Effectful.avoids_pure ()
  | cons file rest ih =>
      obtain ⟨info, fileName⟩ := file
      have hValue := avoids_takeValue (b := b) info.1 remaining
      rw [writeContentFiles]
      cases hTaken : b.takeValue info.1 remaining with
      | error fault =>
          rw [hTaken] at hValue
          exact avoids_writeStream (avoids_error.mpr (avoids_error.mp hValue))
      | ok value => simp [ih]

@[simp] theorem avoids_writeNodeToFiles (node : TreeNode) : Avoids .divisionByZero (b.writeNodeToFiles node d).1 := by
  simp [writeNodeToFiles, avoids_createNodeDirectory, avoids_writeNodeFile, avoids_writeContentFiles]

@[simp] theorem avoids_removeFile (fileName : Str) : Avoids .divisionByZero (b.removeFile fileName d).1 := by
  rw [removeFile, Effectful.avoids_bind]
  refine ⟨Effectful.avoids_call _, fun removed t _ => ?_⟩
  cases removed <;> simp

theorem avoids_removeContentFiles (fileNames : List Str) (success : Bool) :
    Avoids .divisionByZero (b.removeContentFiles fileNames success d).1 := by
  induction fileNames generalizing success d with
  | nil => exact Effectful.avoids_pure success
  | cons fileName rest ih => simp [removeContentFiles, ih]

theorem avoids_deleteDirectoryRecursively (depth : ℕ) (dirPath : Str) :
    Avoids .divisionByZero (b.deleteDirectoryRecursively depth dirPath d).1 := by
  induction depth generalizing dirPath d with
  | zero => simp [deleteDirectoryRecursively]
  | succ depth ih =>
      rw [deleteDirectoryRecursively]
      split_ifs
      · simp
      rw [Effectful.avoids_bind]
      refine ⟨Effectful.avoids_look _, fun listing t _ => ?_⟩
      cases listing with
      | error errno => simp
      | ok entries =>
          rw [Effectful.avoids_bind]
          refine ⟨Effectful.avoids_forAll fun entry _ u => ?_, fun removed u _ => by simp⟩
          simp [ih]

theorem avoids_deleteNodeFiles (labelRule : Str) (recursive : Bool) :
    Avoids .divisionByZero (b.deleteNodeFiles labelRule recursive d).1 := by
  simp [deleteNodeFiles, deleteNodeDirectory, avoids_deleteDirectoryRecursively, avoids_removeContentFiles]

theorem avoids_performChange (change : NewNodeVersion) : Avoids .divisionByZero (b.performChange change d).1 := by
  rw [performChange, Effectful.avoids_bind]
  refine ⟨?_, fun _ t _ => Effectful.avoids_pure ()⟩
  cases change.node with
  | none => exact avoids_deleteNodeFiles change.labelRule true
  | some node => exact avoids_writeNodeToFiles node

/-- Only the checks count. -/
theorem avoids_applyTransaction (h : b.CountsOn d.files) (transaction : Transaction) :
    Avoids .divisionByZero (b.applyTransaction transaction d).1 := by
  rw [applyTransaction, Effectful.avoids_bind]
  refine ⟨avoids_checkSubTransactions h transaction, fun _ t _ => ?_⟩
  exact Effectful.avoids_forEach fun sub _ u => Effectful.avoids_forEach fun change _ v => avoids_performChange change

/-- A transaction that names the version in a file gets to its maximum. -/
theorem applyTransaction_changeOf {label : Str} {stored : TreeNode}
    (hStored : b.readNodeFromFiles label d.files = .ok (some stored)) (hZero : stored.version.maxVersionSequence = 0) :
    (b.applyTransaction (MemoryTree.changeOf label stored) d).1 = .error (.undefined .divisionByZero) := by
  have hExists : d.files.fileExists b.cwd (getNodeFileName b.basePath label) = true := by
    by_contra hNone
    rw [readNodeFromFiles, readNodeFile, if_pos hNone] at hStored
    cases hStored
  have hCheck : b.checkSubTransactions d.files (MemoryTree.changeOf label stored) = .error (.undefined .divisionByZero) := by
    simp [MemoryTree.changeOf, checkSubTransactions, canPerformSubTransaction, hExists, hStored,
      TreeNodeVersion.nextNumber, hZero]
  rw [applyTransaction, Effectful.bind_error (by rw [Effectful.inspect, hCheck])]

theorem avoids_applyTransaction_iff :
    (∀ transaction, Avoids .divisionByZero (b.applyTransaction transaction d).1) ↔ b.CountsOn d.files :=
  ⟨fun h _ _ hStored hZero => h _ (applyTransaction_changeOf hStored hZero), avoids_applyTransaction⟩

end FileBackend

end Files

section Stores

open CompositeBackend (lastWritten)

variable {Callback : Type} {uploads : List TreeNode} {b : TransactionalBackend Callback}

/-- A store that nodes were written to, call after call, and the nodes. -/
inductive Uploaded : List TreeNode → TransactionalBackend Callback → Prop
  | start (listeners : ListenerTable Callback) : Uploaded [] ⟨⟨.empty, listeners⟩, []⟩
  | upsert {uploads nodes : List TreeNode} {b after : TransactionalBackend Callback} {notices : List (Notice Callback)} :
      Uploaded uploads b → b.upsertNode nodes = .ok (after, notices) → Uploaded (uploads ++ nodes) after

namespace Uploaded

theorem store_eq (h : Uploaded uploads b) :
    b.transactionStack = [] ∧ b.tree.memoryTree = MemoryTree.empty.upsertNode uploads := by
  induction h with
  | start listeners => exact ⟨rfl, rfl⟩
  | @upsert uploads nodes b after notices _ hCall ih =>
      rw [TransactionalBackend.upsertNode, if_pos ih.1] at hCall
      obtain ⟨⟨tree, told⟩, hTree, hCall⟩ := Outcome.bind_eq_ok.mp hCall
      obtain ⟨notified, -, hTree⟩ := Outcome.bind_eq_ok.mp hTree
      obtain ⟨rfl, -⟩ := Prod.mk.inj (Except.ok.inj hCall)
      obtain ⟨rfl, -⟩ := Prod.mk.inj (Except.ok.inj hTree)
      refine ⟨ih.1, ?_⟩
      change b.tree.memoryTree.upsertNode nodes = _
      rw [ih.2, MemoryTree.upsertNode, MemoryTree.upsertNode, MemoryTree.upsertNode, List.foldl_append]

/-- A label holds the last node that was written to it. -/
theorem getNode_eq (h : Uploaded uploads b) (label : Str) :
    b.tree.memoryTree.getNode label = (lastWritten uploads label).map TreeNode.assign := by
  rw [h.store_eq.2, MemoryTree.getNode_upsertNode, MemoryTree.getNode_empty, Option.or_none]

theorem countsOn_iff (h : Uploaded uploads b) :
    b.tree.memoryTree.CountsOn ↔
      ∀ label node, lastWritten uploads label = some node → node.version.maxVersionSequence ≠ 0 := by
  simp only [MemoryTree.CountsOn, h.getNode_eq, Option.map_eq_some_iff]
  constructor
  · exact fun hCounts label node hLast => hCounts label node.assign ⟨node, hLast, rfl⟩
  · rintro hCounts label _ ⟨node, hLast, rfl⟩
    exact hCounts label node hLast

end Uploaded

/-- In memory every transaction and every new layer can count on exactly when the last node written to each label has
a maximum other than zero; in the files, when every node that is read from them has one. -/
theorem increments_avoid_zero_iff (h : Uploaded uploads b) :
    (((∀ transaction, Avoids .divisionByZero (b.tree.applyTransaction transaction)) ∧
        ∀ stack node, Avoids .divisionByZero ({ b with transactionStack := stack }.openTransactionLayer node)) ↔
      ∀ label node, lastWritten uploads label = some node → node.version.maxVersionSequence ≠ 0) ∧
    ∀ (files : FileBackend) (d : Disk),
      (∀ transaction, Avoids .divisionByZero (files.applyTransaction transaction d).1) ↔
        ∀ label node, files.readNodeFromFiles label d.files = .ok (some node) → node.version.maxVersionSequence ≠ 0 := by
  refine ⟨?_, fun files d => FileBackend.avoids_applyTransaction_iff⟩
  rw [← h.countsOn_iff]
  constructor
  · exact fun hAvoids label node hStored hZero => hAvoids.1 _ (SimpleBackend.applyTransaction_changeOf hStored hZero)
  · exact fun hCounts => ⟨SimpleBackend.avoids_applyTransaction hCounts,
      fun stack node => TransactionalBackend.avoids_openTransactionLayer (b := { b with transactionStack := stack }) hCounts node⟩

/-- A node whose version has a maximum of zero. -/
def uncountedNode : TreeNode := { labelRule := str "A", version := { maxVersionSequence := 0 } }

/-- A store that held such a node until another was written over it. -/
theorem increments_avoid_zero_replaced :
    ∃ b : TransactionalBackend Unit, Uploaded [uncountedNode, { labelRule := str "A" }] b ∧
      ∀ transaction, Avoids .divisionByZero (b.tree.applyTransaction transaction) := by
  have hUploaded : Uploaded ([] ++ [uncountedNode, { labelRule := str "A" }])
      (⟨⟨MemoryTree.empty.upsertNode [uncountedNode, { labelRule := str "A" }], .empty⟩, []⟩ : TransactionalBackend Unit) :=
    (Uploaded.start .empty).upsert (show _ = Except.ok (_, []) from rfl)
  refine ⟨_, hUploaded, ((increments_avoid_zero_iff hUploaded).1.mpr ?_).1⟩
  intro label node hLast
  obtain rfl : node = { labelRule := str "A" } := by
    by_cases hLabel : str "A" = label <;> simp_all [lastWritten, uncountedNode]
  decide

/-- The text of its version. -/
def uncountedText : Str :=
  str "Version: 0 Max_Version: 0 Policy: default Authorial_Proof: Nothing Authors: Nothing" ++
    str " Readers: Nothing Collision_Depth: Nothing "

theorem text_uncountedVersion : uncountedNode.version.text = .ok uncountedText := by
  have hText : str "Version: " ++ toDecimal 0 ++ str " Max_Version: " ++ toDecimal 0 ++
      str " Policy: " ++ str "default" ++ str " Authorial_Proof: " ++ str "Nothing" ++
      str " Authors: " ++ str "Nothing" ++ str " Readers: " ++ str "Nothing" ++
      str " Collision_Depth: " ++ str "Nothing" ++ str " " = uncountedText := by
    decide +kernel
  exact congrArg Except.ok hText

theorem uncountedNode_plain : uncountedNode.Plain where
  labelRule := show Nonblank (str "A") by decide +kernel
  description := by decide
  propertyInfos := rfl
  version := ⟨show Nonblank (str "default") by decide +kernel, nofun, nofun, nofun⟩
  collisionDepth := rfl
  childNames := rfl
  queryHowTo := nofun
  qaSequence := nofun

theorem decodes_uncountedNode :
    ∃ encoded used node, decodeMaybeTreeNode encoded = .ok (used, some node) ∧ node.version.maxVersionSequence = 0 := by
  let full := str "Just " ++ plainText uncountedNode uncountedText ++ str "\n" ++ chunkCountText 0
  have hLength : full.length = 349 := by decide +kernel
  have hRead := uncountedNode_plain.reads text_uncountedVersion
  rw [Reads, List.append_nil] at hRead
  have hShort : full.length < 2 ^ 31 + 1186 := by
    rw [hLength]
    decide
  have hSize : (encodeLongString 1 0x08 full ++ ([] ++ [])).length < 2 ^ 64 := by
    rw [List.append_nil, List.append_nil, length_encodeLongString, hLength]
    decide
  have hFull : full = str "Just " ++ plainText uncountedNode uncountedText ++ str "\n" ++
      chunkCountText ([] : List SharedSpan).length := rfl
  exact ⟨_, _, _, decodeMaybeTreeNode_encode 1 0x08 hRead hFull hShort hSize, rfl⟩

/-- The node comes in over the wire and is stored; the next change of it, and the next layer for it, divide by zero. -/
theorem not_increments_avoid_zero :
    ∃ encoded used node, decodeMaybeTreeNode encoded = .ok (used, some node) ∧
      ∃ b : TransactionalBackend Unit, Uploaded [node] b ∧
        (∃ transaction, b.tree.applyTransaction transaction = .error (.undefined .divisionByZero)) ∧
        b.openTransactionLayer node = .error (.undefined .divisionByZero) := by
  obtain ⟨encoded, used, node, hDecoded, hZero⟩ := decodes_uncountedNode
  have hUploaded : Uploaded ([] ++ [node]) (⟨⟨MemoryTree.empty.upsertNode [node], .empty⟩, []⟩ : TransactionalBackend Unit) :=
    (Uploaded.start .empty).upsert (show _ = Except.ok (_, []) from rfl)
  have hStored := hUploaded.getNode_eq node.labelRule
  have hLast : lastWritten ([] ++ [node]) node.labelRule = some node := by simp [lastWritten]
  rw [hLast] at hStored
  exact ⟨encoded, used, node, hDecoded, _, hUploaded, ⟨_, SimpleBackend.applyTransaction_changeOf hStored hZero⟩,
    TransactionalBackend.openTransactionLayer_zero hUploaded.store_eq.1 hStored hZero⟩

end Stores

end Wwatp
