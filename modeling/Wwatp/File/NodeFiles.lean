import Wwatp.Cxx.FileSystem
import Wwatp.File.Names
import Wwatp.Message.Encode
import Wwatp.Tree.Parse

/-! The files of a node: the `.node` file holds its text, each property is kept in a content
file of its own, and its directory holds what belongs to its children. -/
namespace Wwatp

open Cxx

/-- `operator<<` and `operator>>` of floating-point numbers, on the bits of the numbers. -/
structure FloatText where
  writeDouble : UInt64 → Str
  readDouble : Str → UInt64
  writeFloat : UInt32 → Str
  readFloat : Str → UInt32

/-- A backend on a directory. What is not in the code are the directory it is run in, the
order in which directories are listed, and the text of floating-point numbers. -/
structure FileBackend where
  basePath : Str
  cwd : Path
  order : ReaddirOrder
  floats : FloatText
  endsWithSlash : basePath.getLast? = some (chr '/')
  noNul : 0 ∉ basePath
  cwdValid : ∀ name ∈ cwd, ValidName name

/-- The base path that the constructor makes of its argument. -/
def FileBackend.constructedPath (basePath : Str) : Outcome Str :=
  if basePath = [] then throw (.invalidArgument (str "Base Path cannot be empty"))
  else .ok (if basePath.getLast? = some (chr '/') then basePath else basePath ++ str "/")

def fixedSizeTypes : List Str := [str "int64", str "uint64", str "double", str "float", str "bool"]

/-- The value in an `int64_t` after `>>`, which was zero before. -/
def readInt64 (text : Str) : ℤ :=
  match (IStream.ofStr text).sentry with
  | (false, _) => 0
  | (true, s) =>
    let (negative, digits, _) := Reader.scanNumber 10 s.rest
    let magnitude := valueOf 10 digits
    if digits = [] then 0
    else if negative then max (-magnitude) (-2 ^ 63) else min magnitude (2 ^ 63 - 1)

/-- The value in a `uint64_t` after `>>`, which was zero before. -/
def readUInt64 (text : Str) : ℕ :=
  match (IStream.ofStr text).sentry with
  | (false, _) => 0
  | (true, s) =>
    let (negative, digits, _) := Reader.scanNumber 10 s.rest
    (Reader.unsignedValue 10 64 negative digits).1

/-- The first word of a text. -/
def firstWord (text : Str) : Str := (text.dropWhile isSpace).takeWhile (!isSpace ·)

/-- The value in the bytes of an `int64_t`. -/
def int64Value (bytes : List UInt8) : ℤ :=
  if leValue bytes < 2 ^ 63 then leValue bytes else leValue bytes - 2 ^ 64

def int64Text (value : ℤ) : Str :=
  if value < 0 then str "-" ++ toDecimal value.natAbs else toDecimal value.natAbs

namespace FileBackend

variable (b : FileBackend)

/-- The entries of the parent's directory that `readContentFileNames` keeps, `strncmp` with
the name of the node included. -/
def isContentFile (nodeName entry : Str) : Bool :=
  (if 0 ∈ nodeName then entry = cString nodeName else nodeName <+: entry) &&
    ¬ str ".node" <:+ entry && chr '.' ∈ entry

def readContentFileNames (labelRule : Str) (fs : FileSystem) : Outcome (List Str) := do
  let nodeDir ← getNodeParentPath b.basePath labelRule
  let nodeName ← getNodeName b.basePath labelRule
  match fs.readdir b.order b.cwd nodeDir with
  | .error _ => return []
  | .ok entries =>
    return (((entries.map Prod.fst).filter (isContentFile nodeName)).map (nodeDir ++ ·)).mergeSort
      fun first second => (compare first second).isLE

/-- The spans for the contents of a content file. -/
def valueSpans (type : Str) (buffer : List UInt8) : List SharedSpan :=
  if type ∉ fixedSizeTypes then [payloadSpan 0 0x00 (leBytes 8 buffer.length), payloadSpan 0 0x00 buffer]
  else if type = str "int64" then [payloadSpan 0 0x00 (leBytes 8 ((readInt64 buffer) % 2 ^ 64).toNat)]
  else if type = str "uint64" then [payloadSpan 0 0x00 (leBytes 8 (readUInt64 buffer))]
  else if type = str "double" then [payloadSpan 0 0x00 (leBytes 8 (b.floats.readDouble buffer).toNat)]
  else if type = str "float" then
    [.ofSignal (.payload ⟨0, 0x00, 8⟩) (leBytes 4 (b.floats.readFloat buffer).toNat)]
  else [.ofSignal (.payload ⟨0, 0x00, 8⟩)
    [if firstWord buffer ∈ [str "TRUE", str "True", str "true", str "1"] then 1 else 0]]

/-- The loop of `readContentFiles`, which skips files that cannot be opened. -/
def readContentLoop (infos : List PropertyInfo) (fs : FileSystem) :
    List Str → ℕ → Outcome (List SharedSpan)
  | [], _ => .ok []
  | fileName :: rest, order =>
    match fs.openRead b.cwd fileName with
    | none => readContentLoop infos fs rest order
    | some .directory =>
      throw (.runtimeError (str "basic_filebuf::underflow error reading the file: Is a directory"))
    | some (.file buffer) =>
      match infos[order]? with
      | none => throw (.undefined .index)
      | some info => do
        return b.valueSpans info.1 buffer ++ (← readContentLoop infos fs rest (order + 1))

def readContentFiles (contentFileNames : List Str) (fs : FileSystem) : Outcome SharedSpan := do
  return .concat (← b.readContentLoop (parsePropertyInfos contentFileNames) fs contentFileNames 0)

/-- `readNodeFile`. A directory can be opened, but nothing can be read from it. -/
def readNodeFile (labelRule : Str) (fs : FileSystem) : Outcome (Option TreeNode) :=
  let fileName := getNodeFileName b.basePath labelRule
  if ¬ fs.fileExists b.cwd fileName then .ok none
  else match fs.openRead b.cwd fileName with
    | none => .ok none
    | some inode =>
      let text := match inode with
        | .file bytes => bytes
        | .directory => []
      Outcome.orElse (do return some (← readNode (.ofStr text)).1) none

def readNodeFromFiles (labelRule : Str) (fs : FileSystem) : Outcome (Option TreeNode) :=
  Outcome.orElse (do
    match ← b.readNodeFile labelRule fs with
    | none => return none
    | some node => do
      let contentFiles ← b.readContentFileNames labelRule fs
      let propertyData ← b.readContentFiles contentFiles fs
      return some { node with
        propertyData := propertyData
        propertyInfos := parsePropertyInfos contentFiles }) none

def createNodeDirectory (labelRule : Str) : Effectful Disk Bool :=
  if _hRoot : labelRule = [] ∨ labelRule = str "/" then pure true
  else match _hParent : parentLabelRule b.basePath labelRule with
    | .error fault => .raise fault
    | .ok parent => do
      let _ ← createNodeDirectory parent
      match ← Effectful.call (Disk.mkdir b.cwd (getNodeDirectoryPath b.basePath labelRule)) with
      | .error errno => return errno = .exist
      | .ok () => return true
termination_by labelRule.length
decreasing_by exact length_parentLabelRule _hParent (fun hEmpty => _hRoot (.inl hEmpty))

/-- What `operator<<` has written when the version of the node throws. -/
def textBeforeVersion (n : TreeNode) : Str :=
  str "TreeNode(\n" ++ str "label_rule: " ++ n.labelRule ++ str "\n" ++
    writeLengthString (str "description") n.description ++ str "property_infos: [ " ++
    n.propertyInfos.flatMap (fun info => info.1 ++ str " (" ++ info.2 ++ str "), ") ++
    str "], " ++ str "version: "

/-- A stream opened for writing, what is written to it, and how the writing ends. -/
def writeStream (fileName : Str) (what : Str) (bytes : List UInt8) (ends : Outcome Unit) :
    Effectful Disk Unit := do
  match ← Effectful.call (Disk.writeFile b.cwd fileName bytes) with
  | .error _ => .raise (.runtimeError (str "Error opening " ++ what ++ str " file for writing: " ++ fileName))
  | .ok () => .inspect fun _ => ends

def writeNodeFile (node : TreeNode) : Effectful Disk Unit :=
  match node.text with
  | .ok text => b.writeStream (getNodeFileName b.basePath node.getLabelRule) (str "node") text (.ok ())
  | .error fault => b.writeStream (getNodeFileName b.basePath node.getLabelRule) (str "node")
      (textBeforeVersion node) (.error fault)

/-- The text of the value at the front of the data, and the data behind it. -/
def takeValue (type : Str) (remaining : SharedSpan) : Outcome (Str × SharedSpan) :=
  let behind (size : ℕ) : SharedSpan := remaining.restrict size (sizeSub remaining.size size)
  if type = str "int64" then do
    return (int64Text (int64Value (← remaining.podAt 8)), behind 8)
  else if type = str "uint64" then do
    return (toDecimal (leValue (← remaining.podAt 8)), behind 8)
  else if type = str "double" then do
    return (b.floats.writeDouble (.ofNat (leValue (← remaining.podAt 8))), behind 8)
  else if type = str "float" then do
    return (b.floats.writeFloat (.ofNat (leValue (← remaining.podAt 4))), behind 4)
  else if type = str "bool" then do
    return (if (← remaining.podAt 1) = [0] then str "false" else str "true", behind 1)
  else do
    let size := leValue (← remaining.podAt 8)
    return ((remaining.restrict 8 size).bytes,
      remaining.restrict ((8 + size) % 2 ^ 64) (sizeSub (sizeSub remaining.size 8) size))

/-- `writeContentFiles`. A file is opened before its value is looked for. -/
def writeContentFiles : List (PropertyInfo × Str) → SharedSpan → Effectful Disk Unit
  | [], _ => pure ()
  | (info, fileName) :: rest, remaining =>
    match b.takeValue info.1 remaining with
    | .error fault => b.writeStream fileName (str "content") [] (.error fault)
    | .ok (text, behind) => do
      b.writeStream fileName (str "content") text (.ok ())
      writeContentFiles rest behind

def writeNodeToFiles (node : TreeNode) : Effectful Disk Bool :=
  Effectful.orElse (do
    let _ ← b.createNodeDirectory node.getLabelRule
    b.writeNodeFile node
    let fileNames := getContentFileNames b.basePath node.getLabelRule node.propertyInfos
    b.writeContentFiles ((parsePropertyInfos fileNames).zip fileNames) node.propertyData
    return true) false

/-- A name is outside of the base path, going by its letters. -/
def refuses (path : Str) : Bool := path.take b.basePath.length ≠ b.basePath

/-- `deleteDirectoryRecursively`, down to a depth. An entry is a directory if `d_type` says
so; the comparison in `is_dir_dirent` is taken as its result, though its `return` is missing. -/
def deleteDirectoryRecursively : ℕ → Str → Effectful Disk Bool
  | 0, _ => .raise (.undefined .nonTermination)
  | depth + 1, dirPath =>
    if b.refuses dirPath then pure false
    else do
      match ← Effectful.look fun d => d.files.readdir b.order b.cwd dirPath with
      | .error errno => return errno = .noEntry
      | .ok entries =>
        let removed ← Effectful.forAll (fun (name, isDirectory) =>
          let fullPath := dirPath ++ str "/" ++ name
          if isDirectory then deleteDirectoryRecursively depth fullPath
          else if b.refuses fullPath then pure false
          else do return (← Effectful.call (Disk.remove b.cwd fullPath)).isOk) entries
        if removed then return (← Effectful.call (Disk.rmdir b.cwd dirPath)).isOk
        else return false

/-- The removal of a file that may be gone already; whether it went well. -/
def removeFile (fileName : Str) : Effectful Disk Bool := do
  match ← Effectful.call (Disk.remove b.cwd fileName) with
  | .error errno => return errno = .noEntry
  | .ok () => return true

/-- The loop over the content files in `deleteNodeFiles`. -/
def removeContentFiles : List Str → Bool → Effectful Disk Bool
  | [], success => pure success
  | fileName :: rest, success =>
    if b.refuses fileName then removeContentFiles rest success
    else do
      let removed ← b.removeFile fileName
      removeContentFiles rest (success && removed)

/-- The first part of `deleteNodeFiles`, on the directory of the node. -/
def deleteNodeDirectory (labelRule : Str) : Effectful Disk Bool := do
  let depth ← Effectful.look fun d => d.files.inodes.size + 1
  b.deleteDirectoryRecursively depth (getNodeDirectoryPath b.basePath labelRule)

def deleteNodeFiles (labelRule : Str) (recursive : Bool) : Effectful Disk Bool := do
  let success ← (if recursive then b.deleteNodeDirectory labelRule else pure true)
  let contentFiles ← Effectful.inspect fun d => b.readContentFileNames labelRule d.files
  let success ← b.removeContentFiles contentFiles success
  let nodeFile := getNodeFileName b.basePath labelRule
  if b.refuses nodeFile then return false
  else do
    let removed ← b.removeFile nodeFile
    return success && removed

end FileBackend

end Wwatp
