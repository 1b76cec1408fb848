import EsyncUa.Checksums
import EsyncUa.DiffManifests
import EsyncUa.FilePaths

/-!
Reconstruction of a package from an old one and a delta package.
The code runs over the files on disk. What tools, archives and copies do is not its own: a
world answers each such operation, from the files at that moment and the number of
operations before it, so one world stands for one outcome of every operation of a run.
There are no symbolic links here, and each tool writes the one file it is for; the programs of
`DeltaPrograms` have both, and `PlainDeltas` proves that they do this where neither matters.
-/
namespace EsyncUa.Deltas

open JsonProperties Components Checksums DiffManifests FilePaths

/-- delta_tool_t. -/
structure DeltaTool where
  algo : String
  path : String
  args : String
  intl : Bool
  deriving DecidableEq

/-- delta_stg. -/
structure DeltaStg where
  cacheDir : String
  patchTool : List DeltaTool
  decompTool : List DeltaTool

inductive Op
  | newdirp (path : String)
  | unzip (archive path : String)
  | zip (archive path : String)
  | copyFile (src dst : String)
  | decompress (tool : DeltaTool) (diff diffp : String)
  | patch (tool : DeltaTool) (old new diff : String)
  | mkfsTime (squashFile : String)
  | unsquash (unsqCmd squashFile : String)
  | mksquash (unsqCmd packed options : String)
  deriving DecidableEq

/-- The answer to an operation: whether it reports success, and what it leaves where it
writes. A copy or an unpacking says what it leaves only when it fails. -/
@[reducible] def Op.Ans : Op → Type
  | newdirp _ | zip _ _ => Bool
  | unzip _ _ => Option (Files Bytes)
  | copyFile _ _ => Option (Option Bytes)
  | decompress _ _ _ | patch _ _ _ _ | mksquash _ _ _ => Bool × Option Bytes
  | mkfsTime _ => Option String
  | unsquash _ _ => Bool × Files Bytes

structure World where
  /-- What an archive holds. -/
  package : String → Files Bytes
  /-- The root that libxml finds in a file. -/
  xmlReadFile : Bytes → Option XmlNode
  sha256Hex : Bytes → String
  answer : Nat → Files Bytes → (o : Op) → o.Ans

structure Disk where
  files : Files Bytes
  asked : Nat
  /-- The tree that the new package was made of. -/
  zipped : Option (Files Bytes)

abbrev DeltaM := StateM Disk

def manifest : String := "manifest.xml"
def manifestDiff : String := "manifest_diff.xml"

/-- JOIN of texts that are there. -/
def joinAll (path : String) (parts : List String) : String := joinParts path (parts.map some)

def fileAt (path : String) : DeltaM (Option Bytes) := fun d => (d.files (resolve path), d)

def setFiles (f : Files Bytes → Files Bytes) : DeltaM Unit :=
  fun d => ((), { d with files := f d.files })

section Operations

variable (w : World)

def ask (o : Op) : DeltaM o.Ans :=
  fun d => (w.answer d.asked d.files o, { d with asked := d.asked + 1 })

/-- remove of a file. -/
def removeFile (path : String) : DeltaM Rc := do
  let found ← fileAt path
  setFiles fun files => write files (resolve path) none
  pure (if found.isSome then eUaOk else -1)

def rmdirp (path : String) : DeltaM Unit := setFiles fun files => removeTree files (resolve path)

/-- newdirp, where mkdir finding the name taken is no failure. -/
def newdirp (path : String) : DeltaM Rc := do
  rmdirp path
  let made ← ask w (.newdirp path)
  pure (if made then eUaOk else eUaSys)

def unzip (archive path : String) : DeltaM Rc := do
  match ← ask w (.unzip archive path) with
  | none =>
      setFiles fun files => unpack files (resolve path) (w.package archive)
      pure eUaOk
  | some left =>
      setFiles fun files => unpack files (resolve path) left
      pure eUaErr

def zip (archive path : String) : DeltaM Rc := do
  if ← ask w (.zip archive path) then
    modify fun d => { d with zipped := some (treeAt d.files (resolve path)) }
    pure eUaOk
  else pure eUaErr

/-- copy_file. A source that cannot be opened leaves the destination alone. -/
def copyFile (src dst : String) : DeltaM Rc := do
  match ← fileAt src with
  | none => pure eUaSys
  | some bytes =>
      match ← ask w (.copyFile src dst) with
      | none =>
          setFiles fun files => write files (resolve dst) (some bytes)
          pure eUaOk
      | some left =>
          setFiles fun files => write files (resolve dst) left
          pure eUaSys

/-- A command that writes one file. -/
def runTool (o : Op) (result : o.Ans → Bool × Option Bytes) (output : String) : DeltaM Bool := do
  let outcome ← ask w o
  setFiles fun files => write files (resolve output) (result outcome).2
  pure (result outcome).1

def decompress (tool : DeltaTool) (diff diffp : String) : DeltaM Bool :=
  runTool w (.decompress tool diff diffp) id diffp

def patch (tool : DeltaTool) (old new diff : String) : DeltaM Bool :=
  runTool w (.patch tool old new diff) id new

def mksquash (unsqCmd packed options : String) : DeltaM Bool :=
  runTool w (.mksquash unsqCmd packed options) id packed

def unsquash (unsqCmd squashFile : String) : DeltaM Bool := do
  let outcome ← ask w (.unsquash unsqCmd squashFile)
  setFiles fun files => replaceTree files (resolve unsqCmd) outcome.2
  pure outcome.1

/-- verify_file: a digest of the manifest is empty or as long as the one calculated. -/
def verifyFile (file : String) (sha256 : Sha256Hex) : DeltaM Rc := do
  match ← fileAt file with
  | none => pure eUaSys
  | some bytes => pure (if w.sha256Hex bytes = sha256.val then eUaOk else eUaErr)

end Operations

/-- HASH_FIND_STR in a table of tools. -/
def findTool (tools : List DeltaTool) (algo : String) : Option DeltaTool :=
  tools.find? fun tool => tool.algo = algo

/-- The text "%s" prints. -/
def printed (s : Option String) : String := s.getD "(null)"

def replaceAll (str : String) (oldChar newChar : Char) : String :=
  String.ofList (str.toList.map fun c => if c = oldChar then newChar else c)

/-- The first part of delta_patch: the tool that applies a diff of this format, if one is used. -/
def patchdth (stg : DeltaStg) (format : String) : Except Rc (Option DeltaTool) :=
  if format = "none" then .ok none
  else
    match findTool stg.patchTool format with
    | some tool => .ok (some tool)
    | none => .error eUaErr

section Reconstruction

variable (w : World) (stg : DeltaStg)

/-- The second part of delta_patch: the diff to apply, decompressed where the tool does not. -/
def diffp (compression : String) (tool : Option DeltaTool) (diff : String) :
    DeltaM (Except Rc String) := do
  if compression ≠ "none" ∧ ¬ tool.any DeltaTool.intl then
    match findTool stg.decompTool compression with
    | none => pure (.error eUaErr)
    | some decompdth =>
        if ← decompress w decompdth diff (diff ++ ".z") then pure (.ok (diff ++ ".z"))
        else pure (.error eUaSys)
  else pure (.ok diff)

/-- delta_patch; the manifest gives every changed file a format and a compression. -/
def deltaPatch (diffInfo : DiffInfo) (old new diff : String) : DeltaM Rc := do
  match patchdth stg (diffInfo.format.getD "") with
  | .error err => pure err
  | .ok tool =>
      match ← diffp w stg (diffInfo.compression.getD "") tool diff with
      | .error err => pure err
      | .ok file =>
          match tool with
          | some tool => return if ← patch w tool old new file then eUaOk else eUaSys
          | none => copyFile w file new

def squashDir (pkgDir : String) : String := joinAll stg.cacheDir ["art", pkgDir]

/-- The options mksquashfs gets: those of the manifest, or such as keep the old file's time. -/
def squashOptions (squashFile : String) (di : DiffInfo) (pkgDir : String) (repackaging : Bool) :
    DeltaM (Option String) := do
  if repackaging then pure (some (printed di.mkSquashFsOptions))
  else
    rmdirp (squashDir stg pkgDir)
    let output ← ask w (.mkfsTime squashFile)
    pure (output.map fun output => "-noI -noId -noD -noF -noX -noappend -mkfs-time " ++ output)

/-- The new file is replaced by the packed one, and checked. -/
def replaceImage (squashFile packed : String) (di : DiffInfo) : DeltaM Rc := do
  let removed ← removeFile squashFile
  let _ ← copyFile w packed squashFile
  let verified ← verifyFile w squashFile di.sha256New
  pure (if verified ≠ eUaOk then eUaErr else if removed < 0 then eUaSys else eUaOk)

def finishImage (squashFile packed : String) (di : DiffInfo) (repackaging : Bool) : DeltaM Rc :=
  if repackaging then replaceImage w squashFile packed di else pure eUaOk

/-- process_squashfs_image. -/
def processSquashfsImage (squashFile : String) (di : DiffInfo) (pkgDir : String)
    (repackaging : Bool) : DeltaM Rc := do
  match ← squashOptions w stg squashFile di pkgDir repackaging with
  | none => pure (-1)
  | some options =>
      let unsqCmd := joinAll (squashDir stg pkgDir)
        [if repackaging then "test1.bin" else "test.bin"]
      let str := replaceAll (printed (if repackaging then di.name else di.oldName)) '/' '%'
      let packed := joinAll (squashDir stg pkgDir) [str]
      if ← unsquash w unsqCmd squashFile then
        if ← mksquash w unsqCmd packed options then
          let status ← finishImage w squashFile packed di repackaging
          rmdirp unsqCmd
          pure status
        else pure eUaSys
      else pure eUaSys

/-- The directories of one reconstruction. -/
structure Dirs where
  pkgDir : String
  oldPath : String
  diffPath : String
  newPath : String

/-- process_squashfs_image for the entries that ask for it. -/
def processNested (squashFile : String) (di : DiffInfo) (pkgDir : String) (repackaging : Bool) :
    DeltaM Rc :=
  if di.nested then processSquashfsImage w stg squashFile di pkgDir repackaging else pure eUaOk

/-- A file is copied when it has the digest: whether that fails. -/
def verifiedCopy (src dst : String) (sha256 : Sha256Hex) : DeltaM Bool := do
  if (← verifyFile w src sha256) ≠ eUaOk then pure true
  else return (← copyFile w src dst) ≠ eUaOk

/-- A file is patched, and both ends checked: whether that fails. -/
def verifiedPatch (di : DiffInfo) (oldFile newFile diffFile : String) : DeltaM Bool := do
  if (← verifyFile w oldFile di.sha256Old) ≠ eUaOk then pure true
  else if (← deltaPatch w stg di oldFile newFile diffFile) ≠ eUaOk then pure true
  else return (← verifyFile w newFile di.sha256New) ≠ eUaOk

/-- What a file's type asks for: whether it fails. -/
def applyType (di : DiffInfo) (oldFile newFile diffFile : String) : DeltaM Bool :=
  match di.type with
  | .added => verifiedCopy w diffFile newFile di.sha256New
  | .unchanged => verifiedCopy w oldFile newFile di.sha256Old
  | .changed =>
      if di.nested then do return (← deltaPatch w stg di oldFile newFile diffFile) ≠ eUaOk
      else verifiedPatch w stg di oldFile newFile diffFile
  | .removed => pure false

/-- The loop's body: the entry's result. -/
def reconstructEntry (dirs : Dirs) (di : DiffInfo) : DeltaM Rc := do
  let oldFile := joinParts dirs.oldPath [if di.oldName.isSome then di.oldName else di.name]
  let diffFile := joinParts dirs.diffPath [di.name]
  let newFile := joinParts dirs.newPath [di.name]
  let unpacked ← processNested w stg oldFile di dirs.pkgDir false
  let oldFile :=
    if di.nested then
      joinAll stg.cacheDir ["art", dirs.pkgDir, replaceAll (printed di.oldName) '/' '%']
    else oldFile
  let failed ← applyType w stg di oldFile newFile diffFile
  let _ ← removeFile oldFile
  let _ ← removeFile diffFile
  let packed ← processNested w stg newFile di dirs.pkgDir true
  pure (if unpacked ≠ eUaOk ∨ failed ∨ packed ≠ eUaOk then eUaErr else eUaOk)

/-- The loop over the manifest, which does nothing more after a failure. -/
def reconstructEntries (dirs : Dirs) : List DiffInfo → DeltaM Rc
  | [] => pure eUaOk
  | di :: diList => do
      let err ← reconstructEntry w stg dirs di
      if err ≠ eUaOk then pure err else reconstructEntries dirs diList

/-- The name of the delta package's file, up to its last dot. -/
def pkgDirOf (diffPkgFile : String) : String :=
  let name := (baseName diffPkgFile).toList
  if '.' ∈ name then String.ofList (name.reverse.dropWhile (· ≠ '.')).tail.reverse
  else String.ofList name

def dirsOf (diffPkgFile : String) : Dirs where
  pkgDir := pkgDirOf diffPkgFile
  oldPath := joinAll stg.cacheDir ["delta", pkgDirOf diffPkgFile, "old"]
  diffPath := joinAll stg.cacheDir ["delta", pkgDirOf diffPkgFile, "diff"]
  newPath := joinAll stg.cacheDir ["delta", pkgDirOf diffPkgFile, "new"]

/-- parse_diff_manifest of the unpacked delta package. -/
def readManifest (dirs : Dirs) : DeltaM (Option (List DiffInfo)) := do
  let file ← fileAt (joinAll dirs.diffPath [manifestDiff])
  pure ((file.bind w.xmlReadFile).bind parseDiffManifest)

/-- Both packages are unpacked and the manifest is read. -/
def openPackages (dirs : Dirs) (oldPkgFile diffPkgFile : String) :
    DeltaM (Except Rc (List DiffInfo)) := do
  rmdirp (joinAll stg.cacheDir ["delta", dirs.pkgDir])
  if (← newdirp w dirs.oldPath) ≠ eUaOk then pure (.error eUaSys)
  else if (← newdirp w dirs.diffPath) ≠ eUaOk then pure (.error eUaSys)
  else if (← newdirp w dirs.newPath) ≠ eUaOk then pure (.error eUaSys)
  else if (← unzip w oldPkgFile dirs.oldPath) ≠ eUaOk then pure (.error eUaErr)
  else if (← unzip w diffPkgFile dirs.diffPath) ≠ eUaOk then pure (.error eUaErr)
  else
    match ← readManifest w dirs with
    | none => pure (.error eUaErr)
    | some diList => pure (.ok diList)

/-- The new package is made of the files and the manifest. -/
def packNew (dirs : Dirs) (newPkgFile : String) : DeltaM Rc := do
  rmdirp dirs.oldPath
  let err ← copyFile w (joinAll dirs.diffPath [manifest]) (joinAll dirs.newPath [manifest])
  if err ≠ eUaOk then
    pure eUaErr
  else
    rmdirp dirs.diffPath
    if (← zip w newPkgFile dirs.newPath) ≠ eUaOk then pure eUaErr else pure eUaOk

def removeDirs (dirs : Dirs) : DeltaM Unit := do
  rmdirp (squashDir stg dirs.pkgDir)
  rmdirp dirs.oldPath
  rmdirp dirs.diffPath
  rmdirp dirs.newPath

/-- The steps up to the first that fails. -/
def reconstruct (dirs : Dirs) (oldPkgFile diffPkgFile newPkgFile : String) : DeltaM Rc := do
  match ← openPackages w stg dirs oldPkgFile diffPkgFile with
  | .error err => pure err
  | .ok diList =>
      let err ← reconstructEntries w stg dirs diList
      if err ≠ eUaOk then pure err else packNew w dirs newPkgFile

def deltaReconstruct (oldPkgFile diffPkgFile newPkgFile : String) : DeltaM Rc := do
  let err ← reconstruct w stg (dirsOf stg diffPkgFile) oldPkgFile diffPkgFile newPkgFile
  removeDirs stg (dirsOf stg diffPkgFile)
  pure err

end Reconstruction

end EsyncUa.Deltas
