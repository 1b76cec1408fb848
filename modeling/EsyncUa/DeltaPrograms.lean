import EsyncUa.Executions
import EsyncUa.LinkedFiles
import EsyncUa.PatchCommands

/-!
Reconstruction of a package as a program of the operations it asks its host for, on a disk with
symbolic links and with commands that go to the shell as texts. Paths of PATH_MAX bytes cannot be
opened, so only the commands are cut where the code's buffers end. The host answers each
operation from the disk at that moment and the number of operations before it.
-/
namespace EsyncUa.DeltaPrograms

open JsonProperties Components Checksums DiffManifests FilePaths LinkedFiles Programs Executions
open Deltas (DeltaStg DeltaTool Dirs dirsOf findTool joinAll manifest manifestDiff patchdth printed
  replaceAll squashDir)
open PatchCommands (ToolExec)

abbrev Tree : Type := LinkedFiles.Tree Bytes

/-- A line for the shell. -/
inductive Command
  | mkfsTime (squashFile : String)
  | unsquash (unsqCmd squashFile : String)
  | mksquash (unsqCmd packed options : String)
  | tool (e : ToolExec)

def pathMax : Nat := 4096

/-- snprintf of a buffer of PATH_MAX bytes, of which it gets all but one. -/
def snprintf (text : String) : String := prefixWithin text.toList (pathMax - 2)

def Command.line : Command → String
  | mkfsTime squashFile => snprintf ("unsquashfs -mkfs-time " ++ squashFile)
  | unsquash unsqCmd squashFile => snprintf ("unsquashfs -d " ++ unsqCmd ++ " " ++ squashFile)
  | mksquash unsqCmd packed options =>
      snprintf ("mksquashfs " ++ unsqCmd ++ " " ++ packed ++ " " ++ options)
  | tool e => e.cmd

inductive Call
  | newdirp (path : String)
  | rmdirp (path : String)
  | unzip (archive path : String)
  | zip (archive path : String)
  | copyFile (src dst : String)
  | remove (path : String)
  | popen (c : Command)
  | system (c : Command)

@[reducible] def Call.Ans : Call → Type
  | newdirp _ | unzip _ _ | zip _ _ | copyFile _ _ | remove _ => Rc
  | rmdirp _ => Unit
  | popen _ => Option String
  | system _ => Bool

abbrev DeltaProg := Prog Tree Call.Ans

/-! The operations as the code calls them. -/

def newdirp (path : String) : DeltaProg Rc := Prog.perform (Call.newdirp path)

def rmdirp (path : String) : DeltaProg Unit := Prog.perform (Call.rmdirp path)

def unzip (archive path : String) : DeltaProg Rc := Prog.perform (Call.unzip archive path)

def zip (archive path : String) : DeltaProg Rc := Prog.perform (Call.zip archive path)

def copyFile (src dst : String) : DeltaProg Rc := Prog.perform (Call.copyFile src dst)

def remove (path : String) : DeltaProg Rc := Prog.perform (Call.remove path)

def popen (c : Command) : DeltaProg (Option String) := Prog.perform (Call.popen c)

def system (c : Command) : DeltaProg Bool := Prog.perform (Call.system c)

/-- Reading a file; links are followed. -/
def readFile (path : String) : DeltaProg (Option Bytes) := Prog.read fun tree => content tree path

/-- A file that can be accessed is removed. -/
def removeReadable (path : String) : DeltaProg Unit := do
  if (← readFile path).isSome then
    let _ ← remove path
  else pure ()

section Reconstruction

variable (sha256Hex : Bytes → String) (stg : DeltaStg)

/-- verify_file. -/
def verifyFile (file : String) (sha256 : Sha256Hex) : DeltaProg Rc := do
  match ← readFile file with
  | none => pure eUaSys
  | some bytes => pure (if sha256Hex bytes = sha256.val then eUaOk else eUaErr)

/-- The diff to apply, decompressed where the patch tool does not. -/
def diffp (compression : String) (tool : Option DeltaTool) (diff : String) :
    DeltaProg (Except Rc String) := do
  if compression ≠ "none" ∧ ¬ tool.any DeltaTool.intl then
    match findTool stg.decompTool compression with
    | none => pure (.error eUaErr)
    | some decompdth =>
        if ← system (.tool ⟨decompdth, diff, diff ++ ".z", none⟩) then
          pure (.ok (diff ++ ".z"))
        else pure (.error eUaSys)
  else pure (.ok diff)

/-- delta_patch. -/
def deltaPatch (diffInfo : DiffInfo) (old new diff : String) : DeltaProg Rc := do
  match patchdth stg (diffInfo.format.getD "") with
  | .error err => pure err
  | .ok tool =>
      match ← diffp stg (diffInfo.compression.getD "") tool diff with
      | .error err => pure err
      | .ok file =>
          match tool with
          | some tool =>
              return if ← system (.tool ⟨tool, old, new, some file⟩) then eUaOk else eUaSys
          | none => copyFile file new

/-- The options mksquashfs gets: those of the manifest, or such as keep the old file's time. -/
def squashOptions (squashFile : String) (di : DiffInfo) (pkgDir : String) (repackaging : Bool) :
    DeltaProg (Option String) := do
  if repackaging then pure (some (printed di.mkSquashFsOptions))
  else
    rmdirp (squashDir stg pkgDir)
    let output ← popen (.mkfsTime squashFile)
    pure (output.map fun output => "-noI -noId -noD -noF -noX -noappend -mkfs-time " ++ output)

/-- The new file is replaced by the packed one, and checked. -/
def replaceImage (squashFile packed : String) (di : DiffInfo) : DeltaProg Rc := do
  let removed ← remove squashFile
  let _ ← copyFile packed squashFile
  let verified ← verifyFile sha256Hex squashFile di.sha256New
  pure (if verified ≠ eUaOk then eUaErr else if removed < 0 then eUaSys else eUaOk)

def imageStatus (squashFile packed : String) (di : DiffInfo) (repackaging : Bool) :
    DeltaProg Rc :=
  if repackaging then replaceImage sha256Hex squashFile packed di else pure eUaOk

/-- What is left to do with a packed image. -/
def finishImage (unsqCmd squashFile packed : String) (di : DiffInfo) (repackaging : Bool) :
    DeltaProg Rc := do
  let status ← imageStatus sha256Hex squashFile packed di repackaging
  rmdirp unsqCmd
  pure status

/-- process_squashfs_image. -/
def processSquashfsImage (squashFile : String) (di : DiffInfo) (pkgDir : String)
    (repackaging : Bool) : DeltaProg Rc := do
  match ← squashOptions stg squashFile di pkgDir repackaging with
  | none => pure (-1)
  | some options =>
      let unsqCmd := joinAll (squashDir stg pkgDir)
        [if repackaging then "test1.bin" else "test.bin"]
      let str := replaceAll (printed (if repackaging then di.name else di.oldName)) '/' '%'
      let packed := joinAll (squashDir stg pkgDir) [str]
      if ← system (.unsquash unsqCmd squashFile) then
        if ← system (.mksquash unsqCmd packed options) then
          finishImage sha256Hex unsqCmd squashFile packed di repackaging
        else pure eUaSys
      else pure eUaSys

/-- process_squashfs_image for the entries that ask for it. -/
def processNested (squashFile : String) (di : DiffInfo) (pkgDir : String) (repackaging : Bool) :
    DeltaProg Rc :=
  if di.nested then processSquashfsImage sha256Hex stg squashFile di pkgDir repackaging
  else pure eUaOk

/-- A file is copied when it has the digest: whether that fails. -/
def verifiedCopy (src dst : String) (sha256 : Sha256Hex) : DeltaProg Bool := do
  let verified ← verifyFile sha256Hex src sha256
  if verified ≠ eUaOk then pure true
  else
    let copied ← copyFile src dst
    return copied ≠ eUaOk

/-- A file is patched, and both ends checked: whether that fails. -/
def verifiedPatch (di : DiffInfo) (oldFile newFile diffFile : String) : DeltaProg Bool := do
  let verified ← verifyFile sha256Hex oldFile di.sha256Old
  if verified ≠ eUaOk then pure true
  else
    let patched ← deltaPatch stg di oldFile newFile diffFile
    if patched ≠ eUaOk then pure true
    else
      let made ← verifyFile sha256Hex newFile di.sha256New
      return made ≠ eUaOk

/-- What a file's type asks for: whether it fails. -/
def applyType (di : DiffInfo) (oldFile newFile diffFile : String) : DeltaProg Bool :=
  match di.type with
  | .added => verifiedCopy sha256Hex diffFile newFile di.sha256New
  | .unchanged => verifiedCopy sha256Hex oldFile newFile di.sha256Old
  | .changed =>
      if di.nested then do
        let patched ← deltaPatch stg di oldFile newFile diffFile
        return patched ≠ eUaOk
      else verifiedPatch sha256Hex stg di oldFile newFile diffFile
  | .removed => pure false

/-- The old file in the unpacked old package. -/
def originalOf (dirs : Dirs) (di : DiffInfo) : String :=
  joinParts dirs.oldPath [if di.oldName.isSome then di.oldName else di.name]

/-- The old file that an entry is applied to, and that is removed after it. -/
def oldFileOf (dirs : Dirs) (di : DiffInfo) : String :=
  if di.nested then
    joinAll stg.cacheDir ["art", dirs.pkgDir, replaceAll (printed di.oldName) '/' '%']
  else originalOf dirs di

def diffFileOf (dirs : Dirs) (di : DiffInfo) : String := joinParts dirs.diffPath [di.name]

def newFileOf (dirs : Dirs) (di : DiffInfo) : String := joinParts dirs.newPath [di.name]

/-- The loop's body: the entry's result. -/
def reconstructEntry (dirs : Dirs) (di : DiffInfo) : DeltaProg Rc := do
  let unpacked ← processNested sha256Hex stg (originalOf dirs di) di dirs.pkgDir false
  let failed ←
    applyType sha256Hex stg di (oldFileOf stg dirs di) (newFileOf dirs di) (diffFileOf dirs di)
  removeReadable (oldFileOf stg dirs di)
  removeReadable (diffFileOf dirs di)
  let packed ← processNested sha256Hex stg (newFileOf dirs di) di dirs.pkgDir true
  pure (if unpacked ≠ eUaOk ∨ failed ∨ packed ≠ eUaOk then eUaErr else eUaOk)

/-- The loop over the manifest, which does nothing more after a failure. -/
def reconstructEntries (dirs : Dirs) : List DiffInfo → DeltaProg Rc
  | [] => pure eUaOk
  | di :: diList => do
      let err ← reconstructEntry sha256Hex stg dirs di
      if err ≠ eUaOk then pure err else reconstructEntries dirs diList

variable (xmlReadFile : Bytes → Option XmlNode)

/-- The directories of a reconstruction are made anew. -/
def makeDirs (dirs : Dirs) : DeltaProg Rc := do
  rmdirp (joinAll stg.cacheDir ["delta", dirs.pkgDir])
  let old ← newdirp dirs.oldPath
  if old ≠ eUaOk then pure eUaSys
  else
    let diff ← newdirp dirs.diffPath
    if diff ≠ eUaOk then pure eUaSys
    else
      let new ← newdirp dirs.newPath
      if new ≠ eUaOk then pure eUaSys else pure eUaOk

/-- parse_diff_manifest of the unpacked delta package. -/
def readManifest (dirs : Dirs) : DeltaProg (Option (List DiffInfo)) := do
  let file ← readFile (joinAll dirs.diffPath [manifestDiff])
  pure ((file.bind xmlReadFile).bind parseDiffManifest)

/-- Both packages are unpacked and the manifest is read. -/
def unpackPackages (dirs : Dirs) (oldPkgFile diffPkgFile : String) :
    DeltaProg (Except Rc (List DiffInfo)) := do
  let old ← unzip oldPkgFile dirs.oldPath
  if old ≠ eUaOk then pure (.error eUaErr)
  else
    let diff ← unzip diffPkgFile dirs.diffPath
    if diff ≠ eUaOk then pure (.error eUaErr)
    else
      match ← readManifest xmlReadFile dirs with
      | none => pure (.error eUaErr)
      | some diList => pure (.ok diList)

def openPackages (dirs : Dirs) (oldPkgFile diffPkgFile : String) :
    DeltaProg (Except Rc (List DiffInfo)) := do
  let made ← makeDirs stg dirs
  if made ≠ eUaOk then pure (.error made)
  else unpackPackages xmlReadFile dirs oldPkgFile diffPkgFile

/-- The new package is made of the files and the manifest. -/
def packNew (dirs : Dirs) (newPkgFile : String) : DeltaProg Rc := do
  rmdirp dirs.oldPath
  let copied ←
    copyFile (joinAll dirs.diffPath [manifest]) (joinAll dirs.newPath [manifest])
  if copied ≠ eUaOk then pure eUaErr
  else
    rmdirp dirs.diffPath
    let zipped ← zip newPkgFile dirs.newPath
    if zipped ≠ eUaOk then pure eUaErr else pure eUaOk

def removeDirs (dirs : Dirs) : DeltaProg Unit := do
  rmdirp (squashDir stg dirs.pkgDir)
  rmdirp dirs.oldPath
  rmdirp dirs.diffPath
  rmdirp dirs.newPath

/-- The steps up to the first that fails. -/
def reconstruct (dirs : Dirs) (oldPkgFile diffPkgFile newPkgFile : String) : DeltaProg Rc := do
  match ← openPackages stg xmlReadFile dirs oldPkgFile diffPkgFile with
  | .error err => pure err
  | .ok diList =>
      let err ← reconstructEntries sha256Hex stg dirs diList
      if err ≠ eUaOk then pure err else packNew dirs newPkgFile

/-- delta_reconstruct. -/
def deltaReconstruct (oldPkgFile diffPkgFile newPkgFile : String) : DeltaProg Rc := do
  let dirs := dirsOf stg diffPkgFile
  let err ← reconstruct sha256Hex stg xmlReadFile dirs oldPkgFile diffPkgFile newPkgFile
  removeDirs stg dirs
  pure err

end Reconstruction

/-- What the program gets from outside: libxml, SHA-256, the packages and every outcome. An
unpacking or a copy says what it leaves only when it fails, a line for the shell leaves any
disk. -/
structure Host where
  package : String → Tree
  xmlReadFile : Bytes → Option XmlNode
  sha256Hex : Bytes → String
  mkdirs : Nat → Tree → String → Bool
  unzips : Nat → Tree → String → String → Option Tree
  zips : Nat → Tree → String → String → Bool
  copies : Nat → Tree → String → String → Option (Option Bytes)
  popens : Nat → Tree → String → Option String × Tree
  systems : Nat → Tree → String → Bool × Tree

structure Disk where
  tree : Tree
  asked : Nat
  /-- The tree that the new package was made of. -/
  zipped : Option (Files Bytes)

namespace Disk

/-- The disk after an operation. -/
def next (d : Disk) (tree : Tree) : Disk := { d with tree := tree, asked := d.asked + 1 }

@[simp] theorem next_tree (d : Disk) (tree : Tree) : (d.next tree).tree = tree := rfl

@[simp] theorem next_zipped (d : Disk) (tree : Tree) : (d.next tree).zipped = d.zipped := rfl

/-- The files below a directory, read through the links among them. -/
def filesBelow (tree : Tree) (dir : Path) : Files Bytes :=
  fun q => (walk tree maxLinks dir q).bind (fileAt tree)

end Disk

namespace Host

variable (w : Host)

def unzip (d : Disk) (archive path : String) : Rc × Disk :=
  match place d.tree path with
  | none => (eUaErr, d.next d.tree)
  | some dir =>
      match w.unzips d.asked d.tree archive path with
      | none => (eUaOk, d.next (unpack d.tree dir (w.package archive)))
      | some left => (eUaErr, d.next (unpack d.tree dir left))

/-- An archive that is there is removed before it is made. -/
def zip (d : Disk) (archive path : String) : Rc × Disk :=
  let tree := unlink d.tree archive
  if w.zips d.asked d.tree archive path then
    (eUaOk, { d.next tree with zipped := (place tree path).map (Disk.filesBelow tree) })
  else (eUaErr, d.next tree)

/-- copy_file. A source that cannot be opened leaves the destination alone. -/
def copyFile (d : Disk) (src dst : String) : Rc × Disk :=
  match content d.tree src with
  | none => (eUaSys, d.next d.tree)
  | some bytes =>
      match w.copies d.asked d.tree src dst with
      | none =>
          (if (place d.tree dst).isSome then eUaOk else eUaSys,
            d.next (store d.tree dst (some bytes)))
      | some left => (eUaSys, d.next (store d.tree dst left))

def remove (d : Disk) (path : String) : Rc × Disk :=
  (if ((spot d.tree path).bind d.tree).isSome then eUaOk else -1, d.next (unlink d.tree path))

/-- newdirp, where mkdir finding the name taken is no failure. -/
def newdirp (d : Disk) (path : String) : Rc × Disk :=
  (if w.mkdirs d.asked d.tree path then eUaOk else eUaSys, d.next (removeDir d.tree path))

def popen (d : Disk) (c : Command) : Option String × Disk :=
  ((w.popens d.asked d.tree c.line).1, d.next (w.popens d.asked d.tree c.line).2)

/-- Whether the line succeeds. -/
def system (d : Disk) (c : Command) : Bool × Disk :=
  ((w.systems d.asked d.tree c.line).1, d.next (w.systems d.asked d.tree c.line).2)

def act (d : Disk) : (c : Call) → c.Ans × Disk
  | .newdirp path => w.newdirp d path
  | .rmdirp path => ((), d.next (removeDir d.tree path))
  | .unzip archive path => w.unzip d archive path
  | .zip archive path => w.zip d archive path
  | .copyFile src dst => w.copyFile d src dst
  | .remove path => remove d path
  | .popen c => w.popen d c
  | .system c => w.system d c

def handler : Handler Tree Disk Call.Ans := ⟨Disk.tree, w.act⟩

@[simp] theorem run_readFile (path : String) (d : Disk) :
    w.handler.run (readFile path) d = (content d.tree path, d) := rfl

@[simp] theorem run_newdirp (path : String) (d : Disk) :
    w.handler.run (DeltaPrograms.newdirp path) d = w.newdirp d path := rfl

@[simp] theorem run_rmdirp (path : String) (d : Disk) :
    w.handler.run (rmdirp path) d = ((), d.next (removeDir d.tree path)) := rfl

@[simp] theorem run_unzip (archive path : String) (d : Disk) :
    w.handler.run (DeltaPrograms.unzip archive path) d = w.unzip d archive path := rfl

@[simp] theorem run_zip (archive path : String) (d : Disk) :
    w.handler.run (DeltaPrograms.zip archive path) d = w.zip d archive path := rfl

@[simp] theorem run_copyFile (src dst : String) (d : Disk) :
    w.handler.run (DeltaPrograms.copyFile src dst) d = w.copyFile d src dst := rfl

@[simp] theorem run_remove (path : String) (d : Disk) :
    w.handler.run (DeltaPrograms.remove path) d = remove d path := rfl

@[simp] theorem run_system (c : Command) (d : Disk) :
    w.handler.run (DeltaPrograms.system c) d = w.system d c := rfl

/-- delta_reconstruct on the host. -/
def deltaReconstruct (stg : DeltaStg) (oldPkgFile diffPkgFile newPkgFile : String) (d : Disk) :
    Rc × Disk :=
  w.handler.run (DeltaPrograms.deltaReconstruct w.sha256Hex stg w.xmlReadFile oldPkgFile
    diffPkgFile newPkgFile) d

end Host

end EsyncUa.DeltaPrograms
