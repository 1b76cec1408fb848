import EsyncUa.DeltaFrames
import EsyncUa.DeltaPrograms

/-!
The reconstruction on a disk without links, where each command is read as it is meant and leaves
alone what it is not for: what the program does there is what the plain model of it computes.
-/
namespace EsyncUa.PlainDeltas

open JsonProperties Components Checksums DiffManifests FilePaths LinkedFiles Programs Executions
open DeltaPrograms (Call Command DeltaProg)
open Deltas (DeltaM DeltaStg DeltaTool Dirs World dirsOf)
open DeltaFrames (bind_run ite_run pure_run)

/-- The files of a disk without links. -/
def treeOf (files : Files Bytes) : DeltaPrograms.Tree := fun p => (files p).map .file

theorem unlinked_treeOf (files : Files Bytes) : Unlinked (treeOf files) [] := by
  intro q _
  unfold linkAt treeOf
  cases files q <;> rfl

theorem content_treeOf (files : Files Bytes) (path : String) :
    content (treeOf files) path = files (resolve path) := by
  rw [content, place_without_links (unlinked_treeOf files), Option.bind_some]
  unfold fileAt treeOf
  cases files (resolve path) <;> rfl

/-- The operation of the plain model that a command stands for. -/
def system (w : World) : Command → DeltaM Bool
  | .mkfsTime _ => pure false
  | .unsquash unsqCmd squashFile => Deltas.unsquash w unsqCmd squashFile
  | .mksquash unsqCmd packed options => Deltas.mksquash w unsqCmd packed options
  | .tool e =>
      match e.diff with
      | none => Deltas.decompress w e.tool e.old e.new
      | some diff => Deltas.patch w e.tool e.old e.new diff

def popen (w : World) : Command → DeltaM (Option String)
  | .mkfsTime squashFile => Deltas.ask w (.mkfsTime squashFile)
  | _ => pure none

def act (w : World) (d : Deltas.Disk) : (c : Call) → c.Ans × Deltas.Disk
  | .newdirp path => Deltas.newdirp w path d
  | .rmdirp path => Deltas.rmdirp path d
  | .unzip archive path => Deltas.unzip w archive path d
  | .zip archive path => Deltas.zip w archive path d
  | .copyFile src dst => Deltas.copyFile w src dst d
  | .remove path => Deltas.removeFile path d
  | .popen c => popen w c d
  | .system c => system w c d

def handler (w : World) : Handler DeltaPrograms.Tree Deltas.Disk Call.Ans :=
  ⟨fun d => treeOf d.files, act w⟩

/-- The program does what the plain model says. -/
def Runs {α : Type} (w : World) (p : DeltaProg α) (m : DeltaM α) : Prop :=
  ∀ d, (handler w).run p d = m d

section Rules

variable {α β : Type} {w : World}

theorem Runs.bind {p : DeltaProg α} {f : α → DeltaProg β} {m : DeltaM α} {g : α → DeltaM β}
    (hp : Runs w p m) (hf : ∀ a, Runs w (f a) (g a)) : Runs w (p >>= f) (m >>= g) := by
  intro d
  rw [Handler.run_bind, hp d, bind_run]
  exact hf _ _

theorem Runs.pure (a : α) : Runs w (Prog.pure a) (Pure.pure a) := fun _ => rfl

theorem Runs.ite {c : Prop} [Decidable c] {p q : DeltaProg α} {m m' : DeltaM α}
    (hp : Runs w p m) (hq : Runs w q m') :
    Runs w (if c then p else q) (if c then m else m') := by
  split
  · exact hp
  · exact hq

theorem runs_perform (c : Call) : Runs w (Prog.perform c) (fun d => act w d c) := fun _ => rfl

theorem runs_readFile (path : String) :
    Runs w (DeltaPrograms.readFile path) (Deltas.fileAt path) := by
  intro d
  exact congrArg (·, d) (content_treeOf d.files path)

end Rules

section Reconstruction

variable (w : World) (stg : DeltaStg)

theorem runs_verifyFile (file : String) (sha256 : Sha256Hex) :
    Runs w (DeltaPrograms.verifyFile w.sha256Hex file sha256)
      (Deltas.verifyFile w file sha256) := by
  refine (runs_readFile file).bind fun found => ?_
  cases found with
  | none => exact .pure _
  | some bytes => exact .pure _

theorem runs_diffp (compression : String) (tool : Option DeltaTool) (diff : String) :
    Runs w (DeltaPrograms.diffp stg compression tool diff)
      (Deltas.diffp w stg compression tool diff) := by
  unfold DeltaPrograms.diffp Deltas.diffp
  refine .ite ?_ (.pure _)
  cases Deltas.findTool stg.decompTool compression with
  | none => exact .pure _
  | some decompdth =>
      exact Runs.bind (runs_perform (.system (.tool ⟨decompdth, diff, diff ++ ".z", none⟩)))
        fun _ => .ite (.pure _) (.pure _)

theorem runs_deltaPatch (di : DiffInfo) (old new diff : String) :
    Runs w (DeltaPrograms.deltaPatch stg di old new diff)
      (Deltas.deltaPatch w stg di old new diff) := by
  unfold DeltaPrograms.deltaPatch Deltas.deltaPatch
  cases Deltas.patchdth stg (di.format.getD "") with
  | error err => exact .pure _
  | ok tool =>
      refine (runs_diffp w stg _ tool diff).bind fun found => ?_
      cases found with
      | error err => exact .pure _
      | ok file =>
          cases tool with
          | some tool =>
              exact Runs.bind (runs_perform (.system (.tool ⟨tool, old, new, some file⟩)))
                fun _ => .pure _
          | none => exact runs_perform (.copyFile file new)

theorem runs_squashOptions (squashFile : String) (di : DiffInfo) (pkgDir : String)
    (repackaging : Bool) :
    Runs w (DeltaPrograms.squashOptions stg squashFile di pkgDir repackaging)
      (Deltas.squashOptions w stg squashFile di pkgDir repackaging) :=
  .ite (.pure _) (Runs.bind (runs_perform (.rmdirp (Deltas.squashDir stg pkgDir))) fun _ =>
    Runs.bind (runs_perform (.popen (.mkfsTime squashFile))) fun _ => .pure _)

theorem runs_replaceImage (squashFile packed : String) (di : DiffInfo) :
    Runs w (DeltaPrograms.replaceImage w.sha256Hex squashFile packed di)
      (Deltas.replaceImage w squashFile packed di) :=
  Runs.bind (runs_perform (.remove squashFile)) fun _ =>
    Runs.bind (runs_perform (.copyFile packed squashFile)) fun _ =>
      (runs_verifyFile w _ _).bind fun _ => .pure _

theorem runs_processNested (squashFile : String) (di : DiffInfo) (pkgDir : String)
    (repackaging : Bool) :
    Runs w (DeltaPrograms.processNested w.sha256Hex stg squashFile di pkgDir repackaging)
      (Deltas.processNested w stg squashFile di pkgDir repackaging) := by
  have hfinish : ∀ unsqCmd packed, Runs w
      (DeltaPrograms.finishImage w.sha256Hex unsqCmd squashFile packed di repackaging) (do
        let status ← Deltas.finishImage w squashFile packed di repackaging
        Deltas.rmdirp unsqCmd
        pure status) := by
    intro unsqCmd packed
    refine Runs.bind (.ite (runs_replaceImage w _ _ _) (.pure _)) fun status => ?_
    exact Runs.bind (runs_perform (.rmdirp unsqCmd)) fun _ => .pure _
  unfold DeltaPrograms.processNested Deltas.processNested
  refine .ite ?_ (.pure _)
  unfold DeltaPrograms.processSquashfsImage Deltas.processSquashfsImage
  refine (runs_squashOptions w stg _ _ _ _).bind fun found => ?_
  cases found with
  | none => exact .pure _
  | some options =>
      refine Runs.bind (runs_perform (.system (.unsquash _ squashFile))) fun _ => .ite ?_ (.pure _)
      refine Runs.bind (runs_perform (.system (.mksquash _ _ options))) fun _ => .ite ?_ (.pure _)
      exact hfinish _ _

theorem runs_applyType (di : DiffInfo) (oldFile newFile diffFile : String) :
    Runs w (DeltaPrograms.applyType w.sha256Hex stg di oldFile newFile diffFile)
      (Deltas.applyType w stg di oldFile newFile diffFile) := by
  have hcopy : ∀ src dst sha256, Runs w
      (DeltaPrograms.verifiedCopy w.sha256Hex src dst sha256)
      (Deltas.verifiedCopy w src dst sha256) := fun src dst sha256 =>
    (runs_verifyFile w src sha256).bind fun _ => .ite (.pure _)
      (Runs.bind (runs_perform (.copyFile src dst)) fun _ => .pure _)
  have hpatch := runs_deltaPatch w stg di oldFile newFile diffFile
  unfold DeltaPrograms.applyType Deltas.applyType
  cases di.type with
  | added => exact hcopy _ _ _
  | unchanged => exact hcopy _ _ _
  | changed =>
      refine .ite (hpatch.bind fun _ => .pure _) ?_
      exact (runs_verifyFile w _ _).bind fun _ => .ite (.pure _)
        (hpatch.bind fun _ => .ite (.pure _) ((runs_verifyFile w _ _).bind fun _ => .pure _))
  | removed => exact .pure _

/-- A file that cannot be read is not there, and removing it changes nothing. -/
theorem removeReadable_run (path : String) (d : Deltas.Disk) :
    (handler w).run (DeltaPrograms.removeReadable path) d =
      ((), (Deltas.removeFile path d).2) := by
  unfold DeltaPrograms.removeReadable
  rw [Handler.run_bind, runs_readFile, Handler.run_ite]
  unfold Deltas.removeFile
  rw [bind_run, bind_run, pure_run]
  by_cases hfile : (d.files (resolve path)).isSome
  · rw [if_pos (by exact hfile)]
    rfl
  · have hsame : write d.files (resolve path) none = d.files := by
      rw [write, ← Option.not_isSome_iff_eq_none.mp hfile, Function.update_eq_self]
    rw [if_neg (by exact hfile)]
    dsimp only [Deltas.fileAt, Deltas.setFiles]
    rw [hsame]
    rfl

theorem runs_reconstructEntry (dirs : Dirs) (di : DiffInfo) :
    Runs w (DeltaPrograms.reconstructEntry w.sha256Hex stg dirs di)
      (Deltas.reconstructEntry w stg dirs di) := by
  intro d
  rw [DeltaFrames.reconstructEntry_run]
  have hunpack := runs_processNested w stg (DeltaPrograms.originalOf dirs di) di dirs.pkgDir false
  have happly := runs_applyType w stg di (DeltaPrograms.oldFileOf stg dirs di)
    (DeltaPrograms.newFileOf dirs di) (DeltaPrograms.diffFileOf dirs di)
  have hpack := runs_processNested w stg (DeltaPrograms.newFileOf dirs di) di dirs.pkgDir true
  unfold DeltaPrograms.reconstructEntry
  rw [Handler.run_bind, hunpack, Handler.run_bind, happly, Handler.run_bind, removeReadable_run,
    Handler.run_bind, removeReadable_run, Handler.run_bind, hpack]
  rfl

theorem runs_reconstructEntries (dirs : Dirs) (diList : List DiffInfo) :
    Runs w (DeltaPrograms.reconstructEntries w.sha256Hex stg dirs diList)
      (Deltas.reconstructEntries w stg dirs diList) := by
  induction diList with
  | nil => exact .pure _
  | cons di diList ih =>
      exact (runs_reconstructEntry w stg dirs di).bind fun _ => .ite (.pure _) ih

theorem runs_packNew (dirs : Dirs) (newPkgFile : String) :
    Runs w (DeltaPrograms.packNew dirs newPkgFile) (Deltas.packNew w dirs newPkgFile) :=
  Runs.bind (runs_perform (.rmdirp dirs.oldPath)) fun _ =>
    Runs.bind (runs_perform (.copyFile _ _)) fun _ => .ite (.pure _)
      (Runs.bind (runs_perform (.rmdirp dirs.diffPath)) fun _ =>
        Runs.bind (runs_perform (.zip newPkgFile dirs.newPath)) fun _ => .ite (.pure _) (.pure _))

theorem runs_removeDirs (dirs : Dirs) :
    Runs w (DeltaPrograms.removeDirs stg dirs) (Deltas.removeDirs stg dirs) :=
  Runs.bind (runs_perform (.rmdirp (Deltas.squashDir stg dirs.pkgDir))) fun _ =>
    Runs.bind (runs_perform (.rmdirp dirs.oldPath)) fun _ =>
      Runs.bind (runs_perform (.rmdirp dirs.diffPath)) fun _ =>
        runs_perform (.rmdirp dirs.newPath)

/-- What follows the making of a directory waits for it in both. -/
theorem runs_afterNewdirp {α : Type} {path : String} {q : DeltaProg Rc}
    {k : DeltaProg (Except Rc α)} {m : DeltaM (Except Rc α)}
    (h : Runs w (q >>= fun made => if made ≠ eUaOk then pure (.error made) else k) m) :
    Runs w
      ((DeltaPrograms.newdirp path >>= fun made => if made ≠ eUaOk then pure eUaSys else q) >>=
        fun made => if made ≠ eUaOk then pure (.error made) else k)
      (do if (← Deltas.newdirp w path) ≠ eUaOk then pure (.error eUaSys) else m) := by
  intro d
  have hmade : (handler w).run (DeltaPrograms.newdirp path) d = Deltas.newdirp w path d := rfl
  rw [bind_assoc, Handler.run_bind, hmade, bind_run, ite_run]
  split
  · rfl
  · exact h _

theorem runs_openPackages (dirs : Dirs) (oldPkgFile diffPkgFile : String) :
    Runs w (DeltaPrograms.openPackages stg w.xmlReadFile dirs oldPkgFile diffPkgFile)
      (Deltas.openPackages w stg dirs oldPkgFile diffPkgFile) := by
  have hread : Runs w (DeltaPrograms.readManifest w.xmlReadFile dirs)
      (Deltas.readManifest w dirs) := (runs_readFile _).bind fun _ => .pure _
  unfold DeltaPrograms.openPackages DeltaPrograms.makeDirs Deltas.openPackages
  rw [bind_assoc]
  refine Runs.bind (runs_perform (.rmdirp _)) fun _ => ?_
  refine runs_afterNewdirp w (runs_afterNewdirp w (runs_afterNewdirp w ?_))
  rw [pure_bind, if_neg fun h => h rfl]
  refine Runs.bind (runs_perform (.unzip oldPkgFile dirs.oldPath)) fun _ => .ite (.pure _) ?_
  refine Runs.bind (runs_perform (.unzip diffPkgFile dirs.diffPath)) fun _ => .ite (.pure _) ?_
  refine hread.bind fun found => ?_
  cases found with
  | none => exact .pure _
  | some diList => exact .pure _

theorem runs_reconstruct (dirs : Dirs) (oldPkgFile diffPkgFile newPkgFile : String) :
    Runs w (DeltaPrograms.reconstruct w.sha256Hex stg w.xmlReadFile dirs oldPkgFile diffPkgFile
        newPkgFile)
      (Deltas.reconstruct w stg dirs oldPkgFile diffPkgFile newPkgFile) := by
  refine (runs_openPackages w stg dirs oldPkgFile diffPkgFile).bind fun opened => ?_
  cases opened with
  | error err => exact .pure _
  | ok diList =>
      exact (runs_reconstructEntries w stg dirs diList).bind fun _ => .ite (.pure _)
        (runs_packNew w dirs newPkgFile)

/-- On a disk without links, with commands that are read as they are meant, the program is the
plain reconstruction. -/
theorem runs_deltaReconstruct (oldPkgFile diffPkgFile newPkgFile : String) :
    Runs w (DeltaPrograms.deltaReconstruct w.sha256Hex stg w.xmlReadFile oldPkgFile diffPkgFile
        newPkgFile)
      (Deltas.deltaReconstruct w stg oldPkgFile diffPkgFile newPkgFile) :=
  (runs_reconstruct w stg _ _ _ _).bind fun _ => (runs_removeDirs w stg _).bind fun _ => .pure _

end Reconstruction

end EsyncUa.PlainDeltas
