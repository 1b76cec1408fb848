import EsyncUa.DeltaFrames
import EsyncUa.Preparations

/-!
The preparation of a delta package that cannot be applied. The reconstruction is the code's own
here, over tools and archives that answer as they like. Its caller tells one failure from the
others: that a directory cannot be made.
-/
namespace EsyncUa.IncrementalFallbacks

open EsyncUa.JsonProperties EsyncUa.Components EsyncUa.Checksums EsyncUa.Programs
open EsyncUa.Operations hiding World Op
open EsyncUa.Installation EsyncUa.FilePaths EsyncUa.PackageDigests EsyncUa.PackageManifests
open EsyncUa.Footprints EsyncUa.Rehearsals
open EsyncUa.FileWorlds EsyncUa.Preparations EsyncUa.EntryLookups
open EsyncUa.DiffManifests EsyncUa.DeltaFrames
open EsyncUa.Deltas hiding copyFile

section Reconstruction

variable {α : Type}

/-- Whatever is answered, the program returns E_UA_OK or E_UA_ERR. -/
def OkOrErr (m : DeltaM Rc) : Prop := ∀ d, (m d).1 = eUaOk ∨ (m d).1 = eUaErr

theorem OkOrErr.bind {m : DeltaM α} {f : α → DeltaM Rc} (hf : ∀ a, OkOrErr (f a)) :
    OkOrErr (m >>= f) := fun _ => hf _ _

theorem OkOrErr.ite {c : Prop} [Decidable c] {m m' : DeltaM Rc} (hm : OkOrErr m)
    (hm' : OkOrErr m') : OkOrErr (if c then m else m') := by
  split
  · exact hm
  · exact hm'

theorem OkOrErr.ok : OkOrErr (pure eUaOk) := fun _ => .inl rfl

theorem OkOrErr.err : OkOrErr (pure eUaErr) := fun _ => .inr rfl

variable (w : World) (stg : DeltaStg)

theorem reconstructEntry_okOrErr (dirs : Dirs) (di : DiffInfo) :
    OkOrErr (reconstructEntry w stg dirs di) := by
  unfold reconstructEntry
  refine .bind fun unpacked => .bind fun failed => .bind fun _ => .bind fun _ =>
    .bind fun packed => ?_
  split
  · exact .err
  · exact .ok

theorem reconstructEntries_okOrErr (dirs : Dirs) (diList : List DiffInfo) :
    OkOrErr (reconstructEntries w stg dirs diList) := by
  induction diList with
  | nil => exact .ok
  | cons di diList ih =>
      intro d
      unfold reconstructEntries
      rw [bind_run, ite_run]
      split
      · exact reconstructEntry_okOrErr w stg dirs di d
      · exact ih _

theorem packNew_okOrErr (dirs : Dirs) (newPkgFile : String) :
    OkOrErr (packNew w dirs newPkgFile) :=
  .bind fun _ => .bind fun _ => .ite .err (.bind fun _ => .bind fun _ => .ite .err .ok)

/-- The files when newdirp has removed what was there. -/
def cleared (files : Files Bytes) (paths : List String) : Files Bytes :=
  paths.foldl (fun files path => removeTree files (resolve path)) files

theorem cleared_cleared (files : Files Bytes) (paths paths' : List String) :
    cleared (cleared files paths) paths' = cleared files (paths ++ paths') :=
  List.foldl_append.symm

/-- The directory of a delta package below the one for all of them. -/
def deltaPkgDir (dirs : Dirs) : String := joinAll stg.cacheDir ["delta", dirs.pkgDir]

/-- The directories of a reconstruction can be made. -/
structure DirsMade (dirs : Dirs) (files : Files Bytes) : Prop where
  old : w.answer 0 (cleared files [deltaPkgDir stg dirs, dirs.oldPath]) (.newdirp dirs.oldPath)
  diff : w.answer 1 (cleared files [deltaPkgDir stg dirs, dirs.oldPath, dirs.diffPath])
    (.newdirp dirs.diffPath)
  new : w.answer 2 (cleared files [deltaPkgDir stg dirs, dirs.oldPath, dirs.diffPath, dirs.newPath])
    (.newdirp dirs.newPath)

/-- What follows is done in a directory that newdirp has made. -/
def inDir (path : String) (k : DeltaM (Except Rc (List DiffInfo))) :
    DeltaM (Except Rc (List DiffInfo)) := do
  if (← newdirp w path) ≠ eUaOk then pure (.error eUaSys) else k

theorem inDir_run (path : String) (k : DeltaM (Except Rc (List DiffInfo))) (files : Files Bytes)
    (n : Nat) :
    inDir w path k ⟨files, n, none⟩ =
      if w.answer n (cleared files [path]) (.newdirp path) then
        k ⟨cleared files [path], n + 1, none⟩
      else (.error eUaSys, ⟨cleared files [path], n + 1, none⟩) := by
  have hmade : newdirp w path ⟨files, n, none⟩ =
    (if w.answer n (cleared files [path]) (.newdirp path) then eUaOk else eUaSys,
      ⟨cleared files [path], n + 1, none⟩) := rfl
  unfold inDir
  rw [bind_run, hmade, ite_run]
  split
  · rw [if_neg (fun h => h rfl)]
  · rw [if_pos (show eUaSys ≠ eUaOk by decide)]
    rfl

/-- What openPackages does in the directories it has made. -/
def unpackBoth (dirs : Dirs) (oldPkgFile diffPkgFile : String) :
    DeltaM (Except Rc (List DiffInfo)) := do
  if (← unzip w oldPkgFile dirs.oldPath) ≠ eUaOk then pure (.error eUaErr)
  else if (← unzip w diffPkgFile dirs.diffPath) ≠ eUaOk then pure (.error eUaErr)
  else
    match ← readManifest w dirs with
    | none => pure (.error eUaErr)
    | some diList => pure (.ok diList)

theorem unpackBoth_err {dirs : Dirs} {oldPkgFile diffPkgFile : String} {d : Disk} {err : Rc}
    (h : (unpackBoth w dirs oldPkgFile diffPkgFile d).1 = .error err) : err = eUaErr := by
  unfold unpackBoth at h
  rw [bind_run, ite_run] at h
  split at h
  · cases h
    rfl
  · rw [bind_run, ite_run] at h
    split at h
    · cases h
      rfl
    · rw [bind_run] at h
      generalize readManifest w dirs _ = r at h
      obtain ⟨diList, d'⟩ := r
      cases diList <;> cases h
      rfl

theorem openPackages_run (dirs : Dirs) (oldPkgFile diffPkgFile : String) (files : Files Bytes) :
    (DirsMade w stg dirs files → ∃ d,
      openPackages w stg dirs oldPkgFile diffPkgFile ⟨files, 0, none⟩ =
        unpackBoth w dirs oldPkgFile diffPkgFile d) ∧
    (¬ DirsMade w stg dirs files →
      (openPackages w stg dirs oldPkgFile diffPkgFile ⟨files, 0, none⟩).1 = .error eUaSys) := by
  have hopen : openPackages w stg dirs oldPkgFile diffPkgFile ⟨files, 0, none⟩ =
    inDir w dirs.oldPath (inDir w dirs.diffPath (inDir w dirs.newPath
      (unpackBoth w dirs oldPkgFile diffPkgFile)))
      ⟨cleared files [deltaPkgDir stg dirs], 0, none⟩ := rfl
  rw [hopen]
  simp only [inDir_run, cleared_cleared, List.cons_append, List.nil_append, Nat.zero_add]
  split
  · rename_i hold
    split
    · rename_i hdiff
      split
      · rename_i hnew
        exact ⟨fun _ => ⟨_, rfl⟩, fun hnot => absurd ⟨hold, hdiff, hnew⟩ hnot⟩
      · rename_i hnew
        exact ⟨fun h => absurd h.new hnew, fun _ => rfl⟩
    · rename_i hdiff
      exact ⟨fun h => absurd h.diff hdiff, fun _ => rfl⟩
  · rename_i hold
    exact ⟨fun h => absurd h.old hold, fun _ => rfl⟩

/-- A failure of delta_reconstruct is E_UA_SYS if a directory cannot be made, and E_UA_ERR in
every other case. -/
theorem deltaReconstruct_err {oldPkgFile diffPkgFile newPkgFile : String} {files : Files Bytes}
    {err : Rc} (herr : err ≠ eUaOk)
    (h : (deltaReconstruct w stg oldPkgFile diffPkgFile newPkgFile ⟨files, 0, none⟩).1 = err) :
    DirsMade w stg (dirsOf stg diffPkgFile) files ∧ err = eUaErr ∨
      ¬ DirsMade w stg (dirsOf stg diffPkgFile) files ∧ err = eUaSys := by
  have hrun := openPackages_run w stg (dirsOf stg diffPkgFile) oldPkgFile diffPkgFile files
  unfold deltaReconstruct at h
  rw [bind_run, bind_run, pure_run] at h
  unfold reconstruct at h
  rw [bind_run] at h
  by_cases hmade : DirsMade w stg (dirsOf stg diffPkgFile) files
  · refine .inl ⟨hmade, ?_⟩
    obtain ⟨d, hopen⟩ := hrun.1 hmade
    rw [hopen] at h
    cases hunpack : (unpackBoth w (dirsOf stg diffPkgFile) oldPkgFile diffPkgFile d).1 with
    | error err' =>
        rw [hunpack] at h
        exact h.symm.trans (unpackBoth_err w hunpack)
    | ok diList =>
      simp only [hunpack] at h
      rw [bind_run, ite_run] at h
      split at h
      · subst h
        exact (reconstructEntries_okOrErr w stg _ _ _).resolve_left herr
      · subst h
        exact (packNew_okOrErr w _ _ _).resolve_left herr
  · refine .inr ⟨hmade, ?_⟩
    rw [hrun.2 hmade] at h
    exact h.symm

end Reconstruction

section Preparation

variable {out : Outside Bytes} {w : FileWorld Bytes} {uacc : UaccPtr} {pkgFile : PkgFile}
  {bck : Bool} {ue : UpdateErr}

/-- delta_reconstruct returns what the code makes of the tools and archives of `worlds`; what
it leaves is given from outside. -/
def reconstructing (out : Outside Bytes) (worlds : Nat → World) (stg : DeltaStg) :
    Outside Bytes :=
  { out with
    other := fun n files o =>
      match o with
      | .deltaReconstruct (some oldPkgFile) (some diffPkgFile) (some newPkgFile) =>
          (out.other n files (.deltaReconstruct oldPkgFile diffPkgFile newPkgFile)).map
            fun reply => ((deltaReconstruct (worlds n) stg oldPkgFile diffPkgFile newPkgFile
              ⟨files, 0, none⟩).1, reply.2)
      | o => out.other n files o }

/-- The base version is in the manifest, and the reconstruction is asked for. -/
def Asks (out : Outside Bytes) (w : FileWorld Bytes) (manifest : String)
    (version diffFile newFile : Option String) (oldPkgFile diffPkgFile : String) : Prop :=
  (∃ pf, getManifest out w (some manifest) version = .found pf ∧ pf.file = some oldPkgFile) ∧
    diffFile = some diffPkgFile ∧ newFile.isSome

/-- A reconstruction that is asked for can make its directories. -/
def MakesDirs (out : Outside Bytes) (worlds : Nat → World) (stg : DeltaStg) (w : FileWorld Bytes)
    (manifest : String) (version diffFile newFile : Option String) : Prop :=
  ∀ oldPkgFile diffPkgFile, Asks out w manifest version diffFile newFile oldPkgFile diffPkgFile →
    DirsMade (worlds (w.asked + 1)) stg (dirsOf stg diffPkgFile) w.files

/-- The file that prepare_install_action lets a delta package be made into. -/
def fullFile (w : FileWorld Bytes) (delivered : PkgFile) : Option String :=
  join w.shared.intl.cacheDir [some "delta", fBasename delivered.file]

/-- A preparation that comes to a delta package and does not succeed in applying it. -/
structure FailedPatch (out : Outside Bytes) (w : FileWorld Bytes) (uacc : UaccPtr)
    (pkgFile : PkgFile) (bck : Bool) (ue : UpdateErr) where
  delivered : PkgFile
  installedVer : Option String
  manifest : String
  err : Rc
  transferred : FileWorld Bytes
  versioned : FileWorld Bytes
  recognized : FileWorld Bytes
  patched : FileWorld Bytes
  transfer : run out (prepareTransfer uacc pkgFile bck) w = some ((eUaOk, delivered), transferred)
  version : run out (prepareVersion uacc ue) transferred =
    some ((eUaOk, installedVer, ue), versioned)
  delta : run out (isDeltaToPatch delivered) versioned = some (true, recognized)
  backup : (recognized.shared.comp uacc).backupManifest = some manifest
  patch : run out (patchDelta (some manifest) installedVer delivered.file
    (fullFile recognized delivered)) recognized = some (err, patched)
  fails : err ≠ eUaOk

theorem getXmlPkgFile_file {node : Node} {pf : PkgFile} (h : getXmlPkgFile node = some pf) :
    ∃ file, pf.file = some file := by
  unfold getXmlPkgFile at h
  dsimp only at h
  split at h
  · rename_i hset
    cases h
    cases hfile : (node.fields.foldl readField PkgFile.zero).file with
    | none => simp [hfile, isSet] at hset
    | some file => exact ⟨file, rfl⟩
  · cases h

/-- An entry that is found in a manifest has a file. -/
theorem getManifest_file {w : FileWorld Bytes} {xmlFile version : Option String} {pf : PkgFile}
    (h : getManifest out w xmlFile version = .found pf) : ∃ file, pf.file = some file := by
  cases xmlFile with
  | none => cases h
  | some xmlFile =>
      cases version with
      | none => cases h
      | some version =>
          unfold getManifest at h
          dsimp only at h
          cases hreadable : out.readable w.asked with
          | false =>
              rw [hreadable] at h
              cases hcontent : w.files (resolve xmlFile) <;> rw [hcontent] at h <;> cases h
          | true =>
              rw [hreadable] at h
              obtain ⟨_, root, _, _, hentry⟩ := getPkgFileManifest_found_iff.mp h
              obtain ⟨node, _, hnode⟩ := List.exists_of_findSome?_eq_some hentry
              split at hnode
              · exact getXmlPkgFile_file hnode
              · cases hnode

/-- patch_delta reports E_UA_ERR, but for a reconstruction that cannot make its directories. -/
theorem patchDelta_err {worlds : Nat → World} {stg : DeltaStg} {w w' : FileWorld Bytes}
    {manifest : String} {version diffFile newFile : Option String} {err : Rc}
    (herr : err ≠ eUaOk)
    (h : run (reconstructing out worlds stg)
      (patchDelta (some manifest) version diffFile newFile) w = some (err, w')) :
    MakesDirs out worlds stg w manifest version diffFile newFile ∧ err = eUaErr ∨
      ¬ MakesDirs out worlds stg w manifest version diffFile newFile ∧ err = eUaSys := by
  unfold patchDelta at h
  rw [run_ite] at h
  split at h
  · rename_i hset
    obtain ⟨diffPkgFile, rfl⟩ := Option.isSome_iff_exists.mp hset.2.1
    obtain ⟨newPkgFile, rfl⟩ := Option.isSome_iff_exists.mp hset.2.2
    rw [run_bind, run_ext, extStep, Option.bind_some] at h
    cases hfound : getManifest (reconstructing out worlds stg) w (some manifest) version with
    | found pf =>
        obtain ⟨oldPkgFile, hold⟩ := getManifest_file hfound
        have hdirs : MakesDirs out worlds stg w manifest version (some diffPkgFile)
            (some newPkgFile) ↔
            DirsMade (worlds (w.asked + 1)) stg (dirsOf stg diffPkgFile) w.files := by
          have hfound' : getManifest out w (some manifest) version = .found pf := hfound
          constructor
          · intro hmakes
            exact hmakes oldPkgFile diffPkgFile ⟨⟨pf, hfound', hold⟩, rfl, rfl⟩
          · rintro hmade _ _ ⟨_, hsame, _⟩
            cases hsame
            exact hmade
        rw [hfound] at h
        dsimp only at h
        rw [hold, run_ext] at h
        obtain ⟨reply, hreply, heq⟩ := Option.map_eq_some_iff.mp h
        obtain ⟨left, _, rfl⟩ := Option.map_eq_some_iff.mp hreply
        have hresult : (deltaReconstruct (worlds (w.asked + 1)) stg oldPkgFile diffPkgFile
          newPkgFile ⟨w.files, 0, none⟩).1 = err := congrArg Prod.fst heq
        rw [hdirs]
        exact deltaReconstruct_err _ stg herr hresult
    | _ =>
        refine .inl ⟨?_, ?_⟩
        · rintro old diff ⟨⟨pf, hpf, _⟩, _⟩
          rw [show getManifest out w (some manifest) version = _ from hfound] at hpf
          cases hpf
        · rw [hfound] at h
          cases h
          rfl
  · rename_i hset
    refine .inl ⟨?_, ?_⟩
    · rintro old diff ⟨_, hdiff, hnew⟩
      exact absurd ⟨rfl, by rw [hdiff]; rfl, hnew⟩ hset
    · cases h
      rfl

/-- After a patch that failed nothing is called any more. -/
theorem prepare_of_failed (p : FailedPatch out w uacc pkgFile bck ue) (updateFile : PkgFile) :
    ∃ prepared,
      run out (prepareInstallAction uacc pkgFile bck updateFile ue) w =
          some (prepared, p.patched) ∧
        prepared.state = .failed ∧
        prepared.ue = if p.err = eUaErr then .incrementalFailed else ue := by
  have hdelta : run out (isDeltaToPatch p.delivered) p.versioned = some (true, p.recognized) :=
    p.delta
  have hpatch := p.patch
  unfold fullFile at hpatch
  rw [prepareInstallAction_eq]
  unfold chooseFile prepareFile
  simp only [run_bind, p.transfer, p.version, hdelta, Option.bind_some, if_true, run_readIntl,
    run_readComp, p.backup, Option.isSome_some, hpatch, p.fails, if_false, Prog.pure_eq, run_pure]
  exact ⟨_, rfl, rfl, rfl⟩

/-- prepare_install_action returns INSTALL_FAILED and the error is UE_INCREMENTAL_FAILED. -/
def FailedPatch.FallsBack (p : FailedPatch out w uacc pkgFile bck ue) (updateFile : PkgFile) :
    Prop :=
  ∃ prepared, run out (prepareInstallAction uacc pkgFile bck updateFile ue) w =
    some (prepared, p.patched) ∧ prepared.state = .failed ∧ prepared.ue = .incrementalFailed

/-- A delta package that cannot be applied is reported as such, but where the reconstruction
cannot make its directories. -/
theorem fallsBack_iff {worlds : Nat → World} {stg : DeltaStg}
    (p : FailedPatch (reconstructing out worlds stg) w uacc pkgFile bck ue)
    (updateFile : PkgFile) :
    p.FallsBack updateFile ↔
      MakesDirs out worlds stg p.recognized p.manifest p.installedVer p.delivered.file
        (fullFile p.recognized p.delivered) ∨ ue = .incrementalFailed := by
  obtain ⟨prepared, hrun, hstate, hue⟩ := prepare_of_failed p updateFile
  have hiff : p.FallsBack updateFile ↔ prepared.ue = .incrementalFailed := by
    constructor
    · rintro ⟨prepared', hrun', _, hue'⟩
      rw [hrun] at hrun'
      cases hrun'
      exact hue'
    · intro h
      exact ⟨prepared, hrun, hstate, h⟩
  rw [hiff, hue]
  rcases patchDelta_err p.fails p.patch with ⟨hmakes, herr⟩ | ⟨hnot, herr⟩
  · rw [if_pos herr]
    exact ⟨fun _ => .inl hmakes, fun _ => rfl⟩
  · have hne : p.err ≠ eUaErr := by
      rw [herr]
      decide
    rw [if_neg hne]
    exact ⟨.inr, fun h => h.resolve_left hnot⟩

end Preparation

section Samples

/-- The installed version is in the backup manifest, and every package is a delta. -/
def sampleDevice : Outside Bytes where
  xml := ⟨fun _ => some [⟨"package", [("version", "1"), ("sha256", sampleSha256B64.val),
    ("file", "/backup/old.zip")]⟩], fun _ => [], id⟩
  ssl := sampleSsl
  sha256B64 := fun _ => sampleBase64 (sampleSsl.sha256 [3])
  archive := fun _ => none
  empty := []
  hashFails := fun _ => false
  digestCall := fun _ => .completes
  addCalls := fun _ => ⟨true, true, none⟩
  readable := fun _ => true
  linkCall := fun _ => .done
  oneFile := fun _ => false
  copyCall := fun _ => .done
  other := fun _ files o =>
    match o with
    | .isDeltaPackage _ => some (true, files)
    | o => (usualAnswer "1" o).map fun b => (b, files)

/-- Tools of which none succeeds, on a disk where directories can be made or not. -/
def sampleTools (made : Bool) : World where
  package _ _ := none
  xmlReadFile _ := none
  sha256Hex _ := ""
  answer _ files
    | .newdirp _ => made
    | .zip _ _ => false
    | .unzip _ _ => some fun _ => none
    | .copyFile _ _ => some none
    | .decompress _ _ output | .patch _ _ output _ | .mksquash _ output _ =>
        (false, files (resolve output))
    | .mkfsTime _ => none
    | .unsquash _ _ => (false, fun _ => none)

def sampleDeltaWorld : FileWorld Bytes where
  shared := { sampleShared with
    intl := { sampleShared.intl with
      delta := true
      packageVerificationDisabled := true
      cacheDir := some "/cache" } }
  files := fun p => if p = resolve "/data/backup/pkg/manifest_pkg.xml" then some [] else none
  asked := 0
  adds := []
  moves := 0

def sampleDelta : PkgFile := { samplePkgFile "2" with file := some "/cache/diff.zip" }

def sampleFailure (made : Bool) :
    FailedPatch (reconstructing sampleDevice (fun _ => sampleTools made) ⟨"/cache", [], []⟩)
      sampleDeltaWorld 0 sampleDelta false .none where
  delivered := sampleDelta
  installedVer := some "1"
  manifest := "/data/backup/pkg/manifest_pkg.xml"
  err := if made then eUaErr else eUaSys
  transferred := sampleDeltaWorld
  versioned := sampleDeltaWorld.next
  recognized := sampleDeltaWorld.next.next.next
  patched := sampleDeltaWorld.next.next.next.next.next
  transfer := rfl
  version := rfl
  delta := rfl
  backup := rfl
  patch := by
    cases made
    · rfl
    · rfl
  fails := by cases made <;> decide

theorem unmade_directory_not_reported :
    ¬ ∀ (out : Outside Bytes) (worlds : Nat → World) (stg : DeltaStg) (w : FileWorld Bytes)
      (uacc : UaccPtr) (pkgFile updateFile : PkgFile) (bck : Bool) (ue : UpdateErr)
      (p : FailedPatch (reconstructing out worlds stg) w uacc pkgFile bck ue),
      p.FallsBack updateFile := by
  intro h
  obtain ⟨prepared, hrun, _, hue⟩ := h sampleDevice (fun _ => sampleTools false)
    ⟨"/cache", [], []⟩ sampleDeltaWorld 0 sampleDelta PkgFile.zero false .none
    (sampleFailure false)
  obtain ⟨prepared', hrun', _, hue'⟩ := prepare_of_failed (sampleFailure false) PkgFile.zero
  rw [hrun] at hrun'
  cases hrun'
  rw [hue'] at hue
  exact absurd hue (by decide)

/-- Where the directories can be made the same package is reported. -/
example : (sampleFailure true).FallsBack PkgFile.zero := by
  obtain ⟨prepared, hrun, hstate, hue⟩ := prepare_of_failed (sampleFailure true) PkgFile.zero
  exact ⟨prepared, hrun, hstate, hue⟩

end Samples

end EsyncUa.IncrementalFallbacks
