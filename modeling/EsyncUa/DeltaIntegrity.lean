import EsyncUa.CalmRuns
import EsyncUa.DeltaFrames

/-!
What a successful reconstruction puts into the new tree. Each entry's own file is checked when
the entry is applied. It stays as it is, and is packed, as long as the run writes through no
other path that leads into the new tree, and the shell reads each line as it is meant.
-/
namespace EsyncUa.DeltaIntegrity

open JsonProperties Components Checksums DiffManifests FilePaths LinkedFiles Programs Executions
open DeltaPrograms CalmRuns ShellWords
open DeltaFrames (joinAll_cons joinAll_nil joinParts_one)
open Deltas (DeltaStg DeltaTool Dirs dirsOf joinAll manifest manifestDiff printed squashDir)
open PatchCommands (ReadsPaths ToolExec cmd_eq nfa ofa partsFrom pfa placeholderAt readParts
  read_of_readsPaths startsWith)

/-- A file with this digest. -/
def HasSha256 (w : Host) (sha256 : Sha256Hex) (content : Option Bytes) : Prop :=
  ∃ bytes, content = some bytes ∧ w.sha256Hex bytes = sha256.val

instance (w : Host) (sha256 : Sha256Hex) (content : Option Bytes) :
    Decidable (HasSha256 w sha256 content) :=
  decidable_of_iff (∃ bytes ∈ content, w.sha256Hex bytes = sha256.val) Iff.rfl

section Operations

variable {w : Host} {d : Disk}

theorem run_verifyFile (file : String) (sha256 : Sha256Hex) (d : Disk) :
    w.handler.run (verifyFile w.sha256Hex file sha256) d =
      (match content d.tree file with
        | none => eUaSys
        | some bytes => if w.sha256Hex bytes = sha256.val then eUaOk else eUaErr, d) := by
  simp only [verifyFile, Handler.run_bind, Host.run_readFile]
  cases content d.tree file <;> rfl

theorem verifyFile_ok {file : String} {sha256 : Sha256Hex}
    (h : (w.handler.run (verifyFile w.sha256Hex file sha256) d).1 = eUaOk) :
    HasSha256 w sha256 (content d.tree file) := by
  rw [run_verifyFile] at h
  cases hfile : content d.tree file with
  | none =>
      rw [hfile] at h
      exact absurd h eUaSys_ne_ok
  | some bytes =>
      rw [hfile] at h
      dsimp only at h
      split at h
      · rename_i hsha
        exact ⟨bytes, rfl, hsha⟩
      · exact absurd h eUaErr_ne_ok

theorem copyFile_ok {src dst : String} (h : (w.copyFile d src dst).1 = eUaOk) :
    ∃ bytes p, content d.tree src = some bytes ∧ place d.tree dst = some p ∧
      fileAt (w.copyFile d src dst).2.tree p = some bytes := by
  unfold Host.copyFile at h ⊢
  cases hsrc : content d.tree src with
  | none =>
      rw [hsrc] at h
      exact absurd h eUaSys_ne_ok
  | some bytes =>
      rw [hsrc] at h
      dsimp only at h ⊢
      cases hcopied : w.copies d.asked d.tree src dst with
      | some left =>
          rw [hcopied] at h
          exact absurd h eUaSys_ne_ok
      | none =>
          rw [hcopied] at h
          dsimp only at h ⊢
          cases hdst : place d.tree dst with
          | none =>
              rw [hdst] at h
              exact absurd h eUaSys_ne_ok
          | some p =>
              refine ⟨bytes, p, rfl, rfl, ?_⟩
              rw [Disk.next_tree, fileAt, store_self hdst]
              rfl

theorem verifiedCopy_ok {src dst : String} {sha256 : Sha256Hex} {file : Path}
    (hdst : place d.tree dst = some file)
    (h : (w.handler.run (verifiedCopy w.sha256Hex src dst sha256) d).1 = false) :
    HasSha256 w sha256
      (fileAt (w.handler.run (verifiedCopy w.sha256Hex src dst sha256) d).2.tree file) := by
  have hverify : (w.handler.run (verifyFile w.sha256Hex src sha256) d).1 = eUaOk → _ :=
    verifyFile_ok
  have hsame : (w.handler.run (verifyFile w.sha256Hex src sha256) d).2 = d := by
    rw [run_verifyFile]
  unfold verifiedCopy at h ⊢
  rw [Handler.run_bind, Handler.run_ite, hsame] at h ⊢
  split at h
  · cases h
  · rename_i hverified
    rw [if_neg hverified]
    obtain ⟨bytes, hsrc, hsha⟩ := hverify (not_not.mp hverified)
    have hcopy : (w.copyFile d src dst).1 = eUaOk := not_not.mp (of_decide_eq_false h)
    obtain ⟨copied, p, hcopied, hplace, hfile⟩ := copyFile_ok hcopy
    obtain rfl : p = file := Option.some.inj (hplace.symm.trans hdst)
    obtain rfl : copied = bytes := Option.some.inj (hcopied.symm.trans hsrc)
    exact ⟨copied, hfile, hsha⟩

theorem verifiedPatch_ok {stg : DeltaStg} {di : DiffInfo} {oldFile newFile diffFile : String}
    (h : (w.handler.run (verifiedPatch w.sha256Hex stg di oldFile newFile diffFile) d).1 = false) :
    HasSha256 w di.sha256New (content (w.handler.run
      (verifiedPatch w.sha256Hex stg di oldFile newFile diffFile) d).2.tree newFile) := by
  unfold verifiedPatch at h ⊢
  rw [Handler.run_bind, Handler.run_ite] at h ⊢
  split at h
  · cases h
  rename_i hold
  rw [if_neg hold]
  rw [Handler.run_bind, Handler.run_ite] at h ⊢
  split at h
  · cases h
  rename_i hpatched
  rw [if_neg hpatched]
  rw [Handler.run_bind] at h ⊢
  generalize (w.handler.run (deltaPatch stg di oldFile newFile diffFile) _).2 = d' at h ⊢
  have hverify : (w.handler.run (verifyFile w.sha256Hex newFile di.sha256New) d').1 = eUaOk → _ :=
    verifyFile_ok
  rw [run_verifyFile] at h hverify ⊢
  exact hverify (by simpa using h)

theorem run_replaceImage (squashFile packed : String) (di : DiffInfo) (d : Disk) :
    w.handler.run (replaceImage w.sha256Hex squashFile packed di) d =
      let removed := Host.remove d squashFile
      let verified := w.handler.run (verifyFile w.sha256Hex squashFile di.sha256New)
        (w.copyFile removed.2 packed squashFile).2
      (if verified.1 ≠ eUaOk then eUaErr else if removed.1 < 0 then eUaSys else eUaOk,
        verified.2) := by
  simp only [replaceImage, Handler.run_bind]
  rfl

theorem replaceImage_ok {squashFile packed : String} {di : DiffInfo} {file : Path}
    (hspot : spot d.tree squashFile = some file)
    (h : (w.handler.run (replaceImage w.sha256Hex squashFile packed di) d).1 = eUaOk) :
    (d.tree file).isSome ∧ HasSha256 w di.sha256New (content
      (w.handler.run (replaceImage w.sha256Hex squashFile packed di) d).2.tree squashFile) := by
  rw [run_replaceImage] at h ⊢
  dsimp only at h ⊢
  generalize (w.copyFile (Host.remove d squashFile).2 packed squashFile).2 = d' at h ⊢
  have hverify :
      (w.handler.run (verifyFile w.sha256Hex squashFile di.sha256New) d').1 = eUaOk → _ :=
    verifyFile_ok
  have hsame : (w.handler.run (verifyFile w.sha256Hex squashFile di.sha256New) d').2 = d' := by
    rw [run_verifyFile]
  rw [hsame]
  split at h
  · exact absurd h eUaErr_ne_ok
  rename_i hverified
  split at h
  · exact absurd h eUaSys_ne_ok
  rename_i hremoved
  refine ⟨?_, hverify (not_not.mp hverified)⟩
  by_contra hnone
  apply hremoved
  have hmissing : (Host.remove d squashFile).1 = -1 := by
    simp only [Host.remove, hspot, Option.bind_some]
    exact if_neg hnone
  rw [hmissing]
  decide

end Operations

section Runs

variable {w : Host} {stg : DeltaStg} {dir : Path} {newPath name : String} {d : Disk} {α β : Type}

/-- Unpacking an image is given no path in the new tree to write at. -/
theorem unpacks_elsewhere (sha256Hex : Bytes → String) (own squashFile : String) (di : DiffInfo)
    (pkgDir : String) :
    (processNested sha256Hex stg squashFile di pkgDir false).All
      fun c => CallsTools stg c ∧ ¬ WritesAt own c := by
  unfold processNested
  refine (Prog.all_ite _ _ _).mpr ⟨fun _ => ?_, fun _ => trivial⟩
  refine (Prog.all_bind _ _ _).mpr ⟨?_, fun options _ => ?_⟩
  · simp [squashOptions, rmdirp, popen, CallsTools, UsesTools, WritesAt]
  · cases options with
    | none => trivial
    | some options =>
        simp [system, rmdirp, finishImage, imageStatus, CallsTools, UsesTools, WritesAt]

theorem finishImage_ok (hdoc : Documented w stg) {unsqCmd packed : String} {di : DiffInfo}
    (hcalm : Calm w dir newPath (join newPath name)
      (finishImage w.sha256Hex unsqCmd (join newPath name) packed di true) d)
    (hname : Plain name) (hunlinked : Unlinked d.tree dir)
    (h : (w.handler.run
      (finishImage w.sha256Hex unsqCmd (join newPath name) packed di true) d).1 = eUaOk) :
    (d.tree (dir ++ components name)).isSome ∧ HasSha256 w di.sha256New
      (fileAt (w.handler.run (finishImage w.sha256Hex unsqCmd (join newPath name) packed di true)
        d).2.tree (dir ++ components name)) := by
  simp only [finishImage, imageStatus, if_true] at hcalm h ⊢
  obtain ⟨hreplace, hremove⟩ := hcalm.bind
  have hcalls : (replaceImage w.sha256Hex (join newPath name) packed di).All (CallsTools stg) := by
    simp [replaceImage, calls_verifyFile, remove, copyFile, CallsTools]
  have hreplaced := (Calm.keeps hdoc hreplace hcalls hname hunlinked).1
  have hkept := Calm.untouched hdoc hremove (by simp [rmdirp, CallsTools, WritesAt])
    (List.prefix_append dir (components name))
  simp only [Handler.run_bind, Prog.pure_eq, Handler.run_pure] at h
  obtain ⟨hthere, hsha⟩ := replaceImage_ok (spot_join hreplace.start hunlinked hname) h
  rw [content_join (Handler.Along.finish hreplace) hreplaced hname] at hsha
  rw [Handler.run_bind, fileAt_congr hkept]
  exact ⟨hthere, hsha⟩

/-- A repacked image was there before, and has the new digest. -/
theorem processNested_ok (hdoc : Documented w stg) {di : DiffInfo} {pkgDir : String}
    (hcalm : Calm w dir newPath (join newPath name)
      (processNested w.sha256Hex stg (join newPath name) di pkgDir true) d)
    (hname : Plain name) (hunlinked : Unlinked d.tree dir) (hnested : di.nested = true)
    (h : (w.handler.run
      (processNested w.sha256Hex stg (join newPath name) di pkgDir true) d).1 = eUaOk) :
    (d.tree (dir ++ components name)).isSome ∧ HasSha256 w di.sha256New
      (fileAt (w.handler.run (processNested w.sha256Hex stg (join newPath name) di pkgDir true)
        d).2.tree (dir ++ components name)) := by
  have hbelow : dir <+: dir ++ components name := List.prefix_append _ _
  rw [processNested, if_pos hnested, processSquashfsImage] at hcalm h ⊢
  simp only [squashOptions, if_true, pure_bind] at hcalm h ⊢
  obtain ⟨hcalm, hunlinked, hfirst⟩ := hcalm.after_system hdoc trivial id hunlinked
  rw [Handler.run_bind, Host.run_system] at h ⊢
  generalize w.system d _ = s₁ at hcalm hunlinked hfirst h ⊢
  split at h
  · rename_i hdone
    rw [if_pos hdone] at hcalm ⊢
    obtain ⟨hcalm, hunlinked, hsecond⟩ := hcalm.after_system hdoc trivial id hunlinked
    rw [Handler.run_bind, Host.run_system] at h ⊢
    generalize w.system s₁.2 _ = s₂ at hcalm hunlinked hsecond h ⊢
    split at h
    · rename_i hpacked
      rw [if_pos hpacked] at hcalm ⊢
      rw [← hfirst _ hbelow, ← hsecond _ hbelow]
      exact finishImage_ok hdoc hcalm hname hunlinked h
    · exact absurd h eUaSys_ne_ok
  · exact absurd h eUaSys_ne_ok

/-- What the type of an entry promises of its new file when nothing failed. -/
theorem applyType_ok (hdoc : Documented w stg) {di : DiffInfo} {oldFile diffFile : String}
    (hcalm : Calm w dir newPath (join newPath name)
      (applyType w.sha256Hex stg di oldFile (join newPath name) diffFile) d)
    (hname : Plain name) (hunlinked : Unlinked d.tree dir)
    (h : (w.handler.run
      (applyType w.sha256Hex stg di oldFile (join newPath name) diffFile) d).1 = false) :
    let after := w.handler.run
      (applyType w.sha256Hex stg di oldFile (join newPath name) diffFile) d
    let made := fileAt after.2.tree (dir ++ components name)
    (di.type = .added → HasSha256 w di.sha256New made) ∧
    (di.type = .unchanged → HasSha256 w di.sha256Old made) ∧
    (di.type = .changed → di.nested = false → HasSha256 w di.sha256New made) ∧
    (di.type = .removed → after.2 = d) := by
  have hstart := place_join hcalm.start hunlinked hname
  have hafter := (hcalm.keeps hdoc (calls_applyType _ _ _ _) hname hunlinked).1
  have hmade := content_join (Handler.Along.finish hcalm) hafter hname
  clear hcalm hafter
  unfold applyType at h hmade ⊢
  cases htype : di.type with
  | added =>
      simp only [htype] at h ⊢
      exact ⟨fun _ => verifiedCopy_ok hstart h, nofun, nofun, nofun⟩
  | unchanged =>
      simp only [htype] at h ⊢
      exact ⟨nofun, fun _ => verifiedCopy_ok hstart h, nofun, nofun⟩
  | changed =>
      simp only [htype] at h hmade ⊢
      refine ⟨nofun, nofun, fun _ hnested => ?_, nofun⟩
      rw [if_neg (by simp [hnested])] at h hmade ⊢
      exact hmade ▸ verifiedPatch_ok h
  | removed =>
      exact ⟨nofun, nofun, nofun, fun _ => rfl⟩

/-- Removing a file at another text is given no path in the new tree. -/
theorem removes_elsewhere {own path : String} (h : path ≠ own) :
    (removeReadable path).All fun c => CallsTools stg c ∧ ¬ WritesAt own c := by
  simp [removeReadable, readFile, remove, CallsTools, WritesAt, h]

theorem newFileOf_eq (dirs : Dirs) {di : DiffInfo} (h : di.name = some name) :
    newFileOf dirs di = join dirs.newPath name := by
  rw [newFileOf, h, joinParts_one]

theorem newFileOf_text (diffPkgFile name : String) :
    (join (join (join stg.cacheDir "delta") (Deltas.pkgDirOf diffPkgFile)) "new").toList <+:
      (join (dirsOf stg diffPkgFile).newPath name).toList := by
  simp only [dirsOf, joinAll_cons, joinAll_nil]
  exact prefix_join _ _

theorem diffFileOf_ne (diffPkgFile : String) {di : DiffInfo} (h : di.name = some name) :
    diffFileOf (dirsOf stg diffPkgFile) di ≠ join (dirsOf stg diffPkgFile).newPath name := by
  refine join_ne ?_ (newFileOf_text _ _) (b := "diff") (by decide) (by decide) (by decide)
  rw [diffFileOf, h, joinParts_one]
  simp only [dirsOf, joinAll_cons, joinAll_nil]
  exact prefix_join _ _

theorem oldFileOf_ne (diffPkgFile : String) {di : DiffInfo} (h : di.name = some name) :
    oldFileOf stg (dirsOf stg diffPkgFile) di ≠ join (dirsOf stg diffPkgFile).newPath name := by
  unfold oldFileOf
  split
  · have hdelta : (join stg.cacheDir "delta").toList <+:
        (join (join (join stg.cacheDir "delta") (Deltas.pkgDirOf diffPkgFile)) "new").toList :=
      (prefix_join _ _).trans (prefix_join _ _)
    refine join_ne ?_ (hdelta.trans (newFileOf_text _ _)) (b := "art") (by decide) (by decide)
      (by decide)
    simp only [joinAll_cons, joinAll_nil]
    exact (prefix_join _ _).trans (prefix_join _ _)
  · refine join_ne ?_ (newFileOf_text _ _) (b := "old") (by decide) (by decide) (by decide)
    rw [originalOf]
    split
    · rename_i hsome
      obtain ⟨old, hfound⟩ := Option.isSome_iff_exists.mp hsome
      rw [hfound, joinParts_one]
      simp only [dirsOf, joinAll_cons, joinAll_nil]
      exact prefix_join _ _
    · rw [h, joinParts_one]
      simp only [dirsOf, joinAll_cons, joinAll_nil]
      exact prefix_join _ _

/-- What an entry's new file is promised to be. -/
def Delivered (w : Host) (di : DiffInfo) (content : Option Bytes) : Prop :=
  (di.type = .added ∨ di.type = .changed → HasSha256 w di.sha256New content) ∧
  (di.type = .unchanged → di.nested = false → HasSha256 w di.sha256Old content) ∧
  (di.type = .removed → content = none)

theorem not_of_ite_err {c : Prop} [Decidable c] (h : (if c then eUaErr else eUaOk) = eUaOk) : ¬ c :=
  fun hc => absurd ((if_pos hc).symm.trans h) (by decide)

theorem reconstructEntry_ok (hdoc : Documented w stg) {diffPkgFile : String} {di : DiffInfo}
    (hdi : di.name = some name) (hname : Plain name)
    (hcalm : Calm w dir (dirsOf stg diffPkgFile).newPath (newFileOf (dirsOf stg diffPkgFile) di)
      (reconstructEntry w.sha256Hex stg (dirsOf stg diffPkgFile) di) d)
    (hunlinked : Unlinked d.tree dir) (hbefore : d.tree (dir ++ components name) = none)
    (h : (w.handler.run
      (reconstructEntry w.sha256Hex stg (dirsOf stg diffPkgFile) di) d).1 = eUaOk) :
    Delivered w di (fileAt (w.handler.run
      (reconstructEntry w.sha256Hex stg (dirsOf stg diffPkgFile) di) d).2.tree
        (dir ++ components name)) := by
  have hbelow : dir <+: dir ++ components name := List.prefix_append _ _
  have hold : oldFileOf stg _ di ≠ _ := oldFileOf_ne diffPkgFile hdi
  have hdiff : diffFileOf (dirsOf stg diffPkgFile) di ≠ _ := diffFileOf_ne diffPkgFile hdi
  rw [newFileOf_eq _ hdi] at hcalm
  unfold reconstructEntry at hcalm h ⊢
  rw [newFileOf_eq _ hdi] at hcalm h ⊢
  generalize oldFileOf stg (dirsOf stg diffPkgFile) di = oldFile at hcalm h hold ⊢
  generalize diffFileOf (dirsOf stg diffPkgFile) di = diffFile at hcalm h hdiff ⊢
  obtain ⟨hunpack, hcalm⟩ := hcalm.bind
  have hunpacked := fun q hq => hunpack.untouched hdoc (unpacks_elsewhere _ _ _ _ _) (q := q) hq
  rw [Handler.run_bind] at h ⊢
  generalize w.handler.run (processNested _ _ _ _ _ false) d = unpacked at hcalm h hunpacked ⊢
  have hunlinked₁ := Unlinked.congr hunlinked hunpacked
  obtain ⟨happly, hcalm⟩ := hcalm.bind
  have happlied := applyType_ok hdoc happly hname hunlinked₁
  have hunlinked₂ := (happly.keeps hdoc (calls_applyType _ _ _ _) hname hunlinked₁).1
  rw [Handler.run_bind] at h ⊢
  dsimp only at happlied
  generalize w.handler.run (applyType _ _ _ _ _ _) unpacked.2 = applied
    at hcalm h happlied hunlinked₂ ⊢
  obtain ⟨hremoveOld, hcalm⟩ := hcalm.bind
  have hremovedOld := fun q hq => hremoveOld.untouched hdoc (removes_elsewhere hold) (q := q) hq
  rw [Handler.run_bind] at h ⊢
  generalize w.handler.run (removeReadable oldFile) applied.2 = removedOld
    at hcalm h hremovedOld ⊢
  obtain ⟨hremoveDiff, hcalm⟩ := hcalm.bind
  have hremovedDiff := fun q hq =>
    hremoveDiff.untouched hdoc (removes_elsewhere hdiff) (q := q) hq
  rw [Handler.run_bind] at h ⊢
  generalize w.handler.run (removeReadable diffFile) removedOld.2 = cleared
    at hcalm h hremovedDiff ⊢
  obtain ⟨hpack, -⟩ := hcalm.bind
  have hcleared := fun q hq => (hremovedDiff q hq).trans (hremovedOld q hq)
  have hrepacked := processNested_ok hdoc hpack hname (Unlinked.congr hunlinked₂ hcleared)
  rw [Handler.run_bind] at h ⊢
  have hfine := not_of_ite_err h
  simp only [not_or, not_not, Bool.not_eq_true] at hfine
  obtain ⟨-, happlyOk, hpacked⟩ := hfine
  obtain ⟨hadded, hunchanged, hchanged, hremoved⟩ := happlied happlyOk
  cases hnested : di.nested with
  | true =>
      -- whatever the type, the repacked image was there and has the new digest
      obtain ⟨hthere, hsha⟩ := hrepacked hnested hpacked
      refine ⟨fun _ => hsha, fun _ hno => ?_, fun htype => ?_⟩
      · rw [hnested] at hno
        cases hno
      · rw [hcleared _ hbelow, hremoved htype, hunpacked _ hbelow, hbefore] at hthere
        cases hthere
  | false =>
      have hplain : w.handler.run (processNested w.sha256Hex stg
          (join (dirsOf stg diffPkgFile).newPath name) di (dirsOf stg diffPkgFile).pkgDir true)
          cleared.2 = (eUaOk, cleared.2) := by
        rw [processNested, if_neg (by simp [hnested])]
        rfl
      rw [hplain, Prog.pure_eq, Handler.run_pure, fileAt_congr (hcleared _ hbelow)]
      refine ⟨?_, fun htype _ => hunchanged htype, fun htype => ?_⟩
      · rintro (htype | htype)
        · exact hadded htype
        · exact hchanged htype hnested
      · rw [fileAt, hremoved htype, hunpacked _ hbelow, hbefore]

/-- The entries up to the first that fails write each at its own file or nowhere in the new
tree. -/
def EntriesCalm (w : Host) (stg : DeltaStg) (dirs : Dirs) (dir : Path) :
    List DiffInfo → Disk → Prop
  | [], _ => True
  | di :: diList, d =>
      Calm w dir dirs.newPath (newFileOf dirs di) (reconstructEntry w.sha256Hex stg dirs di) d ∧
        let after := w.handler.run (reconstructEntry w.sha256Hex stg dirs di) d
        (after.1 = eUaOk → EntriesCalm w stg dirs dir diList after.2)

instance decidableEntriesCalm (w : Host) (stg : DeltaStg) (dirs : Dirs) (dir : Path) :
    (diList : List DiffInfo) → (d : Disk) → Decidable (EntriesCalm w stg dirs dir diList d)
  | [], _ => inferInstanceAs (Decidable True)
  | _ :: diList, _ => @instDecidableAnd _ _ _
      (@instDecidableForall _ _ _ (decidableEntriesCalm w stg dirs dir diList _))

def HasPlainName (di : DiffInfo) : Prop := ∃ name, di.name = some name ∧ Plain name

instance (di : DiffInfo) : Decidable (HasPlainName di) :=
  decidable_of_iff (∃ name ∈ di.name, Plain name) Iff.rfl

/-- Where an entry's file is in the new tree. -/
def filePlace (dir : Path) (di : DiffInfo) : Path := dir ++ components (di.name.getD "")

theorem filePlace_below (dir : Path) (di : DiffInfo) : dir <+: filePlace dir di :=
  List.prefix_append _ _

theorem filePlace_injective {di di' : DiffInfo} (hdi : HasPlainName di) (hdi' : HasPlainName di')
    (h : filePlace dir di = filePlace dir di') : di.name = di'.name := by
  obtain ⟨name, hname, -⟩ := hdi
  obtain ⟨name', hname', -⟩ := hdi'
  rw [filePlace, filePlace, hname, hname'] at h
  rw [hname, hname']
  exact congrArg some (components_injective (List.append_cancel_left h))

/-- The induction over the manifest: later entries leave the files of earlier ones alone. -/
theorem reconstructEntries_ok (hdoc : Documented w stg) {diffPkgFile : String}
    {diList : List DiffInfo} (hplain : ∀ di ∈ diList, HasPlainName di)
    (hdistinct : (diList.map DiffInfo.name).Nodup)
    (hcalm : EntriesCalm w stg (dirsOf stg diffPkgFile) dir diList d)
    (hunlinked : Unlinked d.tree dir) (hbefore : ∀ di ∈ diList, d.tree (filePlace dir di) = none)
    (h : (w.handler.run
      (reconstructEntries w.sha256Hex stg (dirsOf stg diffPkgFile) diList) d).1 = eUaOk) :
    let after := w.handler.run
      (reconstructEntries w.sha256Hex stg (dirsOf stg diffPkgFile) diList) d
    Unlinked after.2.tree dir ∧
      (∀ q, dir <+: q → (∀ di ∈ diList, q ≠ filePlace dir di) → after.2.tree q = d.tree q) ∧
      ∀ di ∈ diList, Delivered w di (fileAt after.2.tree (filePlace dir di)) := by
  induction diList generalizing d with
  | nil => exact ⟨hunlinked, fun _ _ _ => rfl, by simp⟩
  | cons first diList ih =>
      obtain ⟨name, hname, hplainName⟩ := hplain first List.mem_cons_self
      obtain ⟨hfirst, hlater⟩ := hcalm
      have hplace : filePlace dir first = dir ++ components name := by rw [filePlace, hname]; rfl
      have hdone := reconstructEntry_ok hdoc hname hplainName hfirst hunlinked
        (hplace ▸ hbefore first List.mem_cons_self)
      rw [newFileOf_eq _ hname] at hfirst
      obtain ⟨hunlinked', hkept⟩ :=
        hfirst.keeps hdoc (calls_reconstructEntry _ _) hplainName hunlinked
      rw [← hplace] at hdone hkept
      rw [List.map_cons, List.nodup_cons] at hdistinct
      obtain ⟨hnew, hdistinct⟩ := hdistinct
      have hrest : ∀ di ∈ diList, HasPlainName di :=
        fun di hdi => hplain di (List.mem_cons_of_mem _ hdi)
      have hother : ∀ di ∈ diList, filePlace dir di ≠ filePlace dir first := by
        intro di hdi hsame
        apply hnew
        rw [← filePlace_injective (hrest di hdi) (hplain first List.mem_cons_self) hsame]
        exact List.mem_map_of_mem hdi
      rw [reconstructEntries, Handler.run_bind, Handler.run_ite] at h ⊢
      split at h
      · rename_i hfail
        exact absurd h hfail
      rename_i hfine
      rw [if_neg hfine]
      have hok := not_not.mp hfine
      obtain ⟨hstill, hrestKept, hdelivered⟩ := ih hrest hdistinct (hlater hok) hunlinked'
        (fun di hdi => (hkept _ (filePlace_below _ _) (hother di hdi)).trans
          (hbefore di (List.mem_cons_of_mem _ hdi))) h
      refine ⟨hstill, fun q hq hne => ?_, fun di hdi => ?_⟩
      · rw [hrestKept q hq fun di hdi => hne di (List.mem_cons_of_mem _ hdi)]
        exact hkept q hq (hne first List.mem_cons_self)
      · rcases List.mem_cons.mp hdi with hown | hdi
        · subst hown
          rw [fileAt_congr (hrestKept _ (filePlace_below _ _) fun di' hdi' =>
            (hother di' hdi').symm)]
          exact hdone hok
        · exact hdelivered di hdi

end Runs

section Packages

variable {w : Host} {stg : DeltaStg} {dir : Path} {dirs : Dirs} {d : Disk}

/-- A new directory that is made at `newPath` is at `dir`, where no file is. -/
def MadeAt (newPath : String) (dir : Path) (tree : Tree) : Call → Prop
  | .newdirp path => path = newPath → place tree path = some dir ∧ fileAt tree dir = none
  | _ => True

instance (newPath : String) (dir : Path) (tree : Tree) : DecidablePred (MadeAt newPath dir tree)
  | .newdirp _ => inferInstanceAs (Decidable (_ → _ ∧ _))
  | .rmdirp _ | .unzip _ _ | .zip _ _ | .copyFile _ _ | .remove _ | .popen _ | .system _ =>
      inferInstanceAs (Decidable True)

theorem makeDirs_emptied
    (hmade : w.handler.Along (fun _ => True) (fun d c => MadeAt dirs.newPath dir d.tree c)
      (makeDirs stg dirs) d)
    (h : (w.handler.run (makeDirs stg dirs) d).1 = eUaOk) {q : Path} (hq : dir <+: q) :
    (w.handler.run (makeDirs stg dirs) d).2.tree q = none := by
  unfold makeDirs at hmade h ⊢
  obtain ⟨-, hmade⟩ := Handler.along_bind hmade
  rw [Handler.run_bind] at h ⊢
  obtain ⟨-, hmade⟩ := Handler.along_bind hmade
  rw [Handler.run_bind, Handler.run_ite] at h ⊢
  split at h
  · exact absurd h eUaSys_ne_ok
  rename_i hold
  rw [if_neg hold] at hmade ⊢
  obtain ⟨-, hmade⟩ := Handler.along_bind hmade
  rw [Handler.run_bind, Handler.run_ite] at h ⊢
  split at h
  · exact absurd h eUaSys_ne_ok
  rename_i hdiff
  rw [if_neg hdiff] at hmade ⊢
  obtain ⟨hnew, -⟩ := Handler.along_bind hmade
  obtain ⟨hplace, hfile⟩ := hnew.2.1 rfl
  have hremoved := removeDir_self hplace hfile hq
  rw [Handler.run_bind, Handler.run_ite]
  split
  · exact hremoved
  · exact hremoved

/-- Unpacking the packages is given no path in the new tree to write at. -/
theorem unpacks_packages (oldPkgFile diffPkgFile own : String) :
    (unpackPackages w.xmlReadFile dirs oldPkgFile diffPkgFile).All
      fun c => CallsTools stg c ∧ ¬ WritesAt own c := by
  simp only [unpackPackages, unzip, readManifest, readFile, Prog.all_bind, Prog.all_ite,
    Prog.all_perform, Prog.all_read, Prog.pure_eq, Prog.all_pure, CallsTools, WritesAt]
  simp only [true_and, not_false_eq_true, implies_true, and_true]
  intro _ _ _ _ _ _ found _
  cases found <;> trivial

theorem calls_packNew (newPkgFile : String) :
    (packNew dirs newPkgFile).All (CallsTools stg) := by
  simp [packNew, rmdirp, copyFile, zip, CallsTools]

theorem filesBelow_unlinked {tree : Tree} (h : Unlinked tree dir) {name : String}
    (hname : Plain name) :
    Disk.filesBelow tree dir (components name) = fileAt tree (dir ++ components name) := by
  have hwalk := walkTo_unlinked (walk tree 39) h (List.prefix_refl _) hname
  rw [Disk.filesBelow, maxLinks, walk, hwalk, Option.bind_some]

theorem zip_ok {archive path : String} (h : (w.zip d archive path).1 = eUaOk) :
    let after := (w.zip d archive path).2
    after.zipped = (place after.tree path).map (Disk.filesBelow after.tree) := by
  unfold Host.zip at h ⊢
  dsimp only at h ⊢
  split at h
  · rename_i hmade
    rw [if_pos hmade]
    rfl
  · exact absurd h eUaErr_ne_ok

/-- The new package is made of the tree that is there at the end. -/
theorem packNew_zipped {newPkgFile : String}
    (h : (w.handler.run (packNew dirs newPkgFile) d).1 = eUaOk) :
    let after := (w.handler.run (packNew dirs newPkgFile) d).2
    after.zipped = (place after.tree dirs.newPath).map (Disk.filesBelow after.tree) := by
  unfold packNew at h ⊢
  rw [Handler.run_bind, Handler.run_bind, Handler.run_ite] at h ⊢
  split at h
  · exact absurd h eUaErr_ne_ok
  rename_i hcopied
  rw [if_neg hcopied]
  rw [Handler.run_bind, Handler.run_bind, Handler.run_ite] at h ⊢
  split at h
  · exact absurd h eUaErr_ne_ok
  rename_i hzipped
  rw [if_neg hzipped]
  exact zip_ok (not_not.mp hzipped)

/-- Every file of the packed tree but the manifest is one of the new tree. -/
theorem packNew_ok (hdoc : Documented w stg) {newPkgFile : String}
    (hcalm : Calm w dir dirs.newPath (join dirs.newPath manifest) (packNew dirs newPkgFile) d)
    (hunlinked : Unlinked d.tree dir)
    (h : (w.handler.run (packNew dirs newPkgFile) d).1 = eUaOk) :
    ∃ tree, (w.handler.run (packNew dirs newPkgFile) d).2.zipped = some tree ∧
      ∀ name, Plain name → name ≠ manifest →
        tree (components name) = fileAt d.tree (dir ++ components name) := by
  obtain ⟨hstill, hkept⟩ := hcalm.keeps hdoc (calls_packNew _) (by decide) hunlinked
  refine ⟨Disk.filesBelow (w.handler.run (packNew dirs newPkgFile) d).2.tree dir, ?_,
    fun name hname hne => ?_⟩
  · rw [packNew_zipped h, Handler.Along.finish hcalm, Option.map_some]
  · rw [filesBelow_unlinked hstill hname]
    refine fileAt_congr (hkept _ (List.prefix_append _ _) fun hsame => hne ?_)
    exact components_injective (List.append_cancel_left hsame)

/-- A manifest whose entries have distinct plain names, none of them that of the manifest. -/
structure PlainManifest (diList : List DiffInfo) : Prop where
  plain : ∀ di ∈ diList, HasPlainName di
  distinct : (diList.map DiffInfo.name).Nodup
  notManifest : ∀ di ∈ diList, di.name ≠ some manifest

section Stages

variable (w : Host) (stg : DeltaStg) (oldPkgFile diffPkgFile newPkgFile : String) (d : Disk)

/-- The packages unpacked, and the manifest that is read. -/
def opened : Except Rc (List DiffInfo) × Disk :=
  w.handler.run
    (openPackages stg w.xmlReadFile (dirsOf stg diffPkgFile) oldPkgFile diffPkgFile) d

theorem opened_ok {diList : List DiffInfo}
    (h : (opened w stg oldPkgFile diffPkgFile d).1 = .ok diList) :
    (w.handler.run (makeDirs stg (dirsOf stg diffPkgFile)) d).1 = eUaOk ∧
      (opened w stg oldPkgFile diffPkgFile d).2 =
        (w.handler.run
          (unpackPackages w.xmlReadFile (dirsOf stg diffPkgFile) oldPkgFile diffPkgFile)
          (w.handler.run (makeDirs stg (dirsOf stg diffPkgFile)) d).2).2 := by
  unfold opened openPackages at h ⊢
  rw [Handler.run_bind, Handler.run_ite] at h ⊢
  split at h
  · cases h
  · rename_i hmade
    rw [if_neg hmade]
    exact ⟨not_not.mp hmade, rfl⟩

/-- The new tree with the entries' files. -/
def filled (diList : List DiffInfo) : Rc × Disk :=
  w.handler.run (reconstructEntries w.sha256Hex stg (dirsOf stg diffPkgFile) diList)
    (opened w stg oldPkgFile diffPkgFile d).2

/-- From its making to the packing the new directory is at `dir`; the shell reads each line as
it is meant, and no path written at leads into the directory, but those of an entry's own file
while it is reconstructed and of the manifest. -/
structure Undisturbed (dir : Path) (diList : List DiffInfo) : Prop where
  made : w.handler.Along (fun _ => True)
    (fun d c => MadeAt (dirsOf stg diffPkgFile).newPath dir d.tree c)
    (makeDirs stg (dirsOf stg diffPkgFile)) d
  unpacked : Calm w dir (dirsOf stg diffPkgFile).newPath
    (join (dirsOf stg diffPkgFile).newPath manifest)
    (unpackPackages w.xmlReadFile (dirsOf stg diffPkgFile) oldPkgFile diffPkgFile)
    (w.handler.run (makeDirs stg (dirsOf stg diffPkgFile)) d).2
  entries : EntriesCalm w stg (dirsOf stg diffPkgFile) dir diList
    (opened w stg oldPkgFile diffPkgFile d).2
  packed : Calm w dir (dirsOf stg diffPkgFile).newPath
    (join (dirsOf stg diffPkgFile).newPath manifest)
    (packNew (dirsOf stg diffPkgFile) newPkgFile)
    (filled w stg oldPkgFile diffPkgFile d diList).2

/-- A reconstruction that succeeds has filled the tree and packed it. -/
theorem deltaReconstruct_ok {diList : List DiffInfo}
    (hread : (opened w stg oldPkgFile diffPkgFile d).1 = .ok diList)
    (h : (w.deltaReconstruct stg oldPkgFile diffPkgFile newPkgFile d).1 = eUaOk) :
    (filled w stg oldPkgFile diffPkgFile d diList).1 = eUaOk ∧
      (w.handler.run (packNew (dirsOf stg diffPkgFile) newPkgFile)
        (filled w stg oldPkgFile diffPkgFile d diList).2).1 = eUaOk ∧
      (w.deltaReconstruct stg oldPkgFile diffPkgFile newPkgFile d).2.zipped =
        (w.handler.run (packNew (dirsOf stg diffPkgFile) newPkgFile)
          (filled w stg oldPkgFile diffPkgFile d diList).2).2.zipped := by
  have hremoved : ∀ (err : Rc) (d : Disk), w.handler.run (do
      removeDirs stg (dirsOf stg diffPkgFile)
      pure err : DeltaProg Rc) d =
        (err, (w.handler.run (removeDirs stg (dirsOf stg diffPkgFile)) d).2) :=
    fun _ _ => Handler.run_bind _ _ _ _
  have hzipped : ∀ d, (w.handler.run (removeDirs stg (dirsOf stg diffPkgFile)) d).2.zipped =
      d.zipped := by
    simp [removeDirs]
  unfold Host.deltaReconstruct DeltaPrograms.deltaReconstruct at h ⊢
  dsimp only at h ⊢
  rw [Handler.run_bind, hremoved] at h ⊢
  dsimp only at h ⊢
  rw [hzipped]
  unfold reconstruct at h ⊢
  unfold opened at hread
  unfold filled opened
  rw [Handler.run_bind, hread] at h ⊢
  dsimp only at h ⊢
  rw [Handler.run_bind, Handler.run_ite] at h ⊢
  split at h
  · rename_i hfail
    exact absurd h hfail
  rename_i hfilled
  rw [if_neg hfilled]
  exact ⟨not_not.mp hfilled, h, rfl⟩

end Stages

/-- A new package is made of the files that the entries promise. -/
def Integrity (w : Host) (stg : DeltaStg) (oldPkgFile diffPkgFile newPkgFile : String) (d : Disk)
    (diList : List DiffInfo) : Prop :=
  let result := w.deltaReconstruct stg oldPkgFile diffPkgFile newPkgFile d
  result.1 = eUaOk → ∃ tree, result.2.zipped = some tree ∧
    ∀ di ∈ diList, ∃ name, di.name = some name ∧ Delivered w di (tree (components name))

end Packages

/-- The digests of the one-byte files 1, 2 and 3. -/
def sampleSha256 (bytes : Bytes) : String :=
  if bytes = [1] then "4bf5122f344554c53bde2ebb8cd2b7e3d1600ad631c385a5d7cce23c7785459a"
  else if bytes = [2] then "dbc1b4c900ffe48d575b5da5c638040125f65db0fe3e24494b76ea986457d986"
  else "084fed08b978af4d7d196a7446a86b58009e636b611db16211b65a9aadff29c5"

/-- A file of a manifest. -/
def sampleFile (name : String) (fields : List XmlNode) : XmlNode :=
  .element "file" "" (.element "name" name [] :: fields)

def sampleDigest (side : String) (bytes : Bytes) : XmlNode :=
  .element "sha256" "" [.element side (sampleSha256 bytes) []]

/-- A file that is replaced as a whole. -/
def replacedFile (name compression : String) (fields : List XmlNode) : XmlNode :=
  sampleFile name ([sampleDigest "old" [1], sampleDigest "new" [2], .element "format" "none" [],
    .element "compression" compression []] ++ fields)

/-- A manifest with one file of each type. -/
def manifestWith (compression : String) : XmlNode :=
  .element "manifest_diff" "" [
    .element "added" "" [sampleFile "a" [sampleDigest "new" [1]]],
    .element "changed" "" [replacedFile "b" compression []],
    .element "unchanged" "" [sampleFile "dir/c" [sampleDigest "old" [3]]],
    .element "removed" "" [sampleFile "d" []]]

def sampleManifest : XmlNode := manifestWith "none"

def sampleStg : DeltaStg := ⟨"/cache", [], []⟩

def gzip : DeltaTool := ⟨"gzip", "gzip", "-cd {o} > {n}", false⟩

def gzipStg : DeltaStg := ⟨"/c", [], [gzip]⟩

/-- What gzip makes of a file of the byte 2. -/
def gzipped : Bytes :=
  [31, 139, 8, 0, 0, 0, 0, 0, 2, 3, 99, 2, 0, 161, 142, 12, 60, 1, 0, 0, 0]

def gunzip (bytes : Bytes) : Bytes := if bytes = gzipped then [2] else []

/-- The files that a line for gzip has read and written. -/
def redirected (line : String) : Option (String × String) :=
  match (Reader.start.read line.toList).finish with
  | [cmd, opt, file, .op ['>'], out] =>
      if cmd.word? = some "gzip" ∧ opt.word? = some "-cd" then
        match file.word?, out.word? with
        | some file, some out => some (file, out)
        | _, _ => none
      else none
  | _ => none

/-- gzip, and no other command. -/
def gzipRuns (tree : Tree) (line : String) : Bool × Tree :=
  match redirected line with
  | none => (false, tree)
  | some (file, out) =>
      ((content tree file).isSome, store tree out (some (gunzip ((content tree file).getD []))))

/-- A host on which every operation but the commands succeeds. -/
def gzipHost (manifest : XmlNode) (package : String → Tree) : Host where
  package := package
  xmlReadFile _ := some manifest
  sha256Hex := sampleSha256
  mkdirs _ _ _ := true
  unzips _ _ _ _ := none
  zips _ _ _ _ := true
  copies _ _ _ _ := none
  popens _ tree _ := (none, tree)
  systems _ tree line := gzipRuns tree line

theorem parts_gzip (old new : String) (diff : Option String) :
    (ToolExec.mk gzip old new diff).parts =
      ['g', 'z', 'i', 'p', ' ', '-', 'c', 'd', ' '].map .char ++
        .path old.toList :: ([' ', '>', ' '].map .char ++ [.path new.toList]) := by
  have hpath : (gzip.path ++ " ").toList = ['g', 'z', 'i', 'p', ' '] := by decide
  have hargs : gzip.args.toList =
      ['-', 'c', 'd', ' ', '{', 'o', '}', ' ', '>', ' ', '{', 'n', '}'] := by decide
  have hofa : ofa.toList = ['{', 'o', '}'] := by decide
  have hnfa : nfa.toList = ['{', 'n', '}'] := by decide
  have hpfa : pfa.toList = ['{', 'p', '}'] := by decide
  rw [ToolExec.parts, hargs, hpath]
  cases diff <;> simp [partsFrom, placeholderAt, startsWith, hofa, hnfa, hpfa]

theorem redirected_gzip {e : ToolExec} (htool : e.tool = gzip)
    (hreads : ReadsPaths Reader.start e.parts) : redirected e.cmd = some (e.old, e.new) := by
  obtain ⟨tool, old, new, diff⟩ := e
  obtain rfl : tool = gzip := htool
  have htokens : (readParts Reader.start (ToolExec.mk gzip old new diff).parts).finish =
      [.word ("gzip".toList.map .lit), .word ("-cd".toList.map .lit),
        .word (old.toList.map .lit), .op ['>'], .word (new.toList.map .lit)] := by
    rw [parts_gzip]
    rfl
  rw [redirected, cmd_eq, read_of_readsPaths hreads, htokens]
  simp only [Token.word?_lits, String.ofList_toList, and_self, if_true]

theorem not_redirected {line word : String} {words : List String} (hne : word ≠ "gzip")
    (h : simpleCommand line = some (word :: words)) : redirected line = none := by
  obtain ⟨token, tokens, hline, hword⟩ := word_of_simpleCommand h
  rw [redirected, hline]
  split
  · rename_i cmd opt file out heq
    obtain ⟨rfl, -⟩ := List.cons.inj heq
    exact if_neg fun hgzip => hne (Option.some.inj (hword.symm.trans hgzip.1))
  · rfl

theorem confined_self (tree : Tree) (c : Command) : Confined tree tree c := by
  cases c with
  | mkfsTime squashFile => rfl
  | unsquash unsqCmd squashFile => exact fun q h => absurd rfl h
  | mksquash unsqCmd packed options => exact fun q h => absurd rfl h
  | tool e => exact fun q h => absurd rfl h

theorem gzipHost_documented (manifest : XmlNode) (package : String → Tree) :
    Documented (gzipHost manifest package) gzipStg := by
  intro n tree c huses hmeant
  refine ⟨?_, confined_self tree c⟩
  have hother : redirected c.line = none → Confined tree (gzipRuns tree c.line).2 c := by
    intro hnone
    rw [gzipRuns, hnone]
    exact confined_self tree c
  change Confined tree (gzipRuns tree c.line).2 c
  cases c with
  | mkfsTime squashFile => exact hother (not_redirected (by decide) hmeant)
  | unsquash unsqCmd squashFile => exact hother (not_redirected (by decide) hmeant)
  | mksquash unsqCmd packed options =>
      obtain ⟨words, hline, hwords⟩ := Option.map_eq_some_iff.mp hmeant.1
      cases words with
      | nil => cases hwords
      | cons word words =>
          obtain rfl : word = "mksquashfs" := (List.cons.inj hwords).1
          exact hother (not_redirected (by decide) hline)
  | tool e =>
      have htool : e.tool = gzip := by simpa [UsesTools, gzipStg] using huses
      rw [gzipRuns, Command.line, redirected_gzip htool hmeant]
      exact writes_store _ _ _

mutual

/-- An element as it stands in its file. -/
def xmlText : XmlNode → String
  | .element name content children =>
      "<" ++ name ++ ">" ++ content ++ xmlTexts children ++ "</" ++ name ++ ">"

def xmlTexts : List XmlNode → String
  | [] => ""
  | node :: nodes => xmlText node ++ xmlTexts nodes

end

def filesOf (files : List (String × Entry Bytes)) : Tree :=
  fun p => (files.find? fun file => components file.1 = p).map Prod.snd

/-- An old package and a delta package with these files. -/
def packages (manifestNode : XmlNode) (old diff : List (String × Entry Bytes)) (archive : String) :
    Tree :=
  if archive = "/o.zip" then filesOf old
  else filesOf ((manifestDiff, .file (xmlText manifestNode).toUTF8.toList) ::
    (manifest, .file "<manifest/>".toUTF8.toList) :: diff)

def hostOf (manifestNode : XmlNode) (old diff : List (String × Entry Bytes)) : Host :=
  gzipHost manifestNode (packages manifestNode old diff)

def emptyDisk : Disk := ⟨fun _ => none, 0, none⟩

def entriesOf (manifestNode : XmlNode) : List DiffInfo :=
  (parseDiffManifest manifestNode).getD []

def sampleHost : Host :=
  hostOf (manifestWith "gzip") [("b", .file [1]), ("dir/c", .file [3]), ("d", .file [1])]
    [("a", .file [1]), ("b", .file gzipped), ("latest", .link "a")]

/-- A delta package with a link into the new tree, and a removed file below the link. -/
def linkManifest : XmlNode :=
  .element "manifest_diff" "" [
    .element "added" "" [sampleFile "b" [sampleDigest "new" [1]]],
    .element "removed" "" [sampleFile "dir/b" []]]

def linkHost : Host := hostOf linkManifest [] [("b", .file [1]), ("dir", .link "../new")]

/-- A changed file whose name ends the redirection of gzip and begins another. -/
def nameManifest : XmlNode :=
  .element "manifest_diff" "" [
    .element "added" "" [sampleFile "b" [sampleDigest "new" [1]]],
    .element "changed" "" [replacedFile "x>/c/delta/d/new/b #" "gzip"
      [.element "oldName" "c" []]]]

def nameHost : Host :=
  hostOf nameManifest [("c", .file [1])]
    [("b", .file [1]), ("x", .file gzipped), ("x>/c/delta/d/new/b #.z", .file [2])]

/-- The file b of the new package, after a run that succeeds. -/
def packedB (w : Host) : Option (Option Bytes) :=
  let result := w.deltaReconstruct gzipStg "/o.zip" "/d.zip" "/n.zip" emptyDisk
  if result.1 = eUaOk then result.2.zipped.map (· (components "b")) else none

theorem not_integrity {w : Host} {content : Option Bytes} {diList : List DiffInfo}
    (hpacked : packedB w = some content)
    (hlost : ∃ di ∈ diList, di.name = some "b" ∧ di.type = .added ∧
      ¬ HasSha256 w di.sha256New content) :
    ¬ Integrity w gzipStg "/o.zip" "/d.zip" "/n.zip" emptyDisk diList := by
  intro h
  unfold packedB at hpacked
  dsimp only at hpacked
  split at hpacked
  · rename_i hok
    obtain ⟨tree, hzipped, hdelivered⟩ := h hok
    rw [hzipped] at hpacked
    obtain rfl : tree (components "b") = content := Option.some.inj hpacked
    obtain ⟨di, hdi, hb, hadded, hnot⟩ := hlost
    obtain ⟨name, hname, hadd, -⟩ := hdelivered di hdi
    obtain rfl : name = "b" := Option.some.inj (hname.symm.trans hb)
    exact hnot (hadd (.inl hadded))
  · cases hpacked

end EsyncUa.DeltaIntegrity
