import EsyncUa.EntryLookups

/-!
The backup of an installed package, on the files. A file that is there already is recognised by
its digest, anything else is linked or copied, entered in the backup manifest, and the
reconstructed file it came from is removed.
-/
namespace EsyncUa.Backups

open EsyncUa.JsonProperties EsyncUa.Components EsyncUa.Programs EsyncUa.Operations
open EsyncUa.Installation EsyncUa.FilePaths EsyncUa.PackageDigests EsyncUa.PackageManifests
open EsyncUa.Footprints EsyncUa.FileWorlds EsyncUa.EntryLookups

variable {β : Type} {out : Outside β} {w w' : FileWorld β} {uacc : UaccPtr}
  {pkgName : Option String} {pkgFile backupFile : PkgFile} {rc : Rc}

section Manifests

/-- The first of several versions counts. -/
theorem foldl_version (fields : List (String × String)) (pkgFile : PkgFile) :
    (fields.foldl readField pkgFile).version =
      pkgFile.version.or ((fields.find? fun n => n.1 = "version").map Prod.snd) := by
  induction fields generalizing pkgFile with
  | nil => simp
  | cons n fields ih =>
      rw [List.foldl_cons, ih, List.find?_cons]
      by_cases hn : n.1 = "version"
      · simp [readField, hn]
      · have hkeeps : (readField pkgFile n).version = pkgFile.version := by
          simp only [readField, hn, if_false]
          split
          · split <;> rfl
          split
          · rfl
          split
          · rfl
          split <;> [rfl; split <;> rfl]
        simp [hkeeps, hn]

/-- An entry that is found has a path, and the version looked for. -/
theorem found_set {xml : Libxml β} {xmlFile : Option β} {version : String}
    (h : getPkgFileManifest xml true xmlFile version = .found pkgFile) :
    pkgFile.version = some version ∧ ∃ file, pkgFile.file = some file := by
  obtain ⟨content, root, rfl, hread, hfound⟩ := getPkgFileManifest_found_iff.mp h
  unfold getXmlVersionPkgFile at hfound
  obtain ⟨node, hmem, hnode⟩ := List.exists_of_findSome?_eq_some hfound
  split at hnode
  · rename_i hhas
    unfold getXmlPkgFile at hnode
    simp only at hnode
    split at hnode
    · rename_i hset
      cases hnode
      simp only [Bool.and_eq_true] at hset
      have hversion : node.child? "version" = some version := by
        simp only [hasVersion, Bool.and_eq_true, decide_eq_true_eq] at hhas
        exact hhas.2
      constructor
      · rw [foldl_version]
        exact hversion
      · cases hfile : (node.fields.foldl readField PkgFile.zero).file with
        | some file => exact ⟨file, rfl⟩
        | none =>
            rw [hfile] at hset
            cases hset.1.1
    · cases hnode
  · cases hnode

end Manifests

section Stages

/-- What backup_package puts into the manifest. -/
def backupFileOf (intl : UaInternal) (pkgName : Option String) (pkgFile : PkgFile) : PkgFile :=
  { PkgFile.zero with
    file := Components.join intl.backupDir
      [some "backup", pkgName, pkgFile.version, fBasename pkgFile.file]
    version := pkgFile.version
    downloaded := 1
    sha256b64 := pkgFile.sha256b64
    shaOfSha := pkgFile.shaOfSha }

/-- Nothing is copied: no path can be made, or the file is the backup, or the backup is taken
for one. -/
def Skips (out : Outside β) (w : FileWorld β) (pkgFile backupFile : PkgFile) : Prop :=
  backupFile.file = none ∨ pkgFile.file = backupFile.file ∨
    sha256xcmp (calcSha256X out w backupFile.file) backupFile.sha256b64 = 0

/-- The part of backup_package that links or copies. -/
def place (pkgFile backupFile : PkgFile) : UaProg (Rc × Option String × Bool) := do
  let source ← backupSourceFile pkgFile
  let linked ← ext (.makeFileHardLink source.1 backupFile.file)
  let err ←
    (if linked = eUaOk then pure eUaOk else ext (.copyFile source.1 backupFile.file))
  pure (err, source)

theorem copyToBackup_eq (uacc : UaccPtr) (pkgFile backupFile : PkgFile) :
    copyToBackup uacc pkgFile backupFile = (do
      let placed ← place pkgFile backupFile
      let backupManifest ← readComp uacc (·.backupManifest)
      doIf (placed.1 = eUaOk) (ignoring (ext (.addPkgFileManifest backupManifest backupFile)))
      doIf placed.2.2 (ext (.unlink placed.2.1))
      pure placed.1) := by
  unfold copyToBackup place
  simp only [bind_assoc, pure_bind]

theorem run_isBackedUp (out : Outside β) (w : FileWorld β) (pkgFile backupFile : PkgFile) :
    run out (isBackedUp pkgFile backupFile) w =
      if pkgFile.file = backupFile.file then some (true, w)
      else some (decide (sha256xcmp (calcSha256X out w backupFile.file)
        backupFile.sha256b64 = 0), w.next) := by
  unfold isBackedUp
  rw [run_ite]
  congr 1

theorem run_backupPackage (out : Outside β) (w : FileWorld β) (uacc : UaccPtr)
    (pkgName : Option String) (pkgFile : PkgFile) :
    run out (backupPackage uacc pkgName pkgFile) w =
      let backupFile := backupFileOf w.shared.intl pkgName pkgFile
      if (fBasename pkgFile.file).isSome ∧ (w.shared.comp uacc).backupManifest.isSome then
        if backupFile.file.isSome ∧ backupFile.version.isSome then
          (run out (isBackedUp pkgFile backupFile) w).bind fun done =>
            if done.1 then some (eUaOk, done.2)
            else run out (copyToBackup uacc pkgFile backupFile) done.2
        else some (eUaOk, w)
      else some (eUaErr, w) := by
  unfold backupPackage
  simp only [run_bind, run_readComp, run_readIntl, Option.bind_some, run_ite, Prog.pure_eq,
    run_pure]
  rfl

/-- Without a copy the files stay. -/
theorem backupPackage_skips {version file : String} (hversion : pkgFile.version = some version)
    (hfile : pkgFile.file = some file) {manifest : String}
    (hmanifest : (w.shared.comp uacc).backupManifest = some manifest)
    (hskips : Skips out w pkgFile (backupFileOf w.shared.intl pkgName pkgFile)) :
    ∃ w', run out (backupPackage uacc pkgName pkgFile) w = some (eUaOk, w') ∧
      w'.files = w.files ∧ w'.moves = w.moves := by
  have hset : (backupFileOf w.shared.intl pkgName pkgFile).version.isSome := by
    rw [backupFileOf, hversion]
    rfl
  rw [run_backupPackage]
  simp only [hfile, hmanifest, fBasename, Option.map_some, Option.isSome_some, and_self, if_true,
    hset, and_true, run_isBackedUp]
  rcases hskips with hnone | hsame | hequal
  · exact ⟨w, by simp [hnone], rfl, rfl⟩
  · rw [← hsame, hfile]
    exact ⟨w, by simp, rfl, rfl⟩
  · split
    · split
      · exact ⟨w, rfl, rfl, rfl⟩
      · exact ⟨w.next, by simp [hequal], rfl, rfl⟩
    · exact ⟨w, rfl, rfl, rfl⟩

/-- What is not recognised is copied. -/
theorem backupPackage_copies {version file : String} (hversion : pkgFile.version = some version)
    (hfile : pkgFile.file = some file) {manifest : String}
    (hmanifest : (w.shared.comp uacc).backupManifest = some manifest)
    (hskips : ¬ Skips out w pkgFile (backupFileOf w.shared.intl pkgName pkgFile)) :
    run out (backupPackage uacc pkgName pkgFile) w =
      run out (copyToBackup uacc pkgFile (backupFileOf w.shared.intl pkgName pkgFile))
        w.next := by
  have hset : (backupFileOf w.shared.intl pkgName pkgFile).version.isSome := by
    rw [backupFileOf, hversion]
    rfl
  simp only [Skips, not_or] at hskips
  obtain ⟨hnone, hother, hdiffers⟩ := hskips
  rw [run_backupPackage]
  simp only [hmanifest, hset, run_isBackedUp]
  rw [if_pos (by simp [hfile, fBasename]), if_pos ⟨Option.isSome_iff_ne_none.mpr hnone, trivial⟩,
    if_neg hother, Option.bind_some, if_neg (by simpa using hdiffers)]

/-- The reconstructed file goes after the backup. -/
def removeSource (source : Option String × Bool) (w : FileWorld β) : FileWorld β :=
  if source.2 then ((source.1.map fun path => w.setFile path none).getD w).next.moved else w

/-- A backup that reports success has put the file in place, asked for its entry and removed the
source. -/
theorem copyToBackup_run {manifest : String}
    (hmanifest : (w.shared.comp uacc).backupManifest = some manifest)
    (h : run out (copyToBackup uacc pkgFile backupFile) w = some (rc, w')) :
    ∃ source w₁, run out (place pkgFile backupFile) w = some ((rc, source), w₁) ∧
      (rc = eUaOk → w' = removeSource source
        (addManifest out w₁ (some manifest) backupFile).2) := by
  rw [copyToBackup_eq, run_bind] at h
  obtain ⟨⟨⟨err, source⟩, w₁⟩, hplace, h⟩ := Option.bind_eq_some_iff.mp h
  have hshared := run_shared hplace
  simp only [run_bind, run_readComp, Option.bind_some, hshared, hmanifest, run_doIf,
    run_ignoring, run_ext, extStep, Option.map_some, Prog.pure_eq, run_pure] at h
  obtain ⟨reconstructed, hsource⟩ : ∃ b, source.2 = b := ⟨_, rfl⟩
  have hrc : rc = err := by
    split at h <;> split at h <;> cases h <;> rfl
  subst hrc
  refine ⟨source, w₁, hplace, ?_⟩
  intro hok
  rw [if_pos hok] at h
  unfold removeSource
  cases reconstructed with
  | false =>
      simp only [hsource, Bool.false_eq_true, if_false, Option.bind_some] at h ⊢
      cases h
      rfl
  | true =>
      simp only [hsource, if_true, Option.bind_some] at h ⊢
      cases h
      rfl

end Stages

section Results

/-- The path leads to an archive with this digest. -/
def HasDigest (out : Outside β) (files : Files β) (file : Option String) (sha : Sha256B64) :
    Prop :=
  ∃ content d, (file.bind fun path => files (resolve path)) = some content ∧
    out.digestOf content = some d ∧ d.val = sha.val

/-- The manifest has an entry of the version, whose file is there with its digest. -/
def Good (out : Outside β) (files : Files β) (manifest version : String) : Prop :=
  ∃ pf, getPkgFileManifest out.xml true (files (resolve manifest)) version = .found pf ∧
    HasDigest out files pf.file pf.shaOfSha

/-- The source is removed and was here. -/
def Removed (source : Option String × Bool) (p : Path) : Prop :=
  source.2 = true ∧ source.1.map resolve = some p

instance (source : Option String × Bool) (p : Path) : Decidable (Removed source p) :=
  inferInstanceAs (Decidable (_ ∧ _))

def without (source : Option String × Bool) (files : Files β) : Files β :=
  fun p => if Removed source p then none else files p

theorem removeSource_files (source : Option String × Bool) (w : FileWorld β) :
    (removeSource source w).files = without source w.files := by
  obtain ⟨path, reconstructed⟩ := source
  funext p
  unfold removeSource without Removed
  cases reconstructed with
  | false => simp
  | true =>
      cases path with
      | none => simp [FileWorld.moved, FileWorld.next]
      | some path =>
          by_cases hp : p = resolve path
          · subst hp
            simp [FileWorld.moved, FileWorld.next, FileWorld.setFile]
          · simp [FileWorld.moved, FileWorld.next, FileWorld.setFile, write_other hp,
              Ne.symm hp]

/-- Whether a file that has been put in place gets an entry that is good. Either the entry is
written and the reader takes it, what it leads to has the digest, is not the manifest itself,
and neither goes with the source; or it is not written, and the manifest that is left has a
good one. -/
def Recorded (out : Outside β) (w : FileWorld β) (manifest version : String)
    (source : Option String × Bool) (backupFile : PkgFile) : Prop :=
  (EntryWritten (out.addCalls w.asked) (calcSha256X out w backupFile.file) backupFile ∧
    ¬ Removed source (resolve manifest) ∧ ∃ file, ReadAs out.xml backupFile version file ∧
      resolve file ≠ resolve manifest ∧ ¬ Removed source (resolve file) ∧
      HasDigest out w.files (some file) backupFile.shaOfSha) ∨
  (¬ EntryWritten (out.addCalls w.asked) (calcSha256X out w backupFile.file) backupFile ∧
    Good out (without source (write w.files (resolve manifest)
      (leftManifest (out.addCalls w.asked) (calcSha256X out w backupFile.file)
        (w.files (resolve manifest)) backupFile))) manifest version)

/-- No document is an archive. -/
def DocumentsAreNoArchives (out : Outside β) : Prop :=
  ∀ doc, out.archive (out.xml.xmlSave doc) = none

theorem not_good_of_removed {source : Option String × Bool} {files : Files β}
    {manifest version : String} (h : Removed source (resolve manifest)) :
    ¬ Good out (without source files) manifest version := by
  rintro ⟨pf, hfound, _⟩
  rw [without, if_pos h] at hfound
  cases hfound

/-- What the files left say about the digest of a file that is not the manifest. -/
theorem hasDigest_left_iff (hdocs : DocumentsAreNoArchives out) {source : Option String × Bool}
    {files : Files β} {manifest file : String} {doc : Doc} {sha : Sha256B64} :
    HasDigest out (without source (write files (resolve manifest) (some (out.xml.xmlSave doc))))
        (some file) sha ↔
      resolve file ≠ resolve manifest ∧ ¬ Removed source (resolve file) ∧
        HasDigest out files (some file) sha := by
  unfold HasDigest
  simp only [Option.bind_some, without]
  by_cases hremoved : Removed source (resolve file)
  · simp [hremoved]
  · by_cases hsame : resolve file = resolve manifest
    · simp only [hsame, if_neg (hsame ▸ hremoved), write_self]
      constructor
      · rintro ⟨content, d, hcontent, hd, _⟩
        cases hcontent
        rw [Outside.digestOf, hdocs] at hd
        cases hd
      · intro h
        exact absurd rfl h.1
    · simp [hremoved, hsame, write_other hsame]

theorem good_iff_recorded (hxml : out.xml.Documented) (hrejects : RejectsOthers out.xml)
    (hdocs : DocumentsAreNoArchives out) {manifest version : String}
    (hversion : backupFile.version = some version) (source : Option String × Bool) :
    Good out (removeSource source (addManifest out w (some manifest) backupFile).2).files
        manifest version ↔
      Recorded out w manifest version source backupFile := by
  have hfiles : (addManifest out w (some manifest) backupFile).2.files =
      write w.files (resolve manifest) (addPkgFileManifest out.xml (out.addCalls w.asked)
        (calcSha256X out w backupFile.file) (w.files (resolve manifest)) backupFile).xmlFile := rfl
  rw [removeSource_files, hfiles]
  by_cases hwritten : EntryWritten (out.addCalls w.asked)
      (calcSha256X out w backupFile.file) backupFile
  · by_cases hremoved : Removed source (resolve manifest)
    · constructor
      · intro hgood
        exact absurd hgood (not_good_of_removed hremoved)
      · rintro (⟨_, hnot, _⟩ | ⟨hnot, _⟩)
        · exact absurd hremoved hnot
        · exact absurd hwritten hnot
    · unfold Recorded Good
      rw [without, if_neg hremoved, write_self]
      simp only [added_found_iff hxml hrejects hversion, hwritten, not_true_eq_false, true_and,
        false_and, or_false, hremoved, not_false_eq_true]
      rw [addPkgFileManifest_written hwritten]
      constructor
      · rintro ⟨pf, ⟨⟨file, hentry⟩, rfl⟩, hdigest⟩
        rw [readEntry_file hentry] at hdigest
        exact ⟨file, hentry, (hasDigest_left_iff hdocs).mp hdigest⟩
      · rintro ⟨file, hentry, hdigest⟩
        refine ⟨_, ⟨⟨file, hentry⟩, rfl⟩, ?_⟩
        rw [readEntry_file hentry]
        exact (hasDigest_left_iff hdocs).mpr hdigest
  · unfold Recorded
    rw [addPkgFileManifest_left hwritten]
    simp [hwritten]

/-- The package of the examples, with the digest of its archive. -/
def sampleUpdate : PkgFile :=
  { samplePkgFile "1" with
    shaOfSha := (contentsDigest sampleSsl PackageDigests.sampleFiles).toSha256B64 }

def sampleUpdateDigest : Calculated :=
  ⟨eUaOk, some (contentsDigest sampleSsl PackageDigests.sampleFiles)⟩

/-- The update manifest with the entry of that package. -/
def sampleUpdateManifest : Option (Option Doc) :=
  (addPkgFileManifest sampleFileXml ⟨true, true, none⟩ sampleUpdateDigest none
    sampleUpdate).xmlFile

def sampleEntry : PkgFile := readEntry sampleFileXml sampleUpdate

theorem sampleEntry_found :
    getPkgFileManifest sampleFileXml true sampleUpdateManifest "1" = .found sampleEntry := by
  have hread : ReadAs sampleFileXml sampleUpdate "1" "/data/pkg.zip" :=
    ⟨by decide, rfl, by decide, rfl, by decide, by decide +kernel⟩
  have hwritten : EntryWritten (⟨true, true, none⟩ : AddCalls (Option Doc)) sampleUpdateDigest
      sampleUpdate :=
    ⟨(sha256xcmp_zero_iff _ _).mpr (.inl ⟨_, rfl, rfl⟩), rfl⟩
  exact (added_found_iff sampleFileXml_documented sampleFileXml_rejects rfl).mpr
    (.inl ⟨hwritten, ⟨_, hread⟩, rfl⟩)

theorem sampleOutside_documents : DocumentsAreNoArchives sampleOutside := fun _ => rfl

/-- The backup of that package, where some copies of it are there already. -/
def sampleBackup (out : Outside (Option Doc)) (copies : List String) :
    Option (Rc × FileWorld (Option Doc)) :=
  run out (backupPackage 0 (some "pkg") sampleEntry) (sampleWorld copies)

/-- What the two backups of the examples do: the first succeeds, and with a copy where the backup
goes a link is made all the same. -/
theorem sampleBackups :
    (sampleBackup sampleOutside []).map Prod.fst = some eUaOk ∧
      (sampleBackup sampleOutside ["/data/backup/pkg/1/pkg.zip"]).map (fun r => r.2.moves) =
        some 1 ∧
      (backupFileOf (sampleWorld ["/data/backup/pkg/1/pkg.zip"]).shared.intl (some "pkg")
        sampleEntry).file = some "/data/backup/pkg/1/pkg.zip" ∧
      calcSha256X sampleOutside (sampleWorld ["/data/backup/pkg/1/pkg.zip"])
        (some "/data/backup/pkg/1/pkg.zip") =
          ⟨eUaOk, some (contentsDigest sampleSsl PackageDigests.sampleFiles)⟩ := by
  refine ⟨?_, ?_, ?_, ?_⟩
  · decide +kernel
  · decide +kernel
  · decide +kernel
  · decide +kernel

/-- A backup that reports success is good exactly if what is there was good already, or what has
been put in place is recorded. -/
theorem backed_up_iff (hxml : out.xml.Documented) (hrejects : RejectsOthers out.xml)
    (hdocs : DocumentsAreNoArchives out) {updateManifest : Option β} {version : String}
    (hentry : getPkgFileManifest out.xml true updateManifest version = .found pkgFile)
    (h : run out (backupPackage uacc pkgName pkgFile) w = some (eUaOk, w')) :
    ∃ manifest, (w.shared.comp uacc).backupManifest = some manifest ∧
      (Good out w'.files manifest version ↔
        (Skips out w pkgFile (backupFileOf w.shared.intl pkgName pkgFile) →
          Good out w.files manifest version) ∧
        (¬ Skips out w pkgFile (backupFileOf w.shared.intl pkgName pkgFile) →
          ∃ source w₁, run out (place pkgFile (backupFileOf w.shared.intl pkgName pkgFile))
              w.next = some ((eUaOk, source), w₁) ∧
            Recorded out w₁ manifest version source
              (backupFileOf w.shared.intl pkgName pkgFile))) := by
  obtain ⟨hversion, file, hfile⟩ := found_set hentry
  cases hmanifest : (w.shared.comp uacc).backupManifest with
  | none =>
      rw [run_backupPackage] at h
      simp only [hmanifest, Option.isSome_none, Bool.false_eq_true, and_false, if_false] at h
      cases h
  | some manifest =>
      refine ⟨manifest, rfl, ?_⟩
      by_cases hskips : Skips out w pkgFile (backupFileOf w.shared.intl pkgName pkgFile)
      · obtain ⟨w'', hrun, hfiles, _⟩ := backupPackage_skips hversion hfile hmanifest hskips
        rw [hrun] at h
        cases h
        simp [hskips, hfiles]
      · rw [backupPackage_copies hversion hfile hmanifest hskips] at h
        have hnext : (w.next.shared.comp uacc).backupManifest = some manifest := hmanifest
        obtain ⟨source, w₁, hplace, hend⟩ := copyToBackup_run hnext h
        have hkept : (backupFileOf w.shared.intl pkgName pkgFile).version = some version :=
          hversion
        rw [hend rfl, good_iff_recorded hxml hrejects hdocs hkept source]
        constructor
        · intro hrecorded
          exact ⟨fun hskip => absurd hskip hskips, fun _ => ⟨source, w₁, hplace, hrecorded⟩⟩
        · rintro ⟨_, hcopied⟩
          obtain ⟨source', w₁', hplace', hrecorded⟩ := hcopied hskips
          rw [hplace] at hplace'
          cases hplace'
          exact hrecorded

theorem backed_up_iff_example :
    ∃ w', sampleBackup sampleOutside [] = some (eUaOk, w') ∧
      ∃ manifest, sampleComponent.backupManifest = some manifest ∧
        (Good sampleOutside w'.files manifest "1" ↔
          (Skips sampleOutside (sampleWorld []) sampleEntry
              (backupFileOf sampleShared.intl (some "pkg") sampleEntry) →
            Good sampleOutside (sampleWorld []).files manifest "1") ∧
          (¬ Skips sampleOutside (sampleWorld []) sampleEntry
              (backupFileOf sampleShared.intl (some "pkg") sampleEntry) →
            ∃ source w₁, run sampleOutside (place sampleEntry
                (backupFileOf sampleShared.intl (some "pkg") sampleEntry))
                (sampleWorld []).next = some ((eUaOk, source), w₁) ∧
              Recorded sampleOutside w₁ manifest "1" source
                (backupFileOf sampleShared.intl (some "pkg") sampleEntry))) := by
  obtain ⟨⟨rc, w'⟩, h, hok⟩ := Option.map_eq_some_iff.mp sampleBackups.1
  cases hok
  exact ⟨w', h, backed_up_iff sampleFileXml_documented sampleFileXml_rejects
    sampleOutside_documents sampleEntry_found h⟩

/-- Success is reported although the entry could not be saved. -/
theorem backup_is_not_recorded :
    ¬ ∀ (out : Outside (Option Doc)) (w w' : FileWorld (Option Doc)) (uacc : UaccPtr)
      (pkgName : Option String) (pkgFile : PkgFile) (updateManifest : Option (Option Doc))
      (version : String), out.xml.Documented → RejectsOthers out.xml →
      DocumentsAreNoArchives out →
      getPkgFileManifest out.xml true updateManifest version = .found pkgFile →
      run out (backupPackage uacc pkgName pkgFile) w = some (eUaOk, w') →
      ∃ manifest, (w.shared.comp uacc).backupManifest = some manifest ∧
        Good out w'.files manifest version := by
  intro h
  have hrun : (sampleBackup fullDisk []).map (fun r => (r.1, r.2.files
      (resolve "/data/backup/pkg/manifest_pkg.xml"))) = some (eUaOk, none) := by decide +kernel
  obtain ⟨⟨rc, w'⟩, hsome, hend⟩ := Option.map_eq_some_iff.mp hrun
  obtain ⟨hok, hfile⟩ := Prod.mk.inj hend
  cases hok
  obtain ⟨manifest, hmanifest, pf, hfound, _⟩ := h fullDisk (sampleWorld []) w' 0 (some "pkg")
    sampleEntry _ "1" sampleFileXml_documented sampleFileXml_rejects sampleOutside_documents
    sampleEntry_found hsome
  cases hmanifest
  rw [hfile] at hfound
  cases hfound

theorem backupSourceFile_some {file : String} (hfile : pkgFile.file = some file)
    {source : Option String × Bool}
    (h : run out (backupSourceFile pkgFile) w = some (source, w')) :
    ∃ src, source.1 = some src := by
  unfold backupSourceFile at h
  simp only [run_bind, run_readIntl, Option.bind_some, run_ite, Prog.pure_eq, run_pure, hfile] at h
  split at h
  · split at h
    · rename_i hset
      obtain ⟨src, hsrc⟩ := Option.isSome_iff_exists.mp hset
      obtain ⟨⟨there, w₁⟩, _, h⟩ := Option.bind_eq_some_iff.mp h
      split at h
      · cases h
        exact ⟨src, hsrc⟩
      · cases h
        exact ⟨file, rfl⟩
    · cases h
      exact ⟨file, rfl⟩
  · cases h
    exact ⟨file, rfl⟩

/-- Linking or copying is counted, whatever comes of it. -/
theorem copyToBackup_moves {file dst : String} (hfile : pkgFile.file = some file)
    (hdst : backupFile.file = some dst)
    (h : run out (copyToBackup uacc pkgFile backupFile) w = some (rc, w')) :
    w.moves < w'.moves := by
  unfold copyToBackup at h
  rw [run_bind] at h
  obtain ⟨⟨source, w₁⟩, hsource, h⟩ := Option.bind_eq_some_iff.mp h
  obtain ⟨src, hsrc⟩ := backupSourceFile_some hfile hsource
  simp only at h
  rw [run_bind] at h
  obtain ⟨⟨linked, w₂⟩, hlink, hrest⟩ := Option.bind_eq_some_iff.mp h
  have hcounted : w₂.moves = w₁.moves + 1 := by
    rw [run_ext, hsrc, hdst] at hlink
    have hw₂ : w₂ = (makeFileHardLink out w₁ src dst).2 :=
      (congrArg Prod.snd (Option.some.inj hlink)).symm
    rw [hw₂, (makeFileHardLink_frame src dst).2]
  calc w.moves ≤ w₁.moves := run_moves hsource
    _ < w₂.moves := by omega
    _ ≤ w'.moves := run_moves hrest

/-- A backup whose digest is the one of the entry is left alone exactly if it is the installed
file itself, or the entry has the same text for its other digest, that of the plain file. -/
theorem recognised_iff {updateManifest : Option β} {version : String}
    (hentry : getPkgFileManifest out.xml true updateManifest version = .found pkgFile)
    {manifest file : String} (hmanifest : (w.shared.comp uacc).backupManifest = some manifest)
    (hfile : (backupFileOf w.shared.intl pkgName pkgFile).file = some file) {d : DigestB64}
    (hdigest : calcSha256X out w (some file) = ⟨eUaOk, some d⟩)
    (hsha : d.val = pkgFile.shaOfSha.val)
    (h : run out (backupPackage uacc pkgName pkgFile) w = some (rc, w')) :
    (rc = eUaOk ∧ w'.files = w.files ∧ w'.moves = w.moves) ↔
      pkgFile.file = some file ∨ pkgFile.sha256b64.val = pkgFile.shaOfSha.val := by
  obtain ⟨hversion, installed, hinstalled⟩ := found_set hentry
  have hskips : Skips out w pkgFile (backupFileOf w.shared.intl pkgName pkgFile) ↔
      pkgFile.file = some file ∨ pkgFile.sha256b64.val = pkgFile.shaOfSha.val := by
    unfold Skips
    rw [hfile, hdigest, sha256xcmp_zero_iff]
    constructor
    · rintro (hnone | hsame | ⟨d', hd', hval⟩ | ⟨hnone, _⟩)
      · cases hnone
      · exact .inl hsame
      · cases hd'
        exact .inr (hval.symm.trans hsha)
      · cases hnone
    · rintro (hsame | hequal)
      · exact .inr (.inl hsame)
      · exact .inr (.inr (.inl ⟨d, rfl, hsha.trans hequal.symm⟩))
  rw [← hskips]
  constructor
  · rintro ⟨_, _, hmoves⟩
    by_contra hnot
    rw [backupPackage_copies hversion hinstalled hmanifest hnot] at h
    have hmoved := copyToBackup_moves hinstalled hfile h
    have hnext : w.next.moves = w.moves := rfl
    omega
  · intro hskips
    obtain ⟨w'', hrun, hfiles, hmoves⟩ := backupPackage_skips hversion hinstalled hmanifest hskips
    rw [hrun] at h
    cases h
    exact ⟨rfl, hfiles, hmoves⟩

theorem recognised_iff_example :
    ∃ rc w', sampleBackup sampleOutside ["/data/backup/pkg/1/pkg.zip"] = some (rc, w') ∧
      ((rc = eUaOk ∧ w'.files = (sampleWorld ["/data/backup/pkg/1/pkg.zip"]).files ∧
          w'.moves = 0) ↔
        sampleEntry.file = some "/data/backup/pkg/1/pkg.zip" ∨
          sampleEntry.sha256b64.val = sampleEntry.shaOfSha.val) := by
  obtain ⟨_, htwice, hfile, hdigest⟩ := sampleBackups
  obtain ⟨⟨rc, w'⟩, h, _⟩ := Option.map_eq_some_iff.mp htwice
  exact ⟨rc, w', h, recognised_iff sampleEntry_found rfl hfile hdigest rfl h⟩

/-- A backup that is there with the digest of the entry is made again. -/
theorem backup_is_made_again :
    ¬ ∀ (out : Outside (Option Doc)) (w w' : FileWorld (Option Doc)) (uacc : UaccPtr)
      (pkgName : Option String) (pkgFile : PkgFile) (updateManifest : Option (Option Doc))
      (version manifest file : String) (d : DigestB64) (rc : Rc),
      getPkgFileManifest out.xml true updateManifest version = .found pkgFile →
      (w.shared.comp uacc).backupManifest = some manifest →
      (backupFileOf w.shared.intl pkgName pkgFile).file = some file →
      calcSha256X out w (some file) = ⟨eUaOk, some d⟩ → d.val = pkgFile.shaOfSha.val →
      run out (backupPackage uacc pkgName pkgFile) w = some (rc, w') →
      rc = eUaOk ∧ w'.files = w.files ∧ w'.moves = w.moves := by
  intro h
  obtain ⟨_, htwice, hfile, hdigest⟩ := sampleBackups
  obtain ⟨⟨rc, w'⟩, hrun, hmoves⟩ := Option.map_eq_some_iff.mp htwice
  have hkept := (h sampleOutside (sampleWorld ["/data/backup/pkg/1/pkg.zip"]) w' 0 (some "pkg")
    sampleEntry _ "1" _ _ _ rc sampleEntry_found rfl hfile hdigest rfl hrun).2.2
  rw [hkept] at hmoves
  exact absurd hmoves (by decide)

end Results

end EsyncUa.Backups
