import EsyncUa.EntryLookups

/-!
The preparation of an installation, on the files. A package is ready only when the file that
was delivered has the digest announced for it; its entry in the update manifest is written at
the end, and the message that follows looks it up there.
-/
namespace EsyncUa.Preparations

open EsyncUa.JsonProperties EsyncUa.Components EsyncUa.Programs EsyncUa.Operations
open EsyncUa.Installation EsyncUa.FilePaths EsyncUa.PackageDigests EsyncUa.PackageManifests
open EsyncUa.Footprints EsyncUa.FileWorlds EsyncUa.EntryLookups

variable {β : Type} {out : Outside β} {w w' : FileWorld β} {uacc : UaccPtr}
  {pkgFile updateFile : PkgFile} {bck : Bool} {ue : UpdateErr} {prepared : Prepared}

section Verification

/-- The part of prepare_install_action that hands the file over to the component. -/
def deliver (uacc : UaccPtr) (pkgFile : PkgFile) (bck : Bool) : UaProg (Rc × PkgFile) := do
  let pkgInfo ← readComp uacc (·.updatePkg)
  let uar ← readComp uacc (·.uar)
  if ¬bck ∧ uar.onTransferFile then transferFileAction uacc pkgInfo pkgFile
  else pure (eUaOk, pkgFile)

/-- The digest announced for what is delivered. -/
def announced (pkgFile : PkgFile) : Sha256B64 :=
  if pkgFile.deltaSha256b64.val ≠ "" then pkgFile.deltaSha256b64 else pkgFile.sha256b64

/-- The path leads to a file with this SHA-256. -/
def HasSha256 (out : Outside β) (w : FileWorld β) (file : Option String) (sha : Sha256B64) :
    Prop := ∃ content, w.content file = some content ∧ (out.sha256B64 content).val = sha.val

theorem verifyFileHashB64_ok {file : Option String} {sha : Sha256B64}
    (h : verifyFileHashB64 out w file sha = eUaOk) : HasSha256 out w file sha := by
  unfold verifyFileHashB64 calculateSha256B64 at h
  split at h
  · exact absurd h (by decide)
  · split at h
    · exact absurd h (by decide)
    · rename_i b64buff hcalc
      split at h
      · rename_i heq
        split at hcalc
        · cases hcalc
        · obtain ⟨content, hcontent, hsha⟩ := Option.map_eq_some_iff.mp hcalc
          exact ⟨content, hcontent, hsha ▸ heq⟩
      · exact absurd h (by decide)

theorem prepareTransfer_eq (uacc : UaccPtr) (pkgFile : PkgFile) (bck : Bool) :
    prepareTransfer uacc pkgFile bck = (do
      let delivered ← deliver uacc pkgFile bck
      let disabled ← readIntl (·.packageVerificationDisabled)
      if delivered.1 = eUaOk ∧ ¬disabled then
        let err ← ext (.verifyFileHashB64 delivered.2.file (announced delivered.2))
        pure (err, delivered.2)
      else pure delivered) := by
  unfold prepareTransfer deliver announced
  simp only [bind_assoc]

/-- The delivery changes the path at most. -/
theorem deliver_announced {rc : Rc} {delivered : PkgFile}
    (h : run out (deliver uacc pkgFile bck) w = some ((rc, delivered), w')) :
    announced delivered = announced pkgFile := by
  unfold deliver transferFileAction at h
  simp only [run_bind, run_readComp, Option.bind_some, run_ite, Prog.pure_eq, run_pure] at h
  split at h
  · split at h
    · obtain ⟨⟨reply, w₁⟩, _, h⟩ := Option.bind_eq_some_iff.mp h
      split at h <;> cases h <;> rfl
    · cases h
      rfl
  · cases h
    rfl

theorem prepareTransfer_run {err : Rc} {delivered : PkgFile}
    (hverify : w.shared.intl.packageVerificationDisabled = false)
    (h : run out (prepareTransfer uacc pkgFile bck) w = some ((err, delivered), w')) :
    ∃ rc w₁, run out (deliver uacc pkgFile bck) w = some ((rc, delivered), w₁) ∧
      w'.files = w₁.files ∧
      (err = eUaOk → HasSha256 out w₁ delivered.file (announced pkgFile)) := by
  rw [prepareTransfer_eq, run_bind] at h
  obtain ⟨⟨⟨rc, p⟩, w₁⟩, hdeliver, h⟩ := Option.bind_eq_some_iff.mp h
  have hshared := run_shared hdeliver
  have hann := deliver_announced hdeliver
  simp only [run_bind, run_readIntl, Option.bind_some, run_ite, hshared, hverify,
    Prog.pure_eq, run_pure] at h
  split at h
  · cases h
    refine ⟨rc, w₁, hdeliver, rfl, ?_⟩
    intro hok
    rw [← hann]
    exact verifyFileHashB64_ok hok
  · rename_i hrc
    cases h
    refine ⟨err, w', hdeliver, rfl, ?_⟩
    intro hok
    exact absurd ⟨hok, by simp⟩ hrc

/-- prepare_install_action up to the entry in the update manifest. -/
def chooseFile (uacc : UaccPtr) (pkgFile : PkgFile) (bck : Bool) (updateFile : PkgFile)
    (ue : UpdateErr) : UaProg Prepared := do
  let updateFile := { updateFile with version := pkgFile.version }
  let (err, pkgFile) ← prepareTransfer uacc pkgFile bck
  let (err, installedVer, ue) ←
    (if err = eUaOk then prepareVersion uacc ue else pure (err, none, ue))
  let (err, state, updateFile, ue) ← prepareFile uacc err installedVer pkgFile updateFile ue
  let (state, updateFile, ue) ←
    (if err = eUaOk then prepareCallback uacc state updateFile ue
      else pure (.failed, updateFile, ue))
  pure ⟨state, pkgFile, updateFile, ue⟩

theorem prepareInstallAction_eq (uacc : UaccPtr) (pkgFile : PkgFile) (bck : Bool)
    (updateFile : PkgFile) (ue : UpdateErr) :
    prepareInstallAction uacc pkgFile bck updateFile ue = (do
      let chosen ← chooseFile uacc pkgFile bck updateFile ue
      let entered ←
        (if chosen.state = .ready then prepareManifest uacc chosen.updateFile
          else pure (chosen.state, chosen.updateFile))
      pure { chosen with state := entered.1, updateFile := entered.2 }) := by
  unfold prepareInstallAction chooseFile
  simp only [bind_assoc, pure_bind]

theorem patchDelta_keeps (pkgManifest version diffFile newFile : Option String) :
    KeepsFiles (patchDelta pkgManifest version diffFile newFile) := by
  simp only [patchDelta, Prog.all_ite, Prog.all_bind, all_ext]
  refine ⟨fun _ => ⟨by simp [writes], fun reply _ => ?_⟩, by simp⟩
  cases reply <;> simp [writes]

theorem chooseFile_keeps : KeepsFiles (chooseFile uacc pkgFile bck updateFile ue) := by
  simp [chooseFile, prepareTransfer, transferFileAction, prepareVersion, prepareFile,
    isDeltaToPatch, prepareCallback, patchDelta_keeps, writes]

theorem patchDelta_calls (pkgManifest version diffFile newFile : Option String) :
    OnlyCalls (patchDelta pkgManifest version diffFile newFile) := by
  simp only [patchDelta, Prog.all_ite, Prog.all_bind, all_ext]
  refine ⟨fun _ => ⟨by simp, fun reply _ => ?_⟩, by simp⟩
  cases reply <;> simp

theorem prepareManifest_calls : OnlyCalls (prepareManifest uacc updateFile) := by
  simp only [prepareManifest, Prog.all_ite, Prog.all_bind, all_readComp, all_ext]
  refine ⟨trivial, fun manifest _ => ⟨fun _ => ⟨by simp, fun sha _ => ?_⟩, by simp⟩⟩
  cases sha <;> simp

theorem prepareInstallAction_calls :
    OnlyCalls (prepareInstallAction uacc pkgFile bck updateFile ue) := by
  simp [prepareInstallAction, prepareTransfer, transferFileAction, prepareVersion,
    prepareFile, isDeltaToPatch, prepareCallback, prepareManifest_calls, patchDelta_calls]

/-- After an error nothing is called any more, and the package is not ready. -/
theorem chooseFile_failed {err : Rc} {delivered : PkgFile} {w₁ : FileWorld β}
    (htransfer : run out (prepareTransfer uacc pkgFile bck) w = some ((err, delivered), w₁))
    (herr : err ≠ eUaOk)
    (h : run out (chooseFile uacc pkgFile bck updateFile ue) w = some (prepared, w')) :
    prepared.state = .failed ∧ w' = w₁ := by
  unfold chooseFile at h
  simp only [run_bind, htransfer, Option.bind_some, herr, if_false, prepareFile,
    Prog.pure_eq, run_pure, Bool.false_eq_true, Option.some.injEq, Prod.mk.injEq] at h
  obtain ⟨rfl, rfl⟩ := h
  exact ⟨rfl, rfl⟩

theorem chooseFile_transfer
    (h : run out (chooseFile uacc pkgFile bck updateFile ue) w = some (prepared, w')) :
    ∃ err w₁, run out (prepareTransfer uacc pkgFile bck) w =
      some ((err, prepared.pkgFile), w₁) := by
  unfold chooseFile at h
  rw [run_bind] at h
  obtain ⟨⟨⟨err, delivered⟩, w₁⟩, htransfer, h⟩ := Option.bind_eq_some_iff.mp h
  refine ⟨err, w₁, ?_⟩
  rw [htransfer]
  simp only [run_bind] at h
  obtain ⟨_, _, h⟩ := Option.bind_eq_some_iff.mp h
  obtain ⟨_, _, h⟩ := Option.bind_eq_some_iff.mp h
  obtain ⟨_, _, h⟩ := Option.bind_eq_some_iff.mp h
  cases h
  rfl

/-- No manifest is kept, or the digest cannot be computed, or an entry is asked for. -/
theorem prepareManifest_run {state : InstallState} {updateFile' : PkgFile}
    (h : run out (prepareManifest uacc updateFile) w = some ((state, updateFile'), w')) :
    ((w.shared.comp uacc).updateManifest = none ∧ state = .ready ∧ updateFile' = updateFile ∧
      w' = w) ∨
    (state = .failed ∧ updateFile' = updateFile ∧ w' = w.next) ∨
    (∃ manifest d, (w.shared.comp uacc).updateManifest = some manifest ∧ state = .ready ∧
      calcSha256X out w updateFile.file = ⟨eUaOk, some d⟩ ∧
      updateFile' = { updateFile with shaOfSha := d.toSha256B64 } ∧
      w' = (addManifest out w.next (some manifest) updateFile').2) := by
  unfold prepareManifest at h
  simp only [run_bind, run_readComp, Option.bind_some, run_ite, Prog.pure_eq, run_pure] at h
  cases hmanifest : (w.shared.comp uacc).updateManifest with
  | none =>
      rw [hmanifest] at h
      cases h
      exact .inl ⟨rfl, rfl, rfl, rfl⟩
  | some manifest =>
      rw [hmanifest] at h
      simp only [Option.isSome_some, if_true, run_ext, extStep, Option.bind_some] at h
      by_cases hcalc : (calcSha256X out w updateFile.file).err = eUaOk
      · obtain ⟨d, _, _, hd⟩ := calculated_ok hcalc
        have hd : calcSha256X out w updateFile.file = ⟨eUaOk, some d⟩ := hd
        simp only [hd, if_true, Option.map_some, run_bind, run_ignoring, run_ext, extStep,
          Option.bind_some, run_pure] at h
        cases h
        exact .inr (.inr ⟨manifest, d, rfl, rfl, hd, rfl, rfl⟩)
      · simp only [hcalc, if_false, run_pure] at h
        cases h
        exact .inr (.inl ⟨rfl, rfl, rfl⟩)

end Verification

section Entries

variable (out) in
/-- The lookup that follows finds the path and the digest that have been prepared. -/
def Listed (w : FileWorld β) (manifest : String) (updateFile : PkgFile) : Prop :=
  ∃ version pf, updateFile.version = some version ∧
    getPkgFileManifest out.xml true (w.files (resolve manifest)) version = .found pf ∧
    pf.file = updateFile.file ∧ pf.shaOfSha = updateFile.shaOfSha

/-- The digest is computed a second time and the manifest is saved. -/
def Enters (out : Outside β) (n : Nat) : Prop :=
  out.digestCall n ≠ .failsBefore ∧ (out.addCalls n).saves = true

variable (out) in
/-- The entry is written and can be read as what it is, or it is not written and is there
anyway. -/
def EntryStays (w : FileWorld β) (manifest : String) (updateFile : PkgFile) : Prop :=
  Enters out (w.asked + 1) ∧ (∃ version file, updateFile.version = some version ∧
      updateFile.file = some file ∧ ReadAs out.xml updateFile version file) ∨
    ¬ Enters out (w.asked + 1) ∧ ∃ version pf, updateFile.version = some version ∧
      getPkgFileManifest out.xml true (leftManifest (out.addCalls (w.asked + 1))
        (calcSha256X out w.next updateFile.file) (w.files (resolve manifest)) updateFile)
          version = .found pf ∧
      pf.file = updateFile.file ∧ pf.shaOfSha = updateFile.shaOfSha

theorem entryWritten_iff {d : DigestB64} {calls : AddCalls β} {call : DigestCall}
    {updateFile : PkgFile} (hsha : updateFile.shaOfSha.val = d.val) :
    EntryWritten calls (calculated (some d) call) updateFile ↔
      call ≠ .failsBefore ∧ calls.saves = true := by
  have hsize : d.toSha256B64.val.utf8ByteSize = sha256B64Length - 1 := d.size
  have hne : d.toSha256B64.val ≠ "" := sha256B64_ne_empty hsize
  have hne : d.val ≠ "" := hne
  unfold EntryWritten
  rw [sha256xcmp_zero_iff, hsha]
  cases call <;> simp [calculated, hne]

/-- What the lookup finds after the entry has been asked for. -/
theorem listed_iff_stays (hxml : out.xml.Documented) (hrejects : RejectsOthers out.xml)
    {d : DigestB64} (hdigest : (w.content updateFile.file).bind out.digestOf = some d)
    (hsha : updateFile.shaOfSha.val = d.val) (manifest : String) :
    Listed out (addManifest out w.next (some manifest) updateFile).2 manifest updateFile ↔
      EntryStays out w manifest updateFile := by
  have hagain : calcSha256X out w.next updateFile.file =
      calculated (some d) (out.digestCall (w.asked + 1)) := by
    rw [← hdigest]
    rfl
  have hwritten : EntryWritten (out.addCalls (w.asked + 1))
      (calcSha256X out w.next updateFile.file) updateFile ↔ Enters out (w.asked + 1) := by
    rw [hagain]
    exact entryWritten_iff hsha
  have hfiles : (addManifest out w.next (some manifest) updateFile).2.files (resolve manifest) =
      (addPkgFileManifest out.xml (out.addCalls (w.asked + 1))
        (calcSha256X out w.next updateFile.file) (w.files (resolve manifest))
        updateFile).xmlFile := write_self ..
  unfold Listed EntryStays
  simp only [hfiles]
  constructor
  · rintro ⟨version, pf, hversion, hfound, hpath, hsame⟩
    rcases (added_found_iff hxml hrejects hversion).mp hfound with
      ⟨hin, ⟨file, hentry⟩, rfl⟩ | ⟨hout, hfound⟩
    · have hread := readEntry_file hentry
      exact .inl ⟨hwritten.mp hin, version, file, hversion, hpath.symm.trans hread, hentry⟩
    · exact .inr ⟨fun h => hout (hwritten.mpr h), version, pf, hversion, hfound, hpath, hsame⟩
  · rintro (⟨hin, version, file, hversion, hpath, hentry⟩ |
      ⟨hout, version, pf, hversion, hfound, hpath, hsame⟩)
    · refine ⟨version, readEntry out.xml updateFile, hversion, ?_, ?_, rfl⟩
      · exact (added_found_iff hxml hrejects hversion).mpr
          (.inl ⟨hwritten.mpr hin, ⟨file, hentry⟩, rfl⟩)
      · exact (readEntry_file hentry).trans hpath.symm
    · refine ⟨version, pf, hversion, ?_, hpath, hsame⟩
      exact (added_found_iff hxml hrejects hversion).mpr
        (.inr ⟨fun h => hout (hwritten.mp h), hfound⟩)

/-- A package that is ready is listed exactly if its entry is written and read again as what it
is, or is there anyway. -/
theorem prepared_is_listed_iff (hxml : out.xml.Documented) (hrejects : RejectsOthers out.xml)
    {manifest : String} (hmanifest : (w.shared.comp uacc).updateManifest = some manifest)
    (h : run out (prepareInstallAction uacc pkgFile bck updateFile ue) w = some (prepared, w'))
    (hready : prepared.state = .ready) :
    ∃ chosen w₁, run out (chooseFile uacc pkgFile bck updateFile ue) w = some (chosen, w₁) ∧
      ∃ d, calcSha256X out w₁ chosen.updateFile.file = ⟨eUaOk, some d⟩ ∧
        prepared.updateFile = { chosen.updateFile with shaOfSha := d.toSha256B64 } ∧
        (Listed out w' manifest prepared.updateFile ↔
          EntryStays out w₁ manifest prepared.updateFile) := by
  rw [prepareInstallAction_eq, run_bind] at h
  obtain ⟨⟨chosen, w₁⟩, hchosen, h⟩ := Option.bind_eq_some_iff.mp h
  simp only [run_bind, run_ite, Prog.pure_eq, run_pure] at h
  obtain ⟨⟨⟨state, updateFile'⟩, w₂⟩, hentered, h⟩ := Option.bind_eq_some_iff.mp h
  cases h
  have hchosenReady : chosen.state = .ready := by
    by_contra hnot
    rw [if_neg hnot] at hentered
    cases hentered
    exact hnot hready
  rw [if_pos hchosenReady] at hentered
  have hshared := run_shared hchosen
  refine ⟨chosen, w₁, hchosen, ?_⟩
  rcases prepareManifest_run hentered with ⟨hnone, _⟩ | ⟨hfailed, _⟩ |
    ⟨manifest', d, hsome, _, hdigest, hfile, hworld⟩
  · rw [hshared, hmanifest] at hnone
    cases hnone
  · have hstate : state = .ready := hready
    rw [hfailed] at hstate
    cases hstate
  · rw [hshared, hmanifest] at hsome
    cases hsome
    have hcalc : calculated ((w₁.content chosen.updateFile.file).bind out.digestOf)
        (out.digestCall w₁.asked) = ⟨eUaOk, some d⟩ := hdigest
    obtain ⟨d', hd', _, hcalc'⟩ := calculated_ok (congrArg Calculated.err hcalc)
    rw [hcalc'] at hcalc
    cases hcalc
    refine ⟨d, hdigest, hfile, ?_⟩
    have hpath : (w₁.content updateFile'.file).bind out.digestOf = some d := by
      rw [hfile]
      exact hd'
    have hsha : updateFile'.shaOfSha.val = d.val := by rw [hfile]; rfl
    rw [hworld]
    exact listed_iff_stays hxml hrejects hpath hsha manifest

/-- The package that is prepared in the examples. -/
def samplePreparation (out : Outside (Option Doc)) : Option (Prepared × FileWorld (Option Doc)) :=
  run out (prepareInstallAction 0 (samplePkgFile "1") false PkgFile.zero .none) (sampleWorld [])

theorem samplePreparation_ready :
    (samplePreparation sampleOutside).map (fun r => r.1.state) = some .ready := by
  decide +kernel

theorem prepared_is_listed_iff_example :
    ∃ prepared w', samplePreparation sampleOutside = some (prepared, w') ∧
      ∃ chosen w₁, run sampleOutside
          (chooseFile 0 (samplePkgFile "1") false PkgFile.zero .none) (sampleWorld []) =
            some (chosen, w₁) ∧
        ∃ d, calcSha256X sampleOutside w₁ chosen.updateFile.file = ⟨eUaOk, some d⟩ ∧
          prepared.updateFile = { chosen.updateFile with shaOfSha := d.toSha256B64 } ∧
          (Listed sampleOutside w' "/cache/manifest.xml" prepared.updateFile ↔
            EntryStays sampleOutside w₁ "/cache/manifest.xml" prepared.updateFile) := by
  obtain ⟨⟨prepared, w'⟩, h, hready⟩ := Option.map_eq_some_iff.mp samplePreparation_ready
  exact ⟨prepared, w', h,
    prepared_is_listed_iff sampleFileXml_documented sampleFileXml_rejects rfl h hready⟩

theorem unlisted_is_ready :
    ¬ ∀ (out : Outside (Option Doc)) (w w' : FileWorld (Option Doc)) (uacc : UaccPtr)
      (pkgFile updateFile : PkgFile) (bck : Bool) (ue : UpdateErr) (prepared : Prepared)
      (manifest : String),
      out.xml.Documented → RejectsOthers out.xml →
      (w.shared.comp uacc).updateManifest = some manifest →
      run out (prepareInstallAction uacc pkgFile bck updateFile ue) w = some (prepared, w') →
      prepared.state = .ready → Listed out w' manifest prepared.updateFile := by
  intro h
  have hrun : (samplePreparation fullDisk).map (fun r => (r.1.state, r.2.files
      (resolve "/cache/manifest.xml"))) = some (.ready, none) := by decide +kernel
  obtain ⟨⟨prepared, w'⟩, hsome, hend⟩ := Option.map_eq_some_iff.mp hrun
  obtain ⟨hready, hfile⟩ := Prod.mk.inj hend
  obtain ⟨version, pf, _, hfound, _⟩ := h fullDisk (sampleWorld []) w' 0 (samplePkgFile "1")
    PkgFile.zero false .none prepared "/cache/manifest.xml" sampleFileXml_documented
    sampleFileXml_rejects rfl hsome hready
  rw [hfile] at hfound
  cases hfound

end Entries

end EsyncUa.Preparations
