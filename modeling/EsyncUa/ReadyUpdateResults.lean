import EsyncUa.ReadyUpdates

/-!
Two results about a parsed ready-update. After success, the file information is that of the
version to install, unless the version is in no manifest and is not downloaded: then the
function succeeds and leaves what an earlier message has left. After a failure with a
rollback version, the failure is terminal and the manifests are released, unless the backup
manifest could not be accessed: its error is another one than the clean-up tests for.
-/
namespace EsyncUa.ReadyUpdateResults

open EsyncUa.JsonProperties EsyncUa.Components EsyncUa.Programs EsyncUa.Operations
open EsyncUa.Installation EsyncUa.Updater EsyncUa.Machines EsyncUa.Schedules EsyncUa.Agents
open EsyncUa.Frames EsyncUa.Rehearsals EsyncUa.SoleRuns EsyncUa.ReadyUpdates

/-- What a call returns and the component that it leaves. -/
def parseResult (cfg : AgentConfig) (env : Environment) (t : Tid) (w : World) (uacc : UaccPtr)
    (jsonObj : Json) (cacheDir backupDir : Option String) : Option (Rc × UaComponentContext) :=
  (alone (envPlayer cfg env) t (updateParseJsonReadyUpdate uacc jsonObj cacheDir backupDir)
    w).map fun r => (r.1, r.2.shared.comp uacc)

def ParseReturns (cfg : AgentConfig) (env : Environment) (t : Tid) (w : World) (uacc : UaccPtr)
    (jsonObj : Json) (cacheDir backupDir : Option String) (rc : Rc) (c' : UaComponentContext) :
    Prop :=
  parseResult cfg env t w uacc jsonObj cacheDir backupDir = some (rc, c')

theorem ParseReturns.parsed {cfg : AgentConfig} {env : Environment} {t : Tid} {w : World}
    {uacc : UaccPtr} {jsonObj : Json} {cacheDir backupDir : Option String} {rc : Rc}
    {c' : UaComponentContext}
    (h : ParseReturns cfg env t w uacc jsonObj cacheDir backupDir rc c') :
    Parsed env uacc jsonObj cacheDir backupDir (w.shared.comp uacc) rc c' := by
  rw [ParseReturns, parseResult, Option.map_eq_some_iff] at h
  obtain ⟨⟨rc₁, w'⟩, hrun, heq⟩ := h
  cases heq
  exact updateParseJsonReadyUpdate_run env _ _ hrun

/-- The version that a message asks to install: the rollback version if it has one. -/
def requestedVersion (jsonObj : Json) : Option String :=
  versionToUpdate
    { PkgInfo.zero with
      version := (getPkgVersionFromJson jsonObj none).2
      rollbackVersion := (getPkgRollbackVersionFromJson jsonObj none).2 }

/-- The message has a rollback version that is not empty. -/
def CarriesRollback (jsonObj : Json) : Prop :=
  (getPkgRollbackVersionFromJson jsonObj none).1 = eUaOk ∧
    isSet (getPkgRollbackVersionFromJson jsonObj none).2

theorem getString_some {json : Json} {path : List (Option String)}
    (h : (getString json path none).2.isSome) (old : Option String) :
    (getString json path old).2 = (getString json path none).2 := by
  simp only [getString] at h ⊢
  split
  · rename_i hok
    rw [if_pos hok] at h
    cases hvalue : (jsonGetProperty .string json path none).2.bind Json.string? with
    | none => simp [hvalue] at h
    | some v => simp
  · rfl

theorem CarriesRollback.identified {jsonObj : Json} (h : CarriesRollback jsonObj)
    (cacheDir backupDir : Option String) (c : UaComponentContext) :
    (identified jsonObj cacheDir backupDir c).updatePkg.rollbackVersion =
      (getPkgRollbackVersionFromJson jsonObj none).2 :=
  getString_some (isSome_of_isSet h.2) _

/-- The failure is marked as terminal, and the manifests are released. -/
def FailureMarked (c : UaComponentContext) : Prop :=
  c.updateError = .terminalFailure ∧ c.updateManifest = none ∧ c.backupManifest = none

/-- The function gets as far as the rollback version of the message, or an earlier message has
left one, or a terminal failure; and the backup manifest can be accessed where it is needed. -/
def FailureSeen (env : Environment) (jsonObj : Json) (backupDir : Option String)
    (c : UaComponentContext) : Prop :=
  (HasIdentity jsonObj →
    (fileProperty jsonObj (getPkgRollbackVersionFromJson jsonObj none).2).1 = eUaOk ∨
      ¬Inaccessible env
        (join backupDir
          [some "backup", (getPkgNameFromJson jsonObj c.updatePkg.name).2, some manifestPkg])
        (getPkgRollbackVersionFromJson jsonObj none).2) ∧
  (¬HasIdentity jsonObj →
    isSet c.updatePkg.rollbackVersion ∨ c.updateError = .terminalFailure)

/-- A ready-update with a rollback version that does not parse is a terminal failure, and its
manifests are released, if and only if the function has seen the rollback version and has not
stopped at an inaccessible backup manifest. -/
theorem failure_marked_iff (cfg : AgentConfig) (env : Environment) (t : Tid) (w : World)
    (uacc : UaccPtr) (jsonObj : Json) (cacheDir backupDir : Option String) (rc : Rc)
    (c' : UaComponentContext)
    (hrun : ParseReturns cfg env t w uacc jsonObj cacheDir backupDir rc c')
    (hcarries : CarriesRollback jsonObj) (hrc : rc ≠ eUaOk) :
    FailureMarked c' ↔ FailureSeen env jsonObj backupDir (w.shared.comp uacc) := by
  have hset := hcarries.identified cacheDir backupDir (w.shared.comp uacc)
  have hversion : versionToUpdate
      (ReadyUpdates.identified jsonObj cacheDir backupDir (w.shared.comp uacc)).updatePkg =
      (getPkgRollbackVersionFromJson jsonObj none).2 := by
    rw [versionToUpdate, hset, if_pos hcarries.2]
  rw [FailureSeen]
  cases hrun.parsed with
  | unidentified c₁ hno hrollback herror =>
    rw [FailureMarked, afterFailure, hrollback, herror]
    by_cases hold : isSet (w.shared.comp uacc).updatePkg.rollbackVersion = true
    · simp [hno, hold]
    · simp [hno, hold]
  | failed info hidentity hsearched =>
    apply iff_of_true
    · refine ⟨?_, rfl, rfl⟩
      simp only [afterFailure, hset]
      rw [if_pos hcarries.2]
    · cases hsearched with
      | failed _ hreadable =>
        rw [hversion] at hreadable
        exact ⟨fun _ => hreadable, fun hno => absurd hidentity hno⟩
  | searched _ info hidentity hne hsearched =>
    cases hsearched with
    | listed | located | skipped => exact absurd rfl hrc
    | failed => exact absurd rfl hne
    | inaccessible _ hnofile hsys =>
      rw [hversion] at hnofile hsys
      apply iff_of_false
      · intro hmarked
        have hsome := hsys.2
        rw [hmarked.2.2] at hsome
        cases hsome
      · intro h
        rcases h.1 hidentity with hfile | hreadable
        · exact hnofile hfile
        · exact hreadable hsys

/-- A ready-update for the package "p" that rolls back from 2.0 to 1.0. -/
def rollbackMessage (file : List (String × Json)) : Json :=
  packageMessage "xl4.ready-update" [] "p" "2.0"
    [("rollback-version", .string "1.0"), ("version-list", .object [("1.0", .object
      ([("downloaded", .bool true), ("sha-256", .string "digest")] ++ file))])]

/-- There is neither a manifest nor a file with a digest. -/
def nothingThere : Environment
  | .getPkgFileManifest _ _ => some .sys
  | .calcSha256X _ => some none
  | o => usualAnswer "1.0" o

/-- The start of an agent with one component, and the worker that parses the message. -/
abbrev parseAtStart (env : Environment) (jsonObj : Json) : Option (Rc × UaComponentContext) :=
  parseResult (sampleConfig false 1) env (.worker 0 0) (begun (sampleConfig false 1)).st 0 jsonObj
    (some "/cache") (some "/data")

/-- The file that the message names has no digest. -/
theorem failure_marked_example : ∃ c',
    parseAtStart nothingThere (rollbackMessage [("file", .string "/file")]) = some (eUaErr, c') ∧
      FailureMarked c' := by
  have hrc : (parseAtStart nothingThere (rollbackMessage [("file", .string "/file")])).map
      Prod.fst = some eUaErr := by decide +kernel
  obtain ⟨⟨rc, c'⟩, hrun, rfl⟩ := Option.map_eq_some_iff.mp hrc
  refine ⟨c', hrun, (failure_marked_iff _ _ _ _ _ _ _ _ _ _ hrun ⟨by decide, by decide⟩
    (by decide)).mpr ⟨fun _ => .inl (by decide), fun h => ?_⟩⟩
  exact absurd ⟨by decide, by decide, by decide⟩ h

/-- The message names no file, and there is no backup. -/
theorem inaccessible_backup_unmarked :
    ¬ ∀ (cfg : AgentConfig) (env : Environment) (t : Tid) (w : World) (uacc : UaccPtr)
      (jsonObj : Json) (cacheDir backupDir : Option String) (rc : Rc) (c' : UaComponentContext),
      ParseReturns cfg env t w uacc jsonObj cacheDir backupDir rc c' → CarriesRollback jsonObj →
      rc ≠ eUaOk → FailureMarked c' := by
  intro h
  have hresult : (parseAtStart nothingThere (rollbackMessage [])).map
      (fun r => (r.1, r.2.backupManifest)) =
        some (eUaSys, some "/data/backup/p/manifest_pkg.xml") := by decide +kernel
  obtain ⟨⟨rc, c'⟩, hrun, heq⟩ := Option.map_eq_some_iff.mp hresult
  obtain ⟨rfl, hbackup⟩ := Prod.mk.inj heq
  have hmarked := h _ _ _ _ _ _ _ _ _ _ hrun ⟨by decide, by decide⟩ (by decide)
  exact Option.some_ne_none _ (hbackup.symm.trans hmarked.2.2)

/-- The file information of the component is that of the version to install. -/
def FileFound (env : Environment) (uacc : UaccPtr) (jsonObj : Json)
    (updateManifest backupManifest : Option String) (info : PkgFile) : Prop :=
  (requestedVersion jsonObj).isSome ∧ info.version = requestedVersion jsonObj ∧
    info.file.isSome ∧
    Gives env uacc jsonObj updateManifest backupManifest (requestedVersion jsonObj) info.file

/-- The version is in the update manifest, or the message says that it is downloaded. -/
def FileKnown (env : Environment) (jsonObj : Json) (c : UaComponentContext) : Prop :=
  (∃ info, Lists env c.updateManifest (versionToUpdate c.updatePkg) info) ∨
    SaysDownloaded jsonObj c

/-- After success the component has the version to install and the path that one of the sources
gives for it, if and only if the message says which version that is and the file is known, or
an earlier message has left just that version and path. -/
theorem file_found_iff (cfg : AgentConfig) (env : Environment) (t : Tid) (w : World)
    (uacc : UaccPtr) (jsonObj : Json) (cacheDir backupDir : Option String)
    (c' : UaComponentContext)
    (hrun : ParseReturns cfg env t w uacc jsonObj cacheDir backupDir eUaOk c') :
    let c := ReadyUpdates.identified jsonObj cacheDir backupDir (w.shared.comp uacc)
    FileFound env uacc jsonObj c.updateManifest c.backupManifest c'.updateFileInfo ↔
      (FileKnown env jsonObj c →
        (requestedVersion jsonObj).isSome ∧
          versionToUpdate c.updatePkg = requestedVersion jsonObj) ∧
      (¬FileKnown env jsonObj c →
        FileFound env uacc jsonObj c.updateManifest c.backupManifest c.updateFileInfo) := by
  intro c
  generalize hok : eUaOk = rc at hrun
  have hparsed := hrun.parsed
  cases hparsed with
  | unidentified => cases hok
  | failed => cases hok
  | searched _ info hidentity hne hsearched =>
    subst hok
    cases hsearched with
    | listed _ hlisted =>
      have hknown : FileKnown env jsonObj c := .inl ⟨info, hlisted⟩
      constructor
      · intro h
        exact ⟨fun _ => ⟨h.1, hlisted.2.1.symm.trans h.2.1⟩, fun hno => absurd hknown hno⟩
      · intro hcond
        have h := hcond.1 hknown
        refine ⟨h.1, hlisted.2.1.trans h.2, isSome_of_isSet hlisted.2.2.2, ?_⟩
        rw [← h.2]
        exact .inl ⟨info, hlisted, rfl⟩
    | located _ hdownloaded hversion hfile hgives =>
      have hknown : FileKnown env jsonObj c := .inr hdownloaded
      constructor
      · intro h
        exact ⟨fun _ => ⟨h.1, hversion.symm.trans h.2.1⟩, fun hno => absurd hknown hno⟩
      · intro hcond
        have h := hcond.1 hknown
        refine ⟨h.1, hversion.trans h.2, hfile, ?_⟩
        rw [← h.2]
        exact hgives
    | skipped _ hunlisted hnot hversion hfile =>
      have hunknown : ¬FileKnown env jsonObj c := by
        intro h
        rcases h with ⟨info, hlists⟩ | hdownloaded
        · exact hunlisted info hlists
        · exact hnot hdownloaded
      rw [FileFound, FileFound, hversion, hfile]
      exact ⟨fun h => ⟨fun hknown => absurd hknown hunknown, fun _ => h⟩,
        fun h => h.2 hunknown⟩

/-- The file that the message names is there. -/
theorem file_found_example : ∃ c',
    parseAtStart (usualAnswer "1.0") (rollbackMessage [("file", .string "/file")]) =
        some (eUaOk, c') ∧
      FileFound (usualAnswer "1.0") 0 (rollbackMessage [("file", .string "/file")])
        (some "/cache/p/manifest_pkg.xml") (some "/data/backup/p/manifest_pkg.xml")
        c'.updateFileInfo := by
  have hrc : (parseAtStart (usualAnswer "1.0") (rollbackMessage [("file", .string "/file")])).map
      Prod.fst = some eUaOk := by decide +kernel
  obtain ⟨⟨rc, c'⟩, hrun, rfl⟩ := Option.map_eq_some_iff.mp hrc
  refine ⟨c', hrun, (file_found_iff _ _ _ _ _ _ _ _ _ hrun).mpr
    ⟨fun _ => ⟨by decide, by decide⟩, fun h => absurd (.inr ⟨by decide, by decide⟩) h⟩⟩

/-- A ready-update whose version is not downloaded yet. -/
def notDownloaded : Json :=
  packageMessage "xl4.ready-update" [] "p" "2.0"
    [("version-list", .object [("2.0", .object [("downloaded", .bool false)])])]

theorem file_absent_after_success :
    ¬ ∀ (cfg : AgentConfig) (env : Environment) (t : Tid) (w : World) (uacc : UaccPtr)
      (jsonObj : Json) (cacheDir backupDir : Option String) (c' : UaComponentContext),
      ParseReturns cfg env t w uacc jsonObj cacheDir backupDir eUaOk c' →
      FileFound env uacc jsonObj
        (ReadyUpdates.identified jsonObj cacheDir backupDir (w.shared.comp uacc)).updateManifest
        (ReadyUpdates.identified jsonObj cacheDir backupDir (w.shared.comp uacc)).backupManifest
        c'.updateFileInfo := by
  intro h
  have hresult : (parseAtStart nothingThere notDownloaded).map
      (fun r => (r.1, r.2.updateFileInfo.file)) = some (eUaOk, none) := by decide +kernel
  obtain ⟨⟨rc, c'⟩, hrun, heq⟩ := Option.map_eq_some_iff.mp hresult
  obtain ⟨rfl, hfile⟩ := Prod.mk.inj heq
  have hsome := (h _ _ _ _ _ _ _ _ _ hrun).2.2.1
  rw [hfile] at hsome
  cases hsome

end EsyncUa.ReadyUpdateResults
