import EsyncUa.Frames
import EsyncUa.GuardedPrograms
import EsyncUa.Rehearsals

/-!
Absent callbacks. The library tests for a callback before it calls it, in the same function or
in its caller, except where it asks for the installed version to prepare a package and to
compare it with a version that is to be installed.
-/
namespace EsyncUa.Callbacks

open EsyncUa.JsonProperties EsyncUa.Components EsyncUa.Records EsyncUa.Programs
open EsyncUa.Operations EsyncUa.Installation EsyncUa.Updater EsyncUa.Messages EsyncUa.Machines
open EsyncUa.Agents EsyncUa.Footprints EsyncUa.Frames EsyncUa.GuardedPrograms
open EsyncUa.Rehearsals

variable (cfg : AgentConfig)

/-- The handlers are the ones that were registered. -/
def Registered (s : Shared) : Prop := ∀ uacc, (s.comp uacc).uar = cfg.getRoutine uacc

/-- A callback of component `u` is called only if it is present. -/
def Guarded (u : UaccPtr) : Op → Prop
  | .ext (.callback uacc f _) => f.present (cfg.getRoutine uacc) ∨ uacc ≠ u
  | _ => True

abbrev Safe {α : Type} (u : UaccPtr) (p : UaProg α) : Prop :=
  Prog.AllUnder (Registered cfg) (Guarded cfg u) p

theorem ignores_uar : Ignores (·.uar) [] where
  assign := by intro x c _; cases x <;> rfl
  seqIn := fun _ _ _ => rfl
  status := fun _ _ _ => rfl
  setContext := by
    intro _ c ctrl cc
    unfold updateSetCompContext
    grind

theorem registered_of_reachable {c : AgentConfiguration} (hc : (agent cfg).Reachable c) :
    Registered cfg c.st.shared := by
  refine hc.invariant (I := fun w => Registered cfg w.shared) ?_ ?_ ?_ ?_
  · intro w ⟨_, ctrl, hw⟩ uacc
    rw [hw]
    rfl
  · intro t o b w w' hw hact uacc
    rw [effect_frame ignores_uar hact.1 List.not_mem_nil uacc]
    exact hw uacc
  · intro t p w w' hw ⟨e, _, hw'⟩ uacc
    rw [hw']
    exact hw uacc
  · intro w w' _ ⟨_, ctrl, hw'⟩ uacc
    rw [hw']
    rfl

/-! The statements. -/

section Statements

variable {α : Type} (u uacc : UaccPtr)

@[simp] theorem safe_op (o : Op) :
    @Prog.AllUnder Shared Op Op.Ans (no_index o.Ans) (Registered cfg) (Guarded cfg u) (op o) ↔
      Guarded cfg u o := Prog.allUnder_perform ..

@[simp] theorem safe_ext (o : ExtOp) :
    @Prog.AllUnder Shared Op Op.Ans (no_index o.Ans) (Registered cfg) (Guarded cfg u) (ext o) ↔
      Guarded cfg u (.ext o) := Prog.allUnder_perform ..

@[simp] theorem safe_assign (x : Assign) : Safe cfg u (assign uacc x) :=
  (Prog.allUnder_perform ..).mpr trivial

@[simp] theorem safe_assignIntl (x : AssignIntl) : Safe cfg u (assignIntl x) :=
  (Prog.allUnder_perform ..).mpr trivial

@[simp] theorem safe_mark (m : Mark) : Safe cfg u (mark m) :=
  (Prog.allUnder_perform ..).mpr trivial

@[simp] theorem safe_readComp (f : UaComponentContext → α) : Safe cfg u (readComp uacc f) :=
  fun _ _ => trivial

@[simp] theorem safe_readIntl (f : UaInternal → α) : Safe cfg u (readIntl f) :=
  fun _ _ => trivial

@[simp] theorem safe_callback (f : Callback) (ctl : UaCallbackCtl) :
    @Prog.AllUnder Shared Op Op.Ans (no_index f.Ans) (Registered cfg) (Guarded cfg u)
        (callback uacc f ctl) ↔ (f.present (cfg.getRoutine uacc) ∨ uacc ≠ u) :=
  Prog.allUnder_perform ..

@[simp] theorem safe_access (path : Option String) : Safe cfg u (access path) :=
  (Prog.allUnder_perform ..).mpr trivial

@[simp] theorem safe_remove (path : Option String) : Safe cfg u (remove path) :=
  (Prog.allUnder_perform ..).mpr trivial

@[simp] theorem safe_crash : Safe cfg u (crash : UaProg α) := ⟨trivial, fun b => b.elim⟩

@[simp] theorem safe_orCrash (value : Option α) : Safe cfg u (orCrash value) := by
  cases value with
  | none => exact safe_crash cfg u
  | some a => exact trivial

@[simp] theorem safe_doIf (c : Prop) [Decidable c] (p : UaProg Unit) :
    Safe cfg u (doIf c p) ↔ (c → Safe cfg u p) := by
  simp [doIf]

@[simp] theorem safe_ignoring (p : UaProg α) : Safe cfg u (ignoring p) ↔ Safe cfg u p := by
  simp [ignoring]

/-- The handlers that a function reads are the registered ones. -/
@[simp] theorem returns_uar (uar : UaRoutine) :
    Prog.ReturnsUnder (Registered cfg) uar (readComp uacc (·.uar)) ↔ uar = cfg.getRoutine uacc := by
  rw [readComp, Prog.returnsUnder_read]
  constructor
  · intro ⟨s, hs, huar⟩
    rw [← huar]
    exact hs uacc
  · intro huar
    exact ⟨cfg.started .empty .empty, fun _ => rfl, huar.symm⟩

end Statements

/-! The functions, for a component whose `on_get_version` is present. -/

section Functions

attribute [local simp] Guarded Callback.present

variable {cfg} {u : UaccPtr} (hget : (cfg.getRoutine u).onGetVersion) (uacc : UaccPtr)

theorem safe_statusVersionList (state : InstallState) (pkgFile : Option PkgFile)
    (ue : UpdateErr) : Safe cfg u (statusVersionList state pkgFile ue) := by
  cases pkgFile <;> simp [statusVersionList]

@[simp] theorem safe_sendInstallStatus (state : InstallState) (pkgFile : Option PkgFile)
    (ue : UpdateErr) : Safe cfg u (sendInstallStatus uacc state pkgFile ue) := by
  simp [sendInstallStatus, safe_statusVersionList, statusSequence, statusReplyId]

theorem safe_prepareTransfer (pkgFile : PkgFile) (bck : Bool) :
    Safe cfg u (prepareTransfer uacc pkgFile bck) := by
  simp +contextual [prepareTransfer, transferFileAction]

include hget in
theorem safe_prepareVersion (ue : UpdateErr) : Safe cfg u (prepareVersion uacc ue) := by
  simp only [prepareVersion, Prog.allUnder_bind, safe_readComp, safe_callback, true_and]
  intro pkgInfo _
  refine ⟨?_, by simp⟩
  by_cases h : uacc = u
  · rw [h]
    exact Or.inl hget
  · exact Or.inr h

theorem safe_patchDelta (pkgManifest version diffFile newFile : Option String) :
    Safe cfg u (patchDelta pkgManifest version diffFile newFile) := by
  simp only [patchDelta, Prog.allUnder_ite, Prog.allUnder_bind, safe_ext]
  refine ⟨fun _ => ⟨trivial, fun reply _ => ?_⟩, by simp⟩
  cases reply <;> simp

theorem safe_prepareFile (err : Rc) (installedVer : Option String)
    (pkgFile updateFile : PkgFile) (ue : UpdateErr) :
    Safe cfg u (prepareFile uacc err installedVer pkgFile updateFile ue) := by
  simp [prepareFile, isDeltaToPatch, safe_patchDelta]

theorem safe_prepareCallback (state : InstallState) (updateFile : PkgFile) (ue : UpdateErr) :
    Safe cfg u (prepareCallback uacc state updateFile ue) := by
  simp +contextual [prepareCallback]

theorem safe_prepareManifest (updateFile : PkgFile) :
    Safe cfg u (prepareManifest uacc updateFile) := by
  simp only [prepareManifest, Prog.allUnder_ite, Prog.allUnder_bind, safe_readComp, safe_ext,
    true_and]
  refine fun manifest _ => ⟨fun _ => ⟨trivial, fun sha _ => ?_⟩, by simp⟩
  cases sha <;> simp

include hget in
theorem safe_prepareInstallAction (pkgFile : PkgFile) (bck : Bool) (updateFile : PkgFile)
    (ue : UpdateErr) : Safe cfg u (prepareInstallAction uacc pkgFile bck updateFile ue) := by
  simp [prepareInstallAction, safe_prepareTransfer, safe_prepareVersion hget, safe_prepareFile,
    safe_prepareCallback, safe_prepareManifest]

theorem safe_preUpdateAction : Safe cfg u (preUpdateAction uacc) := by
  simp +contextual [preUpdateAction, preInstall, awaitConsent, takeSuccessful]

theorem safe_updateAction : Safe cfg u (updateAction uacc) := by
  simp +contextual [updateAction, reportInstall]

@[simp] theorem safe_postUpdateAction : Safe cfg u (postUpdateAction uacc) := by
  simp +contextual [postUpdateAction]

theorem safe_backupPackage (pkgName : Option String) (pkgFile : PkgFile) :
    Safe cfg u (backupPackage uacc pkgName pkgFile) := by
  simp [backupPackage, isBackedUp, copyToBackup, backupSourceFile]

theorem safe_handlerBackupActions (pkgName version : Option String) :
    Safe cfg u (handlerBackupActions uacc pkgName version) := by
  have hbackup : ∀ manifest, Safe cfg u (backupFromManifest uacc manifest pkgName version) := by
    intro manifest
    simp only [backupFromManifest, Prog.allUnder_bind, safe_ext]
    refine ⟨trivial, fun reply _ => ?_⟩
    cases reply <;> simp [safe_backupPackage]
  simp [handlerBackupActions, hbackup]

include hget in
theorem safe_updateInstalledVersionSame (targetVersion : Option String) :
    Safe cfg u (updateInstalledVersionSame uacc targetVersion) := by
  simp only [updateInstalledVersionSame, Prog.allUnder_bind, safe_readComp, safe_callback,
    true_and]
  intro pkgInfo _ file _
  refine ⟨?_, by simp⟩
  by_cases h : uacc = u
  · rw [h]
    exact Or.inl hget
  · exact Or.inr h

theorem safe_saveRecord : Safe cfg u (saveRecord uacc) := by
  simp only [saveRecord, updateRecordSave, Prog.allUnder_bind, safe_ignoring, safe_readComp,
    true_and]
  refine ⟨fun path _ => ?_, by simp⟩
  cases path <;> simp

include hget in
theorem safe_updateStartInstallOperations (rebootSupport : Bool) :
    Safe cfg u (updateStartInstallOperations uacc rebootSupport) := by
  simp [updateStartInstallOperations, isInstalledAlready, safe_updateInstalledVersionSame hget,
    safe_preUpdateAction, safe_saveRecord, updateRecordedInstall, installAndPost,
    safe_updateAction]

theorem safe_updateGetNextRollbackVersion (curVersion : Option String) :
    Safe cfg u (updateGetNextRollbackVersion uacc curVersion) := by
  simp only [updateGetNextRollbackVersion, Prog.allUnder_bind, safe_readComp, true_and]
  intro versions _
  cases versions <;> simp

theorem safe_updateGetRollbackPackage (rbFileInfo : PkgFile) (rbVersion : Option String) :
    Safe cfg u (updateGetRollbackPackage uacc rbFileInfo rbVersion) := by
  simp only [updateGetRollbackPackage, Prog.allUnder_ite, Prog.allUnder_bind, safe_readComp,
    safe_orCrash, true_and]
  refine ⟨by simp, fun _ msg _ info _ => ?_⟩
  obtain ⟨filepath, rbFileInfo⟩ := info
  cases filepath with
  | some filepath => simp [rollbackPackage, updatePackageAvailable]
  | none =>
    simp only [Prog.allUnder_bind, safe_readComp, safe_ext, true_and]
    refine fun manifest _ => ⟨trivial, fun reply _ => ?_⟩
    cases reply <;> simp [rollbackPackage, updatePackageAvailable]

@[simp] theorem safe_updateSendRollbackIntent (next : Option String) :
    Safe cfg u (updateSendRollbackIntent uacc next) := by
  have hintent : ∀ rbType info, Safe cfg u (sendIntent uacc rbType info) := by
    intro rbType info
    cases rbType <;> simp [sendIntent]
  simp [updateSendRollbackIntent, safe_updateGetRollbackPackage, readRbType, hintent]

theorem safe_rollbackToNext (updateSts : InstallState) (next : String) :
    Safe cfg u (rollbackToNext uacc updateSts next) := by
  simp only [rollbackToNext, Prog.allUnder_bind, safe_updateGetNextRollbackVersion, true_and]
  intro next' _
  cases next' <;> simp

include hget in
theorem safe_rollbackWithPackage (rbFileInfo : PkgFile) (bck : Bool) (next : String)
    (rebootSupport : Bool) :
    Safe cfg u (rollbackWithPackage uacc rbFileInfo bck next rebootSupport) := by
  simp [rollbackWithPackage, safe_prepareInstallAction hget, rollbackPreparedDelta,
    rollbackInstall, rollbackReady, safe_updateStartInstallOperations hget, safe_rollbackToNext]

theorem safe_rollbackWithoutPackage (next : String) :
    Safe cfg u (rollbackWithoutPackage uacc next) := by
  simp only [rollbackWithoutPackage, Prog.allUnder_bind, safe_updateGetNextRollbackVersion,
    true_and]
  intro next' _
  cases next' <;> simp

@[simp] theorem safe_removeUpdateManifest : Safe cfg u (removeUpdateManifest uacc) := by
  simp [removeUpdateManifest]

include hget in
theorem safe_updateStartRollbackOperations (rbVersion : String) (rebootSupport : Bool) :
    Safe cfg u (updateStartRollbackOperations uacc rbVersion rebootSupport) := by
  simp [updateStartRollbackOperations, safe_updateInstalledVersionSame hget, rollbackToInstalled,
    rollbackToVersion, safe_updateGetRollbackPackage, safe_rollbackWithPackage hget,
    safe_rollbackWithoutPackage, rollbackFailed, readRbType]

@[simp] theorem safe_updateReleaseCompContext : Safe cfg u (updateReleaseCompContext uacc) := by
  simp [updateReleaseCompContext]

theorem safe_resumeFailed : Safe cfg u (resumeFailed uacc) := by
  have hrollback : Safe cfg u (resumeRollback uacc) := by
    simp only [resumeRollback, Prog.allUnder_bind, safe_readComp,
      safe_updateGetNextRollbackVersion, true_and]
    intro version _ next _
    cases next <;> simp
  simp [resumeFailed, readRbType, resumePlainFailure, hrollback]

include hget in
theorem safe_updateResumeFromReboot : Safe cfg u (updateResumeFromReboot uacc) := by
  simp [updateResumeFromReboot, resumeInstallation, assignManifests,
    safe_updateInstalledVersionSame hget, resumeSucceeded, safe_handlerBackupActions,
    safe_resumeFailed]

theorem safe_parseDigest (err : Rc) : Safe cfg u (parseDigest uacc err) := by
  simp only [parseDigest, Prog.allUnder_bind, safe_readComp, safe_ext, true_and]
  refine fun file _ => ⟨trivial, fun sha _ => ?_⟩
  cases sha <;> simp

theorem safe_parseInfoFromMsg (jsonObj : Json) : Safe cfg u (parseInfoFromMsg uacc jsonObj) := by
  have hbackup : ∀ version, Safe cfg u (parseFromBackup uacc version) := by
    intro version
    simp only [parseFromBackup, Prog.allUnder_bind, safe_readComp, safe_ext, true_and]
    refine fun manifest _ => ⟨trivial, fun reply _ => ?_⟩
    cases reply <;> simp
  simp +contextual [parseInfoFromMsg, parseFileFromMsg, parseTransfer, safe_parseDigest, hbackup]

theorem safe_updateParseJsonReadyUpdate (jsonObj : Json) (cacheDir backupDir : Option String) :
    Safe cfg u (updateParseJsonReadyUpdate uacc jsonObj cacheDir backupDir) := by
  have hfile : Safe cfg u (parseFileInfo uacc jsonObj) := by
    simp only [parseFileInfo, Prog.allUnder_bind, safe_readComp, safe_assign, safe_ext, true_and]
    refine fun _ _ _ _ _ _ _ _ _ _ _ _ => ⟨trivial, fun reply _ => ?_⟩
    cases reply <;> simp [safe_parseInfoFromMsg]
  simp [updateParseJsonReadyUpdate, parseIdentity, parseName, parseVersions, assignManifests,
    parseFailed, hfile]

@[simp] theorem safe_sendJson (fields : List (String × Json)) :
    Safe cfg u (sendJson fields) := by
  simp [sendJson]

theorem safe_processQueryPackage (jsonObj : Json) :
    Safe cfg u (processQueryPackage uacc jsonObj) := by
  have hlist : ∀ name version, Safe cfg u (queryVersionList name version) := by
    intro name version
    simp only [queryVersionList, Prog.allUnder_bind, safe_readIntl, safe_ext, true_and]
    refine fun intl _ => ⟨trivial, fun _ _ => ⟨by simp [versionListFromBackup], fun list _ => ?_⟩⟩
    split <;> simp
  simp only [processQueryPackage, Prog.allUnder_bind, safe_readComp, returns_uar, safe_doIf,
    true_and]
  intro uar huar hguard
  subst huar
  simp [answerQuery, doNotDisturbBody, queryPackageBody, queryDeltaCap, hlist, hguard]

theorem safe_processReadyDownload (jsonObj : Json) :
    Safe cfg u (processReadyDownload uacc jsonObj) := by
  simp +contextual [processReadyDownload, prepareDownloadAction, sendDownloadStatus, statusSequence]

@[simp] theorem safe_sendQuery (fields : List (String × Json)) :
    Safe cfg u (sendQuery fields) := by
  simp only [sendQuery, Prog.allUnder_ite, Prog.allUnder_bind, safe_readIntl, safe_ext,
    safe_assignIntl, true_and]
  refine fun _ _ => ⟨fun _ => ⟨trivial, fun replyId _ _ _ => ?_⟩, by simp⟩
  cases replyId <;> simp

include hget in
theorem safe_prepareFromSource (jsonObj : Json) (version : Option String) :
    Safe cfg u (prepareFromSource uacc jsonObj version) := by
  have hsource : Safe cfg u (prepareSource uacc jsonObj version) := by
    simp only [prepareSource, Prog.allUnder_ite, Prog.allUnder_bind, safe_readComp, safe_ext,
      true_and]
    refine ⟨by simp, fun _ manifest _ => ⟨trivial, fun reply _ => ?_⟩⟩
    cases reply <;> simp
  simp only [prepareFromSource, Prog.allUnder_bind, hsource, true_and]
  intro source _
  cases source <;>
    simp [prepareAndReport, safe_prepareInstallAction hget, sendQueryUpdates, prepareWithoutFile]

theorem safe_isMarkedPrepared (st : UaStage) : Safe cfg u (isMarkedPrepared uacc st) := by
  simp only [isMarkedPrepared, Prog.allUnder_ite, Prog.allUnder_bind, safe_readComp,
    safe_readIntl, safe_orCrash, true_and]
  refine ⟨fun _ _ _ _ _ _ _ _ _ preparedVer _ => ?_, by simp⟩
  cases preparedVer <;> simp

include hget in
theorem safe_processPrepareUpdate (jsonObj : Json) :
    Safe cfg u (processPrepareUpdate uacc jsonObj) := by
  simp [processPrepareUpdate, parsePrepareUpdate, parsePrepareName, prepareParsed, prepareInStage,
    safe_isMarkedPrepared, prepareFastPath, prepareUpdate, safe_prepareFromSource hget,
    prepareDone, prepareUndone]

theorem safe_processConfirmUpdate (jsonObj : Json) :
    Safe cfg u (processConfirmUpdate uacc jsonObj) := by
  have hcleanup : ∀ info cacheDir backupDir,
      Safe cfg u (confirmCleanup uacc info cacheDir backupDir) := by
    intro info cacheDir backupDir
    unfold confirmCleanup
    split
    · simp +contextual [cleanupBackups, readRbType]
    · exact trivial
  simp [processConfirmUpdate, confirmInStage, confirmUpdate, hcleanup, confirmDeltaCleanup,
    removeIfFound]

include hget in
theorem safe_readyUpdateInstall : Safe cfg u (readyUpdateInstall uacc) := by
  have hrollback : Safe cfg u (installRollback uacc) := by
    simp only [installRollback, Prog.allUnder_bind, safe_readComp,
      safe_updateGetNextRollbackVersion, true_and]
    intro version _ next _
    cases next <;> simp [installTerminalFailure]
  simp only [readyUpdateInstall, Prog.allUnder_bind, safe_readIntl, safe_readComp, true_and]
  intro rebootSupport _ rollbackVersion _
  cases rollbackVersion with
  | some version => exact safe_updateStartRollbackOperations hget uacc version rebootSupport
  | none =>
    simp [firstInstall, safe_updateStartInstallOperations hget, afterInstall, installFailed,
      installRetry, hrollback]

include hget in
theorem safe_processReadyUpdate (jsonObj : Json) :
    Safe cfg u (processReadyUpdate uacc jsonObj) := by
  simp [processReadyUpdate, safe_updateParseJsonReadyUpdate, readyUpdateParsed, readyUpdate,
    chooseRbType, readRbType, safe_readyUpdateInstall hget, readyUpdateBackup, backupInstalled,
    safe_handlerBackupActions, deferredConfirm, safe_processConfirmUpdate, readyUpdateRelease,
    readyUpdateFailed]

theorem safe_updateSequences (fields : List (String × Json)) :
    Safe cfg u (updateSequences fields) := by
  induction fields using updateSequences.induct with
  | case1 => exact trivial
  | case2 key seq fields ih => simp [updateSequences, ih]
  | case3 field fields hfield ih =>
    rw [updateSequences]
    · exact ih
    · exact hfield

theorem safe_processSequenceInfo (jsonObj : Json) :
    Safe cfg u (processSequenceInfo uacc jsonObj) := by
  simp only [processSequenceInfo, Prog.allUnder_bind, safe_op, safe_readIntl, true_and]
  refine ⟨trivial, fun _ _ queryReplyId _ => ⟨?_, fun _ _ => trivial⟩⟩
  cases queryReplyId <;> simp [answerSequence, takeSequences, safe_updateSequences]

theorem safe_processUpdateStatus (jsonObj : Json) :
    Safe cfg u (processUpdateStatus uacc jsonObj) := by
  have hstore : ∀ verdict, Safe cfg u (storeVerdict uacc verdict) := by
    intro verdict
    cases verdict <;> simp [storeVerdict]
  simp [processUpdateStatus, matchReply, acceptReply, hstore]

include hget in
theorem safe_call (func : ProcessF) (jsonObj : Json) :
    Safe cfg u (ProcessF.call func uacc jsonObj) := by
  cases func with
  | queryPackage => exact safe_processQueryPackage uacc jsonObj
  | readyDownload => exact safe_processReadyDownload uacc jsonObj
  | readyUpdate => exact safe_processReadyUpdate hget uacc jsonObj
  | prepareUpdate => exact safe_processPrepareUpdate hget uacc jsonObj
  | confirmUpdate => exact safe_processConfirmUpdate uacc jsonObj
  | downloadReport | sotaReport | logReport => exact trivial
  | sequenceInfo => exact safe_processSequenceInfo uacc jsonObj
  | updateStatus => exact safe_processUpdateStatus uacc jsonObj
  | queryUpdates => simp [ProcessF.call, processQueryUpdates]

include hget in
theorem safe_workerAction : Safe cfg u (workerAction uacc) := by
  simp [workerAction, safe_call hget]

include hget in
theorem safe_runnerPass (msg : Option Json) : Safe cfg u (runnerPass uacc msg) := by
  have hrun : ∀ func jObj turnover, Safe cfg u (processRun uacc func jObj turnover) := by
    intro func jObj turnover
    simp [processRun, startWorker, claimWorker, safe_call hget]
  have htype : ∀ jObj type, Safe cfg u (dispatchType uacc jObj type) := by
    intro jObj type
    simp only [dispatchType, Prog.allUnder_bind, safe_readIntl, safe_orCrash, true_and]
    intro async _ type _
    split
    · exact hrun _ _ _
    · exact trivial
  have hmessage : Safe cfg u (processMessage uacc msg) := by
    cases msg with
    | none => exact trivial
    | some jObj => simp +contextual [processMessage, processJson, isOutdated, dispatch, htype]
  simp [runnerPass, hmessage]

theorem safe_updateSequenceInfo (passes : Nat) : Safe cfg u (updateSequenceInfo passes) := by
  induction passes with
  | zero => exact trivial
  | succ passes ih => simp [updateSequenceInfo, sendSequenceQuery, ih]

theorem safe_spawnPresence (n : Nat) : Safe cfg u (spawnPresence n) := by
  induction n with
  | zero => exact trivial
  | succ n ih => simp [spawnPresence, ih]

theorem safe_handlePresence (nUah : Nat) (connected : Bool) :
    Safe cfg u (handlePresence nUah connected) := by
  have hrecord : ∀ joUpdateRec, Safe cfg u (resumeRecord joUpdateRec) := by
    intro joUpdateRec
    unfold resumeRecord
    split
    · simp only [Prog.allUnder_bind, safe_op]
      refine ⟨trivial, fun found _ => ?_⟩
      cases found <;> simp [resumeComponent, resumeAbandoned]
    · exact trivial
  have hcontent : ∀ content, Safe cfg u (resumeContent content) := by
    intro content
    unfold resumeContent
    split
    · exact hrecord _
    · exact trivial
  simp [handlePresence, updateHandleResumeFromReboot, hcontent, safe_spawnPresence]

end Functions

/-- A thread is about to call a callback that component `u` does not have. -/
def CallsAbsent (u : UaccPtr) (c : AgentConfiguration) : Prop :=
  ∃ t f ctl k, c.pool t = Prog.call (Op.ext (.callback u f ctl)) k ∧
    f.present (c.st.shared.comp u).uar = false

/-- Every thread of the agent runs a safe program. -/
theorem pool_safe {u : UaccPtr} (hget : (cfg.getRoutine u).onGetVersion)
    {c : AgentConfiguration} (hc : (agent cfg).Reachable c) (t : Tid) :
    Safe cfg u (c.pool t) := by
  refine pool_allUnder (fun c hc => registered_of_reachable cfg hc) ?_ ?_ hc t
  · intro t o b t' p hfork
    obtain ⟨u', n, -, -, rfl⟩ | ⟨u', -, -, rfl⟩ | ⟨n, -, -, rfl⟩ | ⟨n, passes, -, -, rfl⟩ :=
      fork_cases (show fork t o b = some (t', p) from hfork)
    · exact safe_workerAction hget u'
    · exact safe_updateResumeFromReboot hget u'
    · exact safe_assignIntl ..
    · exact safe_updateSequenceInfo (passes + 1)
  · intro t p w w' ⟨e, harrive, _⟩
    cases harrive with
    | message uacc msg hreg => exact safe_runnerPass hget uacc msg
    | presence connected => exact safe_handlePresence cfg.nUah connected

/-- No absent callback of a component is ever called if its `on_get_version` is present. -/
theorem no_absent_callback {u : UaccPtr} (hget : (cfg.getRoutine u).onGetVersion)
    {c : AgentConfiguration} (hc : (agent cfg).Reachable c) : ¬CallsAbsent u c := by
  intro ⟨t, f, ctl, k, hpool, habsent⟩
  have hsafe := pool_safe cfg hget hc t
  rw [hpool] at hsafe
  have hpresent : f.present (cfg.getRoutine u) = true := hsafe.1.resolve_right (absurd rfl)
  rw [registered_of_reachable cfg hc u, hpresent] at habsent
  cases habsent

/-- A handler that only looks at the messages itself. -/
def messageRoutine : UaRoutine :=
  { sampleRoutine with onGetVersion := false, onInstall := false, onMessage := true }

def messageConfig : AgentConfig :=
  { sampleConfig false 1 with
    getRoutine := fun _ => messageRoutine
    accepted := fun _ => .inr rfl }

/-- A prepare-update that the handler leaves to the library. -/
def prepareTwo : Json :=
  packageMessage bmtPrepareUpdate [] "pkg" "2" (downloadedFile "2")

theorem no_absent_callback_example :
    ¬CallsAbsent 0 (rehearse (sampleConfig false 1) Anything (usualOracle "1")
      [message (sampleConfig false 1) Anything 0 Nat.one_pos prepareTwo,
        .steps (.runner 0) 40, .steps (.worker 0 0) 40]) :=
  no_absent_callback _ rfl (agent_reachable _ _ _)

/-- The callback that the thread is about to call. -/
def nextCallback (p : UaProg Unit) : Option (UaccPtr × Callback × UaCallbackCtl) :=
  match p with
  | .call (.ext (.callback u f ctl)) _ => some (u, f, ctl)
  | _ => none

theorem eq_call_of_nextCallback {p : UaProg Unit} {u : UaccPtr} {f : Callback}
    {ctl : UaCallbackCtl} (h : nextCallback p = some (u, f, ctl)) :
    ∃ k, p = Prog.call (Op.ext (.callback u f ctl)) k := by
  unfold nextCallback at h
  split at h
  · cases h
    exact ⟨_, rfl⟩
  · cases h

/-- The handler has been offered the message; its worker has come to the installed version. -/
def askingVersion : AgentConfiguration :=
  rehearse messageConfig Anything (usualOracle "1")
    [message messageConfig Anything 0 Nat.one_pos prepareTwo,
      .steps (.runner 0) 40, .steps (.worker 0 0) 40]

theorem absent_callback_called :
    (agent messageConfig).Reachable askingVersion ∧ CallsAbsent 0 askingVersion := by
  have hnext : nextCallback (askingVersion.pool (.worker 0 0)) =
      some (0, .onGetVersion, ⟨some "/ECU", some "pkg", none, none, false⟩) := by
    decide +kernel
  obtain ⟨k, hk⟩ := eq_call_of_nextCallback hnext
  exact ⟨agent_reachable _ _ _, _, _, _, k, hk, by decide +kernel⟩

end EsyncUa.Callbacks
