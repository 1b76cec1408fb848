import EsyncUa.Agents

/-!
What each program of the agent may touch. Every operation is of one kind and is on one
component or on none; the footprint of a program is the list of the kinds of operations
that it may perform on its own component. What an operation of a kind leaves alone is then
left alone by every program without that kind.
-/
namespace EsyncUa.Footprints

open EsyncUa.JsonProperties EsyncUa.Components EsyncUa.Programs EsyncUa.Operations
open EsyncUa.Installation EsyncUa.Updater EsyncUa.Messages EsyncUa.Agents

inductive Kind
  | env | send | install | removeBackup | freeMsg | curMsg | workerRunning | workerArgs
  | replyId | successful | fileInfo | pkg | progress | manifests | cleanup | retryCnt | stage
  | prepared | state | query | campaign | dmcHandler | ctrl | dropped | started | preparation
  | saved | testCleanup | matchReply
  | seqIn | seqOut | setContext | lock | cond | recordSave | remove | recordLoad
  | createWorker | createResume | createPresence | createSequence | pass
  | answer | intlLock
  deriving DecidableEq

def ExtOp.kind : ExtOp → Kind
  | .callback _ .onInstall _ => .install
  | .uaSendMessage _ => .send
  | .removeOldBackup .. => .removeBackup
  | .freeMsg _ => .freeMsg
  | _ => .env

def Assign.kind : Assign → Kind
  | .curMsg _ => .curMsg
  | .workerRunning _ => .workerRunning
  | .workerFunc _ | .workerJobj _ => .workerArgs
  | .replyId _ => .replyId
  | .successful _ => .successful
  | .updateFileInfo _ | .fileInfoFile _ | .fileInfoVersion _ | .fileInfoDownloaded _
  | .fileInfoSha256 _ | .fileInfoShaOfSha _ | .fileInfoRollbackOrder _ => .fileInfo
  | .updatePkg _ | .pkgType _ | .pkgName _ | .pkgVersion _ | .pkgRollbackVersion _
  | .pkgRollbackVersions _ => .pkg
  | .updateError _ | .isRollbackInstallation _ => .progress
  | .updateManifest _ | .backupManifest _ => .manifests
  | .cleanupOkAfterUpdate _ => .cleanup
  | .retryCnt _ => .retryCnt
  | .updateStage _ _ => .stage
  | .preparedVersion _ _ _ => .prepared

def AssignIntl.kind : AssignIntl → Kind
  | .state _ => .state
  | .queryReplyId _ => .query
  | .seqInfoValid _ | .queryUpdates _ => .answer
  | .curCampaignId _ => .campaign
  | .dmcHandlerDone _ => .dmcHandler
  | .rbType _ _ | .customMessage _ _ => .ctrl

def Mark.kind : Mark → Kind
  | .readyUpdateDropped _ _ | .workerBusy _ _ => .dropped
  | .readyUpdateParsed _ _ _ => .started
  | .prepareUpdateParsed _ _ _ | .prepareInstallReturned _ _ _ _ | .markedPrepared _ _ _ =>
      .preparation
  | .recordSaved _ => .saved
  | .sequencePass | .sequenceInfoValid => .pass

def Mutex.kind : Mutex → Kind
  | .intl => .intlLock
  | .updateStatus _ | .backup => .lock

def Op.kind : Op → Kind
  | .ext o => ExtOp.kind o
  | .assign _ x => Assign.kind x
  | .assignIntl x => AssignIntl.kind x
  | .mark m => Mark.kind m
  | .testCleanupOk _ => .testCleanup
  | .matchReplyId _ _ => .matchReply
  | .chkIncomingSeq _ _ _ => .seqIn
  | .updateOutgoingSeq _ _ => .seqOut
  | .setCompContext _ _ => .setContext
  | .mutexLock lock | .mutexUnlock lock => Mutex.kind lock
  | .condSignal _ | .condTimedwait _ | .condWakeup _ => .cond
  | .recordOpen _ | .recordWrite _ _ => .recordSave
  | .remove _ => .remove
  | .recordLoad _ => .recordLoad
  | .queryHashTree _ => .env
  | .createWorker _ => .createWorker
  | .createResume _ => .createResume
  | .createPresence => .createPresence
  | .createSequence => .createSequence

/-- The component that an operation is on, if it is on one. -/
def Op.on : Op → Option UaccPtr
  | .ext (.callback uacc _ _) | .ext (.removeOldBackup uacc _ _ _) | .ext (.freeMsg uacc)
  | .assign uacc _ | .testCleanupOk uacc | .matchReplyId uacc _ | .chkIncomingSeq uacc _ _
  | .setCompContext uacc _ | .mutexLock (.updateStatus uacc) | .mutexUnlock (.updateStatus uacc)
  | .condSignal uacc | .condTimedwait uacc | .condWakeup uacc | .recordWrite _ uacc
  | .createWorker uacc | .createResume uacc => some uacc
  | .mark (.readyUpdateParsed uacc _ _) | .mark (.readyUpdateDropped uacc _)
  | .mark (.workerBusy uacc _) | .mark (.prepareUpdateParsed uacc _ _)
  | .mark (.prepareInstallReturned uacc _ _ _) | .mark (.markedPrepared uacc _ _)
  | .mark (.recordSaved uacc) => some uacc
  | _ => none

/-- What an operation of a kind with one form is. -/
def Shape (o : Op) : Kind → Prop
  | .seqIn => ∃ u name num, o = .chkIncomingSeq u name num
  | .setContext => ∃ u cc, o = .setCompContext u cc
  | .query => ∃ value, o = .assignIntl (.queryReplyId value)
  | .lock | .intlLock => ∃ lock, o = .mutexLock lock ∨ o = .mutexUnlock lock
  | .stage => ∃ u name stage, o = .assign u (.updateStage name stage)
  | _ => True

theorem shape_kind (o : Op) : Shape o (Op.kind o) := by
  cases o with
  | chkIncomingSeq u name num => exact ⟨u, name, num, rfl⟩
  | setCompContext u cc => exact ⟨u, cc, rfl⟩
  | mutexLock lock => cases lock <;> exact ⟨_, Or.inl rfl⟩
  | mutexUnlock lock => cases lock <;> exact ⟨_, Or.inr rfl⟩
  | assign u x =>
    cases x with
    | updateStage name stage => exact ⟨u, name, stage, rfl⟩
    | _ => trivial
  | assignIntl x =>
    cases x with
    | queryReplyId value => exact ⟨value, rfl⟩
    | _ => trivial
  | mark m => cases m <;> trivial
  | ext o =>
    cases o with
    | callback u f ctl => cases f <;> trivial
    | _ => trivial
  | _ => trivial

theorem shape_of_kind {o : Op} {k : Kind} (h : Op.kind o = k) : Shape o k := by
  rw [← h]
  exact shape_kind o

theorem eq_of_kind_seqIn {o : Op} (h : Op.kind o = .seqIn) :
    ∃ u name num, o = .chkIncomingSeq u name num := shape_of_kind h

theorem eq_of_kind_setContext {o : Op} (h : Op.kind o = .setContext) :
    ∃ u cc, o = .setCompContext u cc := shape_of_kind h

theorem eq_of_kind_query {o : Op} (h : Op.kind o = .query) :
    ∃ value, o = .assignIntl (.queryReplyId value) := shape_of_kind h

theorem eq_of_kind_stage {o : Op} (h : Op.kind o = .stage) :
    ∃ u name stage, o = .assign u (.updateStage name stage) := shape_of_kind h

theorem eq_of_kind_lock {o : Op} (h : Op.kind o = .lock ∨ Op.kind o = .intlLock) :
    ∃ lock, o = .mutexLock lock ∨ o = .mutexUnlock lock := by
  obtain h | h := h <;> exact shape_of_kind h

def Within (uacc : UaccPtr) (kinds : List Kind) (o : Op) : Prop :=
  (∀ uacc', Op.on o = some uacc' → uacc' = uacc) ∧ Op.kind o ∈ kinds

variable {α : Type} {Q : Op → Prop} (uacc : UaccPtr) (ks : List Kind)

@[simp] theorem all_op (o : Op) :
    @Prog.All Shared Op Op.Ans (no_index o.Ans) Q (op o) ↔ Q o := Prog.all_perform Q o

@[simp] theorem all_ext (o : ExtOp) :
    @Prog.All Shared Op Op.Ans (no_index o.Ans) Q (ext o) ↔ Q (.ext o) := Prog.all_perform Q _

@[simp] theorem all_assign (x : Assign) : (assign uacc x).All Q ↔ Q (.assign uacc x) :=
  Prog.all_perform Q _

@[simp] theorem all_assignIntl (x : AssignIntl) : (assignIntl x).All Q ↔ Q (.assignIntl x) :=
  Prog.all_perform Q _

@[simp] theorem all_mark (m : Mark) : (mark m).All Q ↔ Q (.mark m) := Prog.all_perform Q _

@[simp] theorem all_readComp (f : UaComponentContext → α) : (readComp uacc f).All Q :=
  Prog.all_read Q _

@[simp] theorem all_readIntl (f : UaInternal → α) : (readIntl f).All Q := Prog.all_read Q _

@[simp] theorem all_callback (f : Callback) (ctl : UaCallbackCtl) :
    @Prog.All Shared Op Op.Ans (no_index f.Ans) Q (callback uacc f ctl) ↔
      Q (.ext (.callback uacc f ctl)) :=
  Prog.all_perform Q _

@[simp] theorem all_access (path : Option String) :
    (access path).All Q ↔ Q (.ext (.access path)) :=
  Prog.all_perform Q _

@[simp] theorem all_remove (path : Option String) : (remove path).All Q ↔ Q (.remove path) :=
  Prog.all_perform Q _

@[simp] theorem all_crash : (crash : UaProg α).All Q ↔ Q (.ext .crash) :=
  ⟨fun h => h.1, fun h => ⟨h, fun b => b.elim⟩⟩

@[simp] theorem all_orCrash (value : Option α) :
    (orCrash value).All Q ↔ (value = none → Q (.ext .crash)) := by
  cases value <;> simp [orCrash]

@[simp] theorem all_doIf (c : Prop) [Decidable c] (p : UaProg Unit) :
    (doIf c p).All Q ↔ (c → p.All Q) := by
  simp [doIf]

@[simp] theorem all_ignoring (p : UaProg α) : (ignoring p).All Q ↔ p.All Q := by
  simp [ignoring]

attribute [local simp] Within Op.kind Op.on ExtOp.kind Assign.kind AssignIntl.kind Mark.kind
  Mutex.kind

attribute [local simp] List.cons_subset List.nil_subset

abbrev sendKinds : List Kind := [.env, .seqOut, .replyId, .send]

theorem statusVersionList_within (hks : .env ∈ ks) (state : InstallState)
    (pkgFile : Option PkgFile) (ue : UpdateErr) :
    (statusVersionList state pkgFile ue).All (Within uacc ks) := by
  cases pkgFile <;> simp [statusVersionList, hks]

theorem sendInstallStatus_within (hks : sendKinds ⊆ ks) (state : InstallState)
    (pkgFile : Option PkgFile) (ue : UpdateErr) :
    (sendInstallStatus uacc state pkgFile ue).All (Within uacc ks) := by
  simp only [sendKinds, List.cons_subset, List.nil_subset, and_true] at hks
  simp [sendInstallStatus, statusVersionList_within, statusSequence, statusReplyId, hks]

theorem patchDelta_within (hks : .env ∈ ks)
    (pkgManifest version diffFile newFile : Option String) :
    (patchDelta pkgManifest version diffFile newFile).All (Within uacc ks) := by
  simp only [patchDelta, Prog.all_ite, Prog.all_bind, all_ext]
  refine ⟨fun _ => ⟨by simp [hks], fun reply _ => ?_⟩, by simp⟩
  cases reply <;> simp [hks]

theorem prepareFile_within (hks : .env ∈ ks) (err : Rc) (installedVer : Option String)
    (pkgFile updateFile : PkgFile) (ue : UpdateErr) :
    (prepareFile uacc err installedVer pkgFile updateFile ue).All (Within uacc ks) := by
  simp [prepareFile, isDeltaToPatch, patchDelta_within, hks]

theorem prepareManifest_within (hks : .env ∈ ks) (updateFile : PkgFile) :
    (prepareManifest uacc updateFile).All (Within uacc ks) := by
  simp only [prepareManifest, Prog.all_ite, Prog.all_bind, all_readComp, all_ext, true_and]
  refine fun manifest _ => ⟨fun _ => ⟨by simp [hks], fun sha _ => ?_⟩, by simp⟩
  cases sha <;> simp [hks]

theorem prepareInstallAction_within (hks : .env ∈ ks) (pkgFile : PkgFile) (bck : Bool)
    (updateFile : PkgFile) (ue : UpdateErr) :
    (prepareInstallAction uacc pkgFile bck updateFile ue).All (Within uacc ks) := by
  simp [prepareInstallAction, prepareTransfer, transferFileAction, prepareVersion,
    prepareFile_within, prepareCallback, prepareManifest_within, hks]

abbrev preUpdateKinds : List Kind := [.env, .seqOut, .replyId, .send, .lock, .cond, .successful]

theorem preUpdateAction_within (hks : preUpdateKinds ⊆ ks) :
    (preUpdateAction uacc).All (Within uacc ks) := by
  simp only [preUpdateKinds, List.cons_subset, List.nil_subset, and_true] at hks
  simp [preUpdateAction, preInstall, sendInstallStatus_within, awaitConsent, takeSuccessful, hks]

abbrev reportKinds : List Kind := .ctrl :: sendKinds

theorem reportInstall_within (hks : reportKinds ⊆ ks) (state : InstallState) :
    (reportInstall uacc state).All (Within uacc ks) := by
  simp only [reportKinds, sendKinds, List.cons_subset, List.nil_subset, and_true] at hks
  simp [reportInstall, sendInstallStatus_within, hks]

abbrev updateActionKinds : List Kind := .install :: reportKinds

theorem updateAction_within (hks : updateActionKinds ⊆ ks) :
    (updateAction uacc).All (Within uacc ks) := by
  simp only [updateActionKinds, reportKinds, sendKinds, List.cons_subset, List.nil_subset,
    and_true] at hks
  simp [updateAction, reportInstall_within, hks]

theorem postUpdateAction_within (hks : .env ∈ ks) :
    (postUpdateAction uacc).All (Within uacc ks) := by
  simp [postUpdateAction, hks]

theorem backupPackage_within (hks : .env ∈ ks) (pkgName : Option String) (pkgFile : PkgFile) :
    (backupPackage uacc pkgName pkgFile).All (Within uacc ks) := by
  simp [backupPackage, isBackedUp, copyToBackup, backupSourceFile, hks]

theorem handlerBackupActions_within (hks : [.env, .lock] ⊆ ks) (pkgName version : Option String) :
    (handlerBackupActions uacc pkgName version).All (Within uacc ks) := by
  simp only [List.cons_subset, List.nil_subset, and_true] at hks
  have hbackup : ∀ manifest,
      (backupFromManifest uacc manifest pkgName version).All (Within uacc ks) := by
    intro manifest
    simp only [backupFromManifest, Prog.all_bind, all_ext]
    refine ⟨by simp [hks], fun reply _ => ?_⟩
    cases reply <;> simp [hks, backupPackage_within]
  simp [handlerBackupActions, hbackup, hks]

theorem saveRecord_within (hks : [.env, .recordSave, .saved] ⊆ ks) :
    (saveRecord uacc).All (Within uacc ks) := by
  simp only [List.cons_subset, List.nil_subset, and_true] at hks
  simp only [saveRecord, updateRecordSave, Prog.all_bind, all_ignoring, all_readComp, true_and]
  refine ⟨fun path _ => ?_, by simp [hks]⟩
  cases path <;> simp [hks]

theorem updateInstalledVersionSame_within (hks : .env ∈ ks) (targetVersion : Option String) :
    (updateInstalledVersionSame uacc targetVersion).All (Within uacc ks) := by
  simp [updateInstalledVersionSame, hks]

abbrev recordedInstallKinds : List Kind := .remove :: updateActionKinds

theorem updateRecordedInstall_within (hks : recordedInstallKinds ⊆ ks) (updateSts : InstallState)
    (rebootSupport : Bool) :
    (updateRecordedInstall uacc updateSts rebootSupport).All (Within uacc ks) := by
  simp only [recordedInstallKinds, updateActionKinds, reportKinds, sendKinds, List.cons_subset,
    List.nil_subset, and_true] at hks
  simp [updateRecordedInstall, installAndPost, updateAction_within, postUpdateAction_within, hks]

abbrev installKinds : List Kind :=
  [.env, .seqOut, .replyId, .send, .lock, .cond, .successful, .recordSave, .saved, .install,
    .ctrl, .remove]

theorem updateStartInstallOperations_within (hks : installKinds ⊆ ks) (rebootSupport : Bool) :
    (updateStartInstallOperations uacc rebootSupport).All (Within uacc ks) := by
  simp only [installKinds, List.cons_subset, List.nil_subset, and_true] at hks
  simp [updateStartInstallOperations, isInstalledAlready, updateInstalledVersionSame_within,
    sendInstallStatus_within, postUpdateAction_within, preUpdateAction_within, saveRecord_within,
    updateRecordedInstall_within, hks]

theorem updateGetNextRollbackVersion_within (hks : .env ∈ ks) (curVersion : Option String) :
    (updateGetNextRollbackVersion uacc curVersion).All (Within uacc ks) := by
  simp only [updateGetNextRollbackVersion, Prog.all_bind, all_readComp, true_and]
  intro versions _
  cases versions <;> simp [hks]

theorem updateGetRollbackPackage_within (hks : .env ∈ ks) (rbFileInfo : PkgFile)
    (rbVersion : Option String) :
    (updateGetRollbackPackage uacc rbFileInfo rbVersion).All (Within uacc ks) := by
  simp only [updateGetRollbackPackage, Prog.all_ite, Prog.all_bind, all_readComp, all_orCrash,
    true_and]
  refine ⟨by simp, fun _ msg _ => ⟨by simp [hks], fun info _ => ?_⟩⟩
  obtain ⟨filepath, rbFileInfo⟩ := info
  cases filepath with
  | some filepath => simp [rollbackPackage, updatePackageAvailable, hks]
  | none =>
      simp only [Prog.all_bind, all_readComp, all_ext, true_and]
      refine fun manifest _ => ⟨by simp [hks], fun reply _ => ?_⟩
      cases reply <;> simp [rollbackPackage, updatePackageAvailable, hks]

abbrev intentKinds : List Kind := .pkg :: sendKinds

theorem updateSendRollbackIntent_within (hks : intentKinds ⊆ ks) (next : Option String) :
    (updateSendRollbackIntent uacc next).All (Within uacc ks) := by
  simp only [intentKinds, sendKinds, List.cons_subset, List.nil_subset, and_true] at hks
  have hintent : ∀ rbType info, (sendIntent uacc rbType info).All (Within uacc ks) := by
    intro rbType info
    cases rbType <;> simp [sendIntent, sendInstallStatus_within, hks]
  simp [updateSendRollbackIntent, updateGetRollbackPackage_within, readRbType, hintent, hks]

abbrev rollbackKinds : List Kind := [.fileInfo, .pkg, .progress] ++ installKinds

theorem rollbackToNext_within (hks : .ctrl :: intentKinds ⊆ ks) (updateSts : InstallState)
    (next : String) : (rollbackToNext uacc updateSts next).All (Within uacc ks) := by
  simp only [intentKinds, sendKinds, List.cons_subset, List.nil_subset, and_true] at hks
  simp only [rollbackToNext, Prog.all_bind]
  refine ⟨updateGetNextRollbackVersion_within _ _ (by simp [hks]) _, fun next' _ => ?_⟩
  cases next' <;> simp [updateSendRollbackIntent_within, hks]

theorem rollbackInstall_within (hks : rollbackKinds ⊆ ks) (state : InstallState) (next : String)
    (rebootSupport : Bool) :
    (rollbackInstall uacc state next rebootSupport).All (Within uacc ks) := by
  simp only [rollbackKinds, installKinds, List.cons_append, List.nil_append, List.cons_subset,
    List.nil_subset, and_true] at hks
  simp [rollbackInstall, rollbackReady, updateStartInstallOperations_within, rollbackToNext_within,
    hks]

theorem rollbackWithPackage_within (hks : rollbackKinds ⊆ ks) (rbFileInfo : PkgFile) (bck : Bool)
    (next : String) (rebootSupport : Bool) :
    (rollbackWithPackage uacc rbFileInfo bck next rebootSupport).All (Within uacc ks) := by
  have hinstall := rollbackInstall_within uacc ks hks
  simp only [rollbackKinds, installKinds, List.cons_append, List.nil_append, List.cons_subset,
    List.nil_subset, and_true] at hks
  simp [rollbackWithPackage, rollbackPreparedDelta, prepareInstallAction_within,
    postUpdateAction_within, hinstall, hks]

theorem rollbackWithoutPackage_within (hks : intentKinds ⊆ ks) (next : String) :
    (rollbackWithoutPackage uacc next).All (Within uacc ks) := by
  have hintent := updateSendRollbackIntent_within uacc ks hks
  simp only [intentKinds, sendKinds, List.cons_subset, List.nil_subset, and_true] at hks
  simp only [rollbackWithoutPackage, Prog.all_bind]
  refine ⟨updateGetNextRollbackVersion_within _ _ (by simp [hks]) _, fun next' _ => ?_⟩
  cases next' <;> simp [hintent, postUpdateAction_within, hks]

theorem updateStartRollbackOperations_within (hks : rollbackKinds ⊆ ks) (rbVersion : String)
    (rebootSupport : Bool) :
    (updateStartRollbackOperations uacc rbVersion rebootSupport).All (Within uacc ks) := by
  have hpackage := rollbackWithPackage_within uacc ks hks
  simp only [rollbackKinds, installKinds, List.cons_append, List.nil_append, List.cons_subset,
    List.nil_subset, and_true] at hks
  simp [updateStartRollbackOperations, updateInstalledVersionSame_within, rollbackToInstalled,
    rollbackToVersion, updateGetRollbackPackage_within, hpackage, rollbackWithoutPackage_within,
    sendInstallStatus_within, postUpdateAction_within, removeUpdateManifest, rollbackFailed,
    readRbType, hks]

abbrev releaseKinds : List Kind := [.fileInfo, .campaign, .pkg, .progress, .answer]

theorem updateReleaseCompContext_within (hks : releaseKinds ⊆ ks) :
    (updateReleaseCompContext uacc).All (Within uacc ks) := by
  simp only [releaseKinds, List.cons_subset, List.nil_subset, and_true] at hks
  simp [updateReleaseCompContext, hks]

theorem resumeFailed_within (hks : intentKinds ⊆ ks) :
    (resumeFailed uacc).All (Within uacc ks) := by
  have hintent := updateSendRollbackIntent_within uacc ks hks
  simp only [intentKinds, sendKinds, List.cons_subset, List.nil_subset, and_true] at hks
  have hrollback : (resumeRollback uacc).All (Within uacc ks) := by
    simp only [resumeRollback, Prog.all_bind, all_readComp, true_and]
    refine fun version _ => ⟨updateGetNextRollbackVersion_within _ _ (by simp [hks]) _,
      fun next _ => ?_⟩
    cases next <;>
      simp [hintent, postUpdateAction_within, sendInstallStatus_within, hks]
  simp [resumeFailed, readRbType, resumePlainFailure, postUpdateAction_within,
    sendInstallStatus_within, hrollback, hks]

/-- The operations of the resume thread between the claim and the release of the worker. -/
abbrev resumeKinds : List Kind :=
  [.manifests, .env, .seqOut, .replyId, .send, .lock, .pkg, .stage, .remove, .fileInfo, .campaign,
    .progress, .answer, .state]

theorem resumeInstallation_within (hks : resumeKinds ⊆ ks) :
    (resumeInstallation uacc).All (Within uacc ks) := by
  simp only [resumeKinds, List.cons_subset, List.nil_subset, and_true] at hks
  simp [resumeInstallation, assignManifests, updateInstalledVersionSame_within, resumeSucceeded,
    sendInstallStatus_within, handlerBackupActions_within, postUpdateAction_within,
    resumeFailed_within, updateReleaseCompContext_within, hks]

abbrev parseKinds : List Kind := [.env, .pkg, .campaign, .manifests, .fileInfo, .progress]

theorem parseDigest_within (hks : [.env, .fileInfo] ⊆ ks) (err : Rc) :
    (parseDigest uacc err).All (Within uacc ks) := by
  simp only [List.cons_subset, List.nil_subset, and_true] at hks
  simp only [parseDigest, Prog.all_bind, all_readComp, all_ext, true_and]
  refine fun file _ => ⟨by simp [hks], fun sha _ => ?_⟩
  cases sha <;> simp [hks]

theorem parseInfoFromMsg_within (hks : [.env, .fileInfo] ⊆ ks) (jsonObj : Json) :
    (parseInfoFromMsg uacc jsonObj).All (Within uacc ks) := by
  have hdigest := parseDigest_within uacc ks hks
  simp only [List.cons_subset, List.nil_subset, and_true] at hks
  have hbackup : ∀ version, (parseFromBackup uacc version).All (Within uacc ks) := by
    intro version
    simp only [parseFromBackup, Prog.all_bind, all_readComp, all_ext, true_and]
    refine fun manifest _ => ⟨by simp [hks], fun reply _ => ?_⟩
    cases reply <;> simp [hks]
  simp [parseInfoFromMsg, parseFileFromMsg, parseTransfer, hdigest, hbackup, hks]

theorem updateParseJsonReadyUpdate_within (hks : parseKinds ⊆ ks) (jsonObj : Json)
    (cacheDir backupDir : Option String) :
    (updateParseJsonReadyUpdate uacc jsonObj cacheDir backupDir).All (Within uacc ks) := by
  simp only [parseKinds, List.cons_subset, List.nil_subset, and_true] at hks
  have hfile : (parseFileInfo uacc jsonObj).All (Within uacc ks) := by
    simp only [parseFileInfo, Prog.all_bind, all_readComp, all_assign, all_ext, true_and]
    refine fun _ _ => ⟨by simp [hks], fun _ _ _ _ => ⟨by simp [hks], fun _ _ _ _ _ _ =>
      ⟨by simp [hks], fun reply _ => ?_⟩⟩⟩
    cases reply <;> simp [parseInfoFromMsg_within, hks]
  simp [updateParseJsonReadyUpdate, parseIdentity, parseName, parseVersions, assignManifests,
    parseFailed, hfile, hks]

abbrev queryPackageKinds : List Kind := [.env, .send]

theorem sendJson_within (hks : .send ∈ ks) (fields : List (String × Json)) :
    (sendJson fields).All (Within uacc ks) := by
  simp [sendJson, hks]

theorem processQueryPackage_within (hks : queryPackageKinds ⊆ ks) (jsonObj : Json) :
    (processQueryPackage uacc jsonObj).All (Within uacc ks) := by
  simp only [queryPackageKinds, List.cons_subset, List.nil_subset, and_true] at hks
  have hlist : ∀ name version, (queryVersionList name version).All (Within uacc ks) := by
    intro name version
    simp only [queryVersionList, Prog.all_bind, all_readIntl, all_ext, true_and]
    refine fun intl _ => ⟨by simp [hks], fun _ _ => ⟨by simp [versionListFromBackup, hks],
      fun list _ => ?_⟩⟩
    split <;> simp
  simp [processQueryPackage, answerQuery, doNotDisturbBody, queryPackageBody, queryDeltaCap, hlist,
    sendJson_within, hks]

theorem processReadyDownload_within (hks : [.env, .seqOut, .send] ⊆ ks) (jsonObj : Json) :
    (processReadyDownload uacc jsonObj).All (Within uacc ks) := by
  simp only [List.cons_subset, List.nil_subset, and_true] at hks
  simp [processReadyDownload, prepareDownloadAction, sendDownloadStatus, statusSequence,
    sendJson_within, hks]

theorem sendQuery_within (hks : [.env, .query, .send] ⊆ ks) (fields : List (String × Json)) :
    (sendQuery fields).All (Within uacc ks) := by
  simp only [List.cons_subset, List.nil_subset, and_true] at hks
  simp only [sendQuery, Prog.all_ite, Prog.all_bind, all_readIntl, all_ext, true_and]
  refine fun _ _ => ⟨fun _ => ⟨by simp [hks], fun replyId _ =>
    ⟨by simp [hks], fun _ _ => ?_⟩⟩, by simp⟩
  cases replyId <;> simp [sendJson_within, hks]

abbrev prepareKinds : List Kind :=
  [.env, .send, .seqOut, .replyId, .pkg, .campaign, .preparation, .stage, .manifests, .query,
    .retryCnt, .prepared]

theorem prepareAndReport_within (hks : prepareKinds ⊆ ks) (jsonObj : Json) (pkgFile : PkgFile)
    (bck : Bool) : (prepareAndReport uacc jsonObj pkgFile bck).All (Within uacc ks) := by
  simp only [prepareKinds, List.cons_subset, List.nil_subset, and_true] at hks
  simp [prepareAndReport, prepareInstallAction_within, sendQueryUpdates, sendQuery_within,
    sendInstallStatus_within, hks]

theorem prepareFromSource_within (hks : prepareKinds ⊆ ks) (jsonObj : Json)
    (version : Option String) :
    (prepareFromSource uacc jsonObj version).All (Within uacc ks) := by
  have hreport := prepareAndReport_within uacc ks hks
  simp only [prepareKinds, List.cons_subset, List.nil_subset, and_true] at hks
  have hsource : (prepareSource uacc jsonObj version).All (Within uacc ks) := by
    simp only [prepareSource, Prog.all_ite, Prog.all_bind, all_readComp, all_ext, true_and]
    refine ⟨by simp, fun _ manifest _ => ⟨by simp [hks], fun reply _ => ?_⟩⟩
    cases reply <;> simp
  simp only [prepareFromSource, Prog.all_bind]
  refine ⟨hsource, fun source _ => ?_⟩
  cases source <;> simp [hreport, prepareWithoutFile, sendInstallStatus_within, hks]

theorem isMarkedPrepared_within (hks : .env ∈ ks) (st : UaStage) :
    (isMarkedPrepared uacc st).All (Within uacc ks) := by
  simp only [isMarkedPrepared, Prog.all_ite, Prog.all_bind, all_readComp, all_readIntl,
    all_orCrash, true_and]
  refine ⟨fun _ _ _ _ _ _ _ _ _ => ⟨by simp [hks], fun preparedVer _ => ?_⟩, by simp⟩
  cases preparedVer <;> simp [hks]

theorem processPrepareUpdate_within (hks : prepareKinds ⊆ ks) (jsonObj : Json) :
    (processPrepareUpdate uacc jsonObj).All (Within uacc ks) := by
  have hsource := prepareFromSource_within uacc ks hks
  simp only [prepareKinds, List.cons_subset, List.nil_subset, and_true] at hks
  simp [processPrepareUpdate, parsePrepareUpdate, parsePrepareName, prepareParsed, prepareInStage,
    isMarkedPrepared_within, prepareFastPath, prepareUpdate, hsource, prepareDone, prepareUndone,
    sendInstallStatus_within, hks]

abbrev confirmKinds : List Kind :=
  [.stage, .env, .ctrl, .removeBackup, .remove, .retryCnt, .cleanup]

theorem processConfirmUpdate_within (hks : confirmKinds ⊆ ks) (jsonObj : Json) :
    (processConfirmUpdate uacc jsonObj).All (Within uacc ks) := by
  simp only [confirmKinds, List.cons_subset, List.nil_subset, and_true] at hks
  have hcleanup : ∀ info cacheDir backupDir,
      (confirmCleanup uacc info cacheDir backupDir).All (Within uacc ks) := by
    intro info cacheDir backupDir
    unfold confirmCleanup
    split
    · simp [cleanupBackups, readRbType, hks]
    · simp
  simp [processConfirmUpdate, confirmInStage, confirmUpdate, hcleanup, confirmDeltaCleanup,
    removeIfFound, hks]

abbrev readyInstallKinds : List Kind :=
  [.env, .seqOut, .replyId, .send, .lock, .cond, .successful, .recordSave, .saved, .install, .ctrl,
    .remove, .fileInfo, .pkg, .progress, .retryCnt]

theorem afterInstall_within (hks : .progress :: .remove :: intentKinds ⊆ ks)
    (updateSts : InstallState) : (afterInstall uacc updateSts).All (Within uacc ks) := by
  simp only [intentKinds, sendKinds, List.cons_subset, List.nil_subset, and_true] at hks
  have hrollback : (installRollback uacc).All (Within uacc ks) := by
    simp only [installRollback, Prog.all_bind, all_readComp, true_and]
    refine fun _ _ => ⟨updateGetNextRollbackVersion_within _ _ (by simp [hks]) _,
      fun next _ => ?_⟩
    cases next <;>
      simp [updateSendRollbackIntent_within, installTerminalFailure, sendInstallStatus_within, hks]
  simp [afterInstall, installFailed, installRetry, hrollback, sendInstallStatus_within,
    removeUpdateManifest, hks]

theorem readyUpdateInstall_within (hks : readyInstallKinds ⊆ ks) :
    (readyUpdateInstall uacc).All (Within uacc ks) := by
  simp only [readyInstallKinds, List.cons_subset, List.nil_subset, and_true] at hks
  simp only [readyUpdateInstall, Prog.all_bind, all_readIntl, all_readComp, true_and]
  intro rebootSupport _ rollbackVersion _
  cases rollbackVersion with
  | some version =>
      exact updateStartRollbackOperations_within _ _ (by simp [rollbackKinds, hks]) _ _
  | none =>
      simp [firstInstall, updateStartInstallOperations_within, afterInstall_within, hks]

theorem readyUpdateBackup_within (hks : [.env, .lock] ⊆ ks) (updateSts : InstallState) :
    (readyUpdateBackup uacc updateSts).All (Within uacc ks) := by
  have hbackup := handlerBackupActions_within uacc ks hks
  simp only [List.cons_subset, List.nil_subset, and_true] at hks
  simp [readyUpdateBackup, backupInstalled, hbackup, hks]

/-- The operations of a ready-update after its message has been parsed. -/
abbrev readyUpdateKinds : List Kind :=
  [.dropped, .started, .stage, .prepared, .cleanup, .removeBackup, .testCleanup, .curMsg,
    .manifests, .campaign, .answer] ++ readyInstallKinds

theorem readyUpdate_within (hks : readyUpdateKinds ⊆ ks) (jsonObj : Json) :
    (readyUpdate uacc jsonObj).All (Within uacc ks) := by
  simp only [readyUpdateKinds, readyInstallKinds, List.cons_append, List.nil_append,
    List.cons_subset, List.nil_subset, and_true] at hks
  simp [readyUpdate, chooseRbType, readRbType, readyUpdateInstall_within, readyUpdateBackup_within,
    deferredConfirm, processConfirmUpdate_within, readyUpdateRelease,
    updateReleaseCompContext_within, hks]

theorem processReadyUpdate_within (hks : readyUpdateKinds ⊆ ks) (jsonObj : Json) :
    (processReadyUpdate uacc jsonObj).All (Within uacc ks) := by
  have hready := readyUpdate_within uacc ks hks
  simp only [readyUpdateKinds, readyInstallKinds, List.cons_append, List.nil_append,
    List.cons_subset, List.nil_subset, and_true] at hks
  simp [processReadyUpdate, updateParseJsonReadyUpdate_within, readyUpdateParsed, hready,
    readyUpdateFailed, sendInstallStatus_within, hks]

theorem updateSequences_all {Q : Op → Prop}
    (hQ : ∀ name num, Q (.updateOutgoingSeq name num)) (fields : List (String × Json)) :
    (updateSequences fields).All Q := by
  induction fields using updateSequences.induct with
  | case1 => simp [updateSequences]
  | case2 key seq fields ih => simp [updateSequences, ih, hQ]
  | case3 field fields hfield ih =>
      rw [updateSequences]
      · exact ih
      · exact hfield

theorem processSequenceInfo_within (hks : [.intlLock, .env, .seqOut, .answer, .query] ⊆ ks)
    (jsonObj : Json) :
    (processSequenceInfo uacc jsonObj).All (Within uacc ks) := by
  simp only [List.cons_subset, List.nil_subset, and_true] at hks
  have hsequences : ∀ fields, (updateSequences fields).All (Within uacc ks) :=
    updateSequences_all fun name num => by simp [hks]
  simp only [processSequenceInfo, Prog.all_bind, all_op, all_readIntl, true_and]
  refine ⟨by simp [hks], fun _ _ queryReplyId _ => ⟨?_, by simp [hks]⟩⟩
  cases queryReplyId <;> simp [answerSequence, takeSequences, hsequences, hks]

theorem processUpdateStatus_within
    (hks : [.matchReply, .replyId, .lock, .successful, .cond] ⊆ ks) (jsonObj : Json) :
    (processUpdateStatus uacc jsonObj).All (Within uacc ks) := by
  simp only [List.cons_subset, List.nil_subset, and_true] at hks
  have hstore : ∀ verdict, (storeVerdict uacc verdict).All (Within uacc ks) := by
    intro verdict
    cases verdict <;> simp [storeVerdict, hks]
  simp [processUpdateStatus, matchReply, acceptReply, hstore, hks]

theorem processQueryUpdates_within (hks : [.answer, .query] ⊆ ks) (jsonObj : Json) :
    (processQueryUpdates uacc jsonObj).All (Within uacc ks) := by
  simp only [List.cons_subset, List.nil_subset, and_true] at hks
  simp [processQueryUpdates, hks]

/-- The handlers that a worker runs. -/
def ProcessF.OnWorker (func : ProcessF) : Prop :=
  func = .queryPackage ∨ func = .readyUpdate ∨ func = .prepareUpdate

/-- The type of the messages that a handler is for. -/
def messageType : ProcessF → String
  | .queryPackage => bmtQueryPackage
  | .readyDownload => bmtReadyDownload
  | .readyUpdate => bmtReadyUpdate
  | .prepareUpdate => bmtPrepareUpdate
  | .confirmUpdate => bmtConfirmUpdate
  | .downloadReport => bmtDownloadReport
  | .sotaReport => bmtSotaReport
  | .logReport => bmtLogReport
  | .sequenceInfo => bmtQuerySequence
  | .updateStatus => bmtUpdateStatus
  | .queryUpdates => bmtQueryUpdates

theorem ite_elim {α : Type} {c : Prop} [Decidable c] {a b x : α} {φ : Prop}
    (hp : c → a = x → φ) (hn : b = x → φ) (h : (if c then a else b) = x) : φ := by
  by_cases hc : c
  · exact hp hc (by rwa [if_pos hc] at h)
  · exact hn (by rwa [if_neg hc] at h)

/-- Whether a worker runs the handler. -/
def turnoverOf (async : Bool) : ProcessF → Bool
  | .queryPackage => async
  | .readyUpdate | .prepareUpdate => true
  | _ => false

theorem handlerOf_eq {async turnover : Bool} {type : String} {func : ProcessF}
    (h : handlerOf async type = some (func, turnover)) :
    type = messageType func ∧ turnover = turnoverOf async func := by
  revert h
  unfold handlerOf
  repeat
    refine ite_elim (fun htype heq => ?_) ?_
    · cases heq
      exact ⟨htype, rfl⟩
  exact nofun

theorem handlerOf_worker {async : Bool} {type : String} {func : ProcessF}
    (h : handlerOf async type = some (func, true)) : ProcessF.OnWorker func := by
  obtain ⟨-, hturnover⟩ := handlerOf_eq h
  cases func with
  | queryPackage => exact Or.inl rfl
  | readyUpdate => exact Or.inr (Or.inl rfl)
  | prepareUpdate => exact Or.inr (Or.inr rfl)
  | _ => cases hturnover

theorem handlerOf_runner {async : Bool} {type : String} {func : ProcessF}
    (h : handlerOf async type = some (func, false)) :
    func ≠ .readyUpdate ∧ func ≠ .prepareUpdate := by
  obtain ⟨-, hturnover⟩ := handlerOf_eq h
  constructor
  · rintro rfl
    cases hturnover
  · rintro rfl
    cases hturnover

/-- The operations of a worker until it is released. -/
abbrev workerKinds : List Kind :=
  [.stage, .prepared, .cleanup, .removeBackup, .testCleanup, .curMsg, .manifests, .campaign,
    .query, .answer, .env, .seqOut, .replyId, .send, .lock, .cond, .successful, .recordSave, .saved,
    .dropped, .started, .preparation, .install, .ctrl, .remove, .fileInfo, .pkg, .progress,
    .retryCnt]

theorem call_within_worker {func : ProcessF} (hfunc : ProcessF.OnWorker func) (jsonObj : Json) :
    (ProcessF.call func uacc jsonObj).All (Within uacc workerKinds) := by
  rcases hfunc with rfl | rfl | rfl
  · exact processQueryPackage_within _ _ (by decide) _
  · exact processReadyUpdate_within _ _ (by decide) _
  · exact processPrepareUpdate_within _ _ (by decide) _

theorem Within.mono {uacc : UaccPtr} {ks ks' : List Kind} (hks : ks ⊆ ks') {o : Op}
    (h : Within uacc ks o) : Within uacc ks' o := ⟨h.1, hks h.2⟩

/-- The operations of a handler that the message runner calls itself and that is not one of the
two for the answers to queries. -/
abbrev plainHandlerKinds : List Kind :=
  [.env, .send, .seqOut, .stage, .ctrl, .removeBackup, .remove, .retryCnt, .cleanup, .lock,
    .matchReply, .replyId, .successful, .cond]

theorem call_within_plain {func : ProcessF} (hready : func ≠ .readyUpdate)
    (hprepare : func ≠ .prepareUpdate) (hsequence : func ≠ .sequenceInfo)
    (hupdates : func ≠ .queryUpdates) (jsonObj : Json) :
    (ProcessF.call func uacc jsonObj).All (Within uacc plainHandlerKinds) := by
  cases func with
  | queryPackage => exact processQueryPackage_within _ _ (by decide) _
  | readyDownload => exact processReadyDownload_within _ _ (by decide) _
  | readyUpdate => exact absurd rfl hready
  | prepareUpdate => exact absurd rfl hprepare
  | confirmUpdate => exact processConfirmUpdate_within _ _ (by decide) _
  | downloadReport | sotaReport | logReport => exact trivial
  | sequenceInfo => exact absurd rfl hsequence
  | updateStatus => exact processUpdateStatus_within _ _ (by decide) _
  | queryUpdates => exact absurd rfl hupdates

/-- The operations of a handler that the message runner calls itself. -/
abbrev handlerKinds : List Kind := [.query, .intlLock, .answer] ++ plainHandlerKinds

theorem call_within_runner {func : ProcessF} (hready : func ≠ .readyUpdate)
    (hprepare : func ≠ .prepareUpdate) (jsonObj : Json) :
    (ProcessF.call func uacc jsonObj).All (Within uacc handlerKinds) := by
  by_cases hsequence : func = .sequenceInfo
  · rw [hsequence]
    exact processSequenceInfo_within _ _ (by decide) _
  · by_cases hupdates : func = .queryUpdates
    · rw [hupdates]
      exact processQueryUpdates_within _ _ (by decide) _
    · exact (call_within_plain uacc hready hprepare hsequence hupdates jsonObj).mono fun o ho =>
        Within.mono (List.subset_append_right _ plainHandlerKinds) ho

/-- The operations of any handler. -/
abbrev callKinds : List Kind := handlerKinds ++ workerKinds

theorem call_within (func : ProcessF) (jsonObj : Json) :
    (ProcessF.call func uacc jsonObj).All (Within uacc callKinds) := by
  have hworker : ProcessF.OnWorker func → _ := fun h =>
    (call_within_worker uacc h jsonObj).mono fun o ho =>
      Within.mono (List.subset_append_right handlerKinds workerKinds) ho
  by_cases hready : func = .readyUpdate
  · exact hworker (.inr (.inl hready))
  · by_cases hprepare : func = .prepareUpdate
    · exact hworker (.inr (.inr hprepare))
    · exact (call_within_runner uacc hready hprepare jsonObj).mono fun o ho =>
        Within.mono (List.subset_append_left handlerKinds workerKinds) ho

theorem workerAction_within :
    (workerAction uacc).All (Within uacc (.workerRunning :: callKinds)) := by
  have hcall : ∀ func jsonObj, (ProcessF.call func uacc jsonObj).All
      (Within uacc (.workerRunning :: callKinds)) := fun func jsonObj =>
    (call_within uacc func jsonObj).mono fun o ho => Within.mono (List.subset_cons_self _ _) ho
  simp only [workerAction, Prog.all_bind, all_readComp, all_orCrash, true_and]
  exact fun func _ jObj _ => ⟨by simp, fun jsonObj _ => ⟨hcall func jsonObj, by simp⟩⟩

theorem updateResumeFromReboot_within :
    (updateResumeFromReboot uacc).All (Within uacc (.workerRunning :: resumeKinds)) := by
  simp only [updateResumeFromReboot, Prog.all_bind]
  exact ⟨by simp, fun _ _ => ⟨resumeInstallation_within _ _ (List.subset_cons_self _ _),
    fun _ _ => by simp⟩⟩

/-- The operations of a message runner for a message that is not outdated. -/
abbrev dispatchKinds : List Kind :=
  [.dropped, .workerRunning, .workerArgs, .createWorker] ++ handlerKinds

theorem dispatch_within (jObj : Json) (type : Option String) :
    (dispatch uacc jObj type).All (Within uacc dispatchKinds) := by
  have hstart : ∀ func, (startWorker uacc func jObj).All (Within uacc dispatchKinds) := by
    simp [startWorker, claimWorker]
  have htype : (dispatchType uacc jObj type).All (Within uacc dispatchKinds) := by
    simp only [dispatchType, Prog.all_bind, all_readIntl, all_orCrash, true_and]
    refine fun async _ => ⟨by simp, fun type _ => ?_⟩
    cases hhandler : handlerOf async type with
    | none => trivial
    | some handler =>
        obtain ⟨func, turnover⟩ := handler
        cases turnover with
        | true => exact hstart func
        | false =>
            obtain ⟨hready, hprepare⟩ := handlerOf_runner hhandler
            exact (call_within_runner uacc hready hprepare jObj).mono fun o ho =>
              Within.mono (List.subset_append_right _ handlerKinds) ho
  simp only [dispatch, Prog.all_bind, all_readComp, Prog.all_ite, all_callback, all_doIf, true_and]
  exact fun uar _ => ⟨⟨fun _ => by simp, fun _ => trivial⟩, fun _ _ _ => htype⟩

/-- The operations with which the bus client resumes an installation, other than the one that
applies the record. -/
abbrev resumeStartKinds : List Kind := [.env, .createResume, .stage]

theorem resumeContent_all {content : Option RecordContent} {Q : Op → Prop}
    (hset : ∀ u joRec, content = some (.whole joRec) → Q (.setCompContext u joRec))
    (hother : ∀ u o, Within u resumeStartKinds o → Q o) : (resumeContent content).All Q := by
  have hcomponent : ∀ u joRec, content = some (.whole joRec) →
      (resumeComponent u joRec).All Q := by
    intro u joRec hcontent
    have hresume : Q (.createResume u) := hother u _ (by simp)
    have hstage : ∀ name, Q (.assign u (.updateStage name .unknown)) :=
      fun name => hother u _ (by simp)
    simp [resumeComponent, resumeAbandoned, hset u joRec hcontent, hresume, hstage]
  unfold resumeContent
  split
  · rename_i joRec
    unfold resumeRecord
    split
    · rename_i type _
      have hquery : Q (.queryHashTree type) := hother 0 _ (by simp)
      simp only [Prog.all_bind, all_op]
      refine ⟨hquery, fun uacc _ => ?_⟩
      cases uacc with
      | none => trivial
      | some uacc => exact hcomponent uacc joRec rfl
    · trivial
  · trivial

theorem spawnPresence_all {Q : Op → Prop} (hQ : Q .createPresence) (n : Nat) :
    (spawnPresence n).All Q := by
  induction n with
  | zero => trivial
  | succ n ih => simp [spawnPresence, ih, hQ]

/-- The operations for a presence event that are on no component. -/
abbrev presenceKinds : List Kind := [.createSequence, .createPresence, .recordLoad, .state, .remove]

theorem handlePresence_all {Q : Op → Prop}
    (hnone : ∀ o, Op.on o = none → Op.kind o ∈ presenceKinds → Q o)
    (hset : ∀ u joRec, Q (.setCompContext u joRec))
    (hother : ∀ u o, Within u resumeStartKinds o → Q o) (n : Nat) (connected : Bool) :
    (handlePresence n connected).All Q := by
  have hcontent : ∀ content, (resumeContent content).All Q := fun content =>
    resumeContent_all (fun u joRec _ => hset u joRec) hother
  have hpresence := spawnPresence_all (hnone .createPresence rfl (by simp)) n
  have hops : Q .createSequence ∧ (∀ path, Q (.recordLoad path)) ∧
      (∀ st, Q (.assignIntl (.state st))) ∧ ∀ path, Q (.remove path) :=
    ⟨hnone _ rfl (by simp), fun _ => hnone _ rfl (by simp), fun _ => hnone _ rfl (by simp),
      fun _ => hnone _ rfl (by simp)⟩
  simp [handlePresence, updateHandleResumeFromReboot, hcontent, hpresence, hops]

theorem updateSequenceInfo_all {Q : Op → Prop}
    (hQ : ∀ o, Op.on o = none → Op.kind o ∈ [Kind.intlLock, .env, .query, .send, .pass] → Q o)
    (passes : Nat) : (updateSequenceInfo passes).All Q := by
  have hlock : Q (.mutexLock .intl) ∧ Q (.mutexUnlock .intl) ∧ Q (.ext .randstring) :=
    ⟨hQ _ rfl (by simp), hQ _ rfl (by simp), hQ _ rfl (by simp)⟩
  have hreply : ∀ replyId, Q (.assignIntl (.queryReplyId replyId)) :=
    fun replyId => hQ _ rfl (by simp)
  have hsend : ∀ fields, Q (.ext (.uaSendMessage (.json (.object fields)))) :=
    fun fields => hQ _ rfl (by simp)
  have hmarks : Q (.mark .sequencePass) ∧ Q (.mark .sequenceInfoValid) :=
    ⟨hQ _ rfl (by simp), hQ _ rfl (by simp)⟩
  have hquery : sendSequenceQuery.All Q := by
    simp only [sendSequenceQuery, sendQuery, Prog.all_bind, all_readIntl,
      all_op, Prog.all_ite, all_ext, all_assignIntl, true_and]
    refine ⟨hlock.1, fun _ _ => ⟨fun _ _ => ⟨fun _ => ⟨hlock.2.2, fun replyId _ =>
      ⟨hreply _, fun _ _ => ?_⟩⟩, fun _ => trivial⟩, fun _ _ => hlock.2.1⟩⟩
    cases replyId <;> simp [sendJson, hsend]
  induction passes with
  | zero => trivial
  | succ passes ih => simp [updateSequenceInfo, hmarks, hquery, ih]

end EsyncUa.Footprints
