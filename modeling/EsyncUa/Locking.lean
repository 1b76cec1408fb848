import EsyncUa.Frames
import EsyncUa.RestPhases

/-!
How the programs of the agent use its mutexes. A thread locks a mutex only when it has none,
does not lock another one before it has unlocked it, and waits for a condition only with the
mutex that belongs to it. Every program begins and ends without a mutex.
-/
namespace EsyncUa.Locking

open EsyncUa.JsonProperties EsyncUa.Components EsyncUa.Records EsyncUa.Programs
open EsyncUa.Operations EsyncUa.Installation EsyncUa.Updater EsyncUa.Messages EsyncUa.Agents
open EsyncUa.Footprints EsyncUa.Frames EsyncUa.Phases EsyncUa.RestPhases

/-- The mutex that a thread has, or the condition it waits for. -/
inductive Hold
  | free
  | holds (lock : Mutex)
  | waits (uacc : UaccPtr)

namespace Hold

/-- Whether a thread may perform the operation. -/
def May : Hold → Op → Prop
  | x, .mutexLock _ => x = .free
  | x, .mutexUnlock lock => x = .holds lock
  | x, .condSignal uacc => x = .holds (.updateStatus uacc)
  | x, .condTimedwait uacc => x = .holds (.updateStatus uacc)
  | x, .condWakeup uacc => x = .waits uacc
  | x, _ => ∀ uacc, x ≠ .waits uacc

def after (x : Hold) : Op → Hold
  | .mutexLock lock => .holds lock
  | .mutexUnlock _ => .free
  | .condTimedwait uacc => .waits uacc
  | .condWakeup uacc => .holds (.updateStatus uacc)
  | _ => x

end Hold

/-- A thread that waits for a condition does nothing else until it wakes up. -/
def locking : Protocol Tid Shared Hold Op.Ans where
  reads := fun _ x => ∀ uacc, x ≠ .waits uacc
  sees := fun _ x _ x' => x' = x
  may := fun _ x o => x.May o
  does := fun _ x o _ x' => x.May o ∧ x' = x.after o

/-- The kinds of operations on mutexes and conditions. -/
abbrev lockKinds : List Kind := [.lock, .intlLock, .cond]

/-- An operation on no mutex and no condition. -/
def Plain (o : Op) : Prop := Op.kind o ∉ lockKinds

theorem Plain.may {o : Op} (h : Plain o) {x : Hold} (hx : ∀ uacc, x ≠ .waits uacc) : x.May o := by
  cases o with
  | mutexLock lock | mutexUnlock lock => cases lock <;> simp [Plain, Op.kind, Mutex.kind] at h
  | condSignal | condTimedwait | condWakeup => simp [Plain, Op.kind] at h
  | _ => exact hx

theorem Plain.after {o : Op} (h : Plain o) (x : Hold) : x.after o = x := by
  cases o with
  | mutexLock lock | mutexUnlock lock => cases lock <;> simp [Plain, Op.kind, Mutex.kind] at h
  | condTimedwait | condWakeup => simp [Plain, Op.kind] at h
  | _ => rfl

/-- An operation that is not plain is one of five. -/
theorem not_plain_cases {o : Op} (h : ¬Plain o) :
    (∃ lock, o = .mutexLock lock) ∨ (∃ lock, o = .mutexUnlock lock) ∨
    (∃ uacc, o = .condSignal uacc) ∨ (∃ uacc, o = .condTimedwait uacc) ∨
    ∃ uacc, o = .condWakeup uacc := by
  have hkind : Op.kind o ∈ lockKinds := not_not.mp h
  cases o with
  | mutexLock lock => exact .inl ⟨lock, rfl⟩
  | mutexUnlock lock => exact .inr (.inl ⟨lock, rfl⟩)
  | condSignal u => exact .inr (.inr (.inl ⟨u, rfl⟩))
  | condTimedwait u => exact .inr (.inr (.inr (.inl ⟨u, rfl⟩)))
  | condWakeup u => exact .inr (.inr (.inr (.inr ⟨u, rfl⟩)))
  | assign u x => cases x <;> simp [Op.kind, Assign.kind] at hkind
  | assignIntl x => cases x <;> simp [Op.kind, AssignIntl.kind] at hkind
  | mark m => cases m <;> simp [Op.kind, Mark.kind] at hkind
  | ext o =>
    cases o with
    | callback u f ctl => cases f <;> simp [Op.kind, ExtOp.kind] at hkind
    | _ => simp [Op.kind, ExtOp.kind] at hkind
  | _ => simp [Op.kind] at hkind

/-! The programs keep to the protocol. -/

variable {t : Tid} {α β : Type}

/-- The program begins and ends without a mutex. -/
abbrev Balanced (t : Tid) (p : UaProg α) : Prop := Rests locking t .free p

theorem plain_follows {p : UaProg α} (hp : p.All Plain) {x : Hold}
    (hx : ∀ uacc, x ≠ .waits uacc) : locking.Follows t p x fun _ x' => x' = x :=
  .within hp hx (fun _ => rfl) fun _ ho =>
    ⟨Plain.may ho hx, fun _ => ⟨Plain.may ho hx, (Plain.after ho x).symm⟩⟩

theorem plain_of_within {u : UaccPtr} {p : UaProg α} {ks : List Kind}
    (hp : p.All (Within u ks)) (hks : ∀ k ∈ lockKinds, k ∉ ks) : p.All Plain :=
  hp.mono fun o ho hmem => hks (Op.kind o) hmem ho.2

theorem balanced_of_all {p : UaProg α} (hp : p.All Plain) : Balanced t p :=
  plain_follows hp fun _ h => by cases h

theorem balanced_of_within {u : UaccPtr} {p : UaProg α} {ks : List Kind}
    (hp : p.All (Within u ks)) (hks : ∀ k ∈ lockKinds, k ∉ ks) : Balanced t p :=
  balanced_of_all (plain_of_within hp hks)

theorem holds_ne_waits (lock : Mutex) : ∀ uacc, Hold.holds lock ≠ .waits uacc :=
  fun _ h => by cases h

/-- One operation of the protocol, and what follows it. -/
theorem follows_op {o : Op} {f : o.Ans → UaProg α} {x : Hold} {Q : α → Hold → Prop}
    (hmay : x.May o) (hf : ∀ b, locking.Follows t (f b) (x.after o) Q) :
    locking.Follows t (op o >>= f) x Q :=
  ⟨hmay, fun b => ⟨_, ⟨hmay, rfl⟩, hf b⟩⟩

theorem follows_plain {p : UaProg α} {f : α → UaProg β} {x : Hold} {Q : β → Hold → Prop}
    (hp : p.All Plain) (hx : ∀ uacc, x ≠ .waits uacc)
    (hf : ∀ a, locking.Follows t (f a) x Q) : locking.Follows t (p >>= f) x Q := by
  refine .bind ((plain_follows hp hx).mono ?_)
  rintro a x' rfl
  exact hf a

variable (u : UaccPtr)

theorem balanced_readComp (f : UaComponentContext → α) : Balanced t (readComp u f) :=
  balanced_of_all (all_readComp u f)

theorem balanced_readIntl (f : UaInternal → α) : Balanced t (readIntl f) :=
  balanced_of_all (all_readIntl f)

theorem balanced_orCrash (value : Option α) : Balanced t (orCrash value) :=
  balanced_of_all (by simp [Plain, Op.kind, ExtOp.kind])

theorem balanced_op {o : Op} (ho : Plain o) : Balanced t (op o) :=
  balanced_of_all (by simpa using ho)

theorem balanced_assign (x : Assign) : Balanced t (assign u x) :=
  balanced_of_all (by cases x <;> simp [Plain, Op.kind, Assign.kind])

theorem balanced_assignIntl (x : AssignIntl) : Balanced t (assignIntl x) :=
  balanced_of_all (by cases x <;> simp [Plain, Op.kind, AssignIntl.kind])

theorem balanced_sendInstallStatus (state : InstallState) (pkgFile : Option PkgFile)
    (ue : UpdateErr) : Balanced t (sendInstallStatus u state pkgFile ue) :=
  balanced_of_within (sendInstallStatus_within u sendKinds (fun _ h => h) state pkgFile ue)
    (by decide)

theorem balanced_postUpdateAction : Balanced t (postUpdateAction u) :=
  balanced_of_within (postUpdateAction_within u [.env] (by decide)) (by decide)

theorem balanced_updateInstalledVersionSame (version : Option String) :
    Balanced t (updateInstalledVersionSame u version) :=
  balanced_of_within (updateInstalledVersionSame_within u [.env] (by decide) version) (by decide)

/-! The critical sections. -/

theorem balanced_handlerBackupActions (pkgName version : Option String) :
    Balanced t (handlerBackupActions u pkgName version) := by
  have hbackup : ∀ pkgFile, (backupPackage u pkgName pkgFile).All Plain := fun pkgFile =>
    plain_of_within (backupPackage_within u [.env] (by decide) pkgName pkgFile) (by decide)
  have hmanifest : ∀ updateManifest,
      (backupFromManifest u updateManifest pkgName version).All Plain := by
    intro updateManifest
    simp only [backupFromManifest, Prog.all_bind, all_ext]
    refine ⟨by simp [Plain, Op.kind, ExtOp.kind], fun reply _ => ?_⟩
    cases reply <;> simp [hbackup, Plain, Op.kind, ExtOp.kind]
  have hfound : ∀ updateManifest : Option String,
      (doIf updateManifest.isSome (backupFromManifest u updateManifest pkgName version)).All
        Plain := by
    simp [hmanifest]
  exact follows_op rfl fun _ => follows_plain (all_readComp u _) (holds_ne_waits _) fun _ =>
    follows_plain (hfound _) (holds_ne_waits _) fun _ => follows_op rfl fun _ => rfl

/-- A wait gives the mutex back and takes it again. -/
theorem balanced_awaitConsent : Balanced t (awaitConsent u) := by
  have hgiveUp : ∀ rc : Wakeup,
      (doIf (rc = .timedOut) (assign u (.replyId none))).All Plain := by
    simp [Plain, Op.kind, Assign.kind]
  have htake : (takeSuccessful u).All Plain := by
    simp [takeSuccessful, Plain, Op.kind, Assign.kind]
  exact follows_op rfl fun _ => follows_op rfl fun _ => follows_op rfl fun rc =>
    follows_plain (hgiveUp rc) (holds_ne_waits _) fun _ =>
    follows_plain htake (holds_ne_waits _) fun _ => follows_op rfl fun _ => rfl

theorem balanced_sendSequenceQuery : Balanced t sendSequenceQuery := by
  have hquery : ∀ fields, (sendQuery fields).All Plain := fun fields =>
    plain_of_within (sendQuery_within 0 [.env, .query, .send] (by decide) fields) (by decide)
  exact follows_op rfl fun _ => follows_plain (hquery _) (holds_ne_waits _) fun _ =>
    follows_op rfl fun _ => rfl

theorem balanced_processSequenceInfo (jsonObj : Json) :
    Balanced t (processSequenceInfo u jsonObj) := by
  have hsequences : ∀ fields, (updateSequences fields).All Plain :=
    updateSequences_all fun _ _ => by simp [Plain, Op.kind]
  have hanswer : ∀ replyTo queryReplyId,
      (answerSequence jsonObj replyTo queryReplyId).All Plain := by
    simp [answerSequence, takeSequences, hsequences, Plain, Op.kind, ExtOp.kind, AssignIntl.kind]
  refine follows_op rfl fun _ => follows_plain (all_readIntl _) (holds_ne_waits _)
    fun queryReplyId => follows_plain ?_ (holds_ne_waits _) fun _ => follows_op rfl fun _ => rfl
  cases queryReplyId with
  | none => exact trivial
  | some queryReplyId => exact (all_doIf ..).mpr fun _ => hanswer _ _

theorem balanced_processUpdateStatus (jsonObj : Json) :
    Balanced t (processUpdateStatus u jsonObj) := by
  have hstore : ∀ verdict, (storeVerdict u verdict).All Plain := by
    intro verdict
    cases verdict <;> simp [storeVerdict, Plain, Op.kind, Assign.kind]
  have haccept : Balanced t (acceptReply u jsonObj) :=
    Rests.bind (balanced_assign u _) fun _ => follows_op rfl fun _ =>
      follows_plain (hstore _) (holds_ne_waits _) fun _ => follows_op rfl fun _ =>
      follows_op rfl fun _ => rfl
  exact rests_doIf (Rests.bind (balanced_op (by simp [Plain, Op.kind])) fun _ => rests_doIf haccept)

/-! The programs around them. -/

theorem balanced_preUpdateAction : Balanced t (preUpdateAction u) := by
  have hpre : Balanced t (preInstall u) :=
    balanced_of_all (by simp [preInstall, Plain, Op.kind, ExtOp.kind])
  refine Rests.bind hpre fun state => rests_ite ?_ rfl
  exact Rests.bind (balanced_readComp u _) fun _ =>
    Rests.bind (balanced_sendInstallStatus u _ _ _) fun _ => rests_ite (balanced_awaitConsent u) rfl

theorem balanced_updateStartInstallOperations (rebootSupport : Bool) :
    Balanced t (updateStartInstallOperations u rebootSupport) := by
  have hsame : Balanced t (isInstalledAlready u) :=
    Rests.bind (balanced_readComp u _) fun _ =>
      rests_ite (balanced_updateInstalledVersionSame u _) rfl
  have hsave : Balanced t (saveRecord u) :=
    balanced_of_within (saveRecord_within u [.env, .recordSave, .saved] (by decide)) (by decide)
  have hrecorded : ∀ updateSts, Balanced t (updateRecordedInstall u updateSts rebootSupport) :=
    fun updateSts => balanced_of_within
      (updateRecordedInstall_within u recordedInstallKinds (fun _ h => h) updateSts rebootSupport)
      (by decide)
  refine Rests.bind hsame fun same => rests_ite ?_ ?_
  · exact Rests.bind (Rests.bind (balanced_sendInstallStatus u _ _ _) fun _ => rfl) fun _ =>
      Rests.bind (balanced_postUpdateAction u) fun _ => rfl
  · exact Rests.bind (balanced_preUpdateAction u) fun updateSts =>
      Rests.bind (rests_doIf hsave) fun _ => hrecorded updateSts

theorem balanced_rollbackWithPackage (rbFileInfo : PkgFile) (bck : Bool) (next : String)
    (rebootSupport : Bool) :
    Balanced t (rollbackWithPackage u rbFileInfo bck next rebootSupport) := by
  have hprepare : ∀ updateFile ue,
      Balanced t (prepareInstallAction u rbFileInfo bck updateFile ue) :=
    fun updateFile ue => balanced_of_within
      (prepareInstallAction_within u [.env] (by decide) rbFileInfo bck updateFile ue) (by decide)
  have hdelta : ∀ file, Balanced t (ext (.isPreparedDeltaPackage file)) := fun file =>
    balanced_of_all (by simp [Plain, Op.kind, ExtOp.kind])
  have hprepared : Balanced t (rollbackPreparedDelta u) :=
    Rests.bind (balanced_postUpdateAction u) fun _ => rfl
  have hready : Balanced t (rollbackReady u rebootSupport) :=
    Rests.bind (balanced_readComp u _) fun _ => Rests.bind (balanced_assign u _) fun _ =>
      balanced_updateStartInstallOperations u rebootSupport
  have hnext : ∀ updateSts, Balanced t (rollbackToNext u updateSts next) := fun updateSts =>
    balanced_of_within (rollbackToNext_within u _ (fun _ h => h) updateSts next) (by decide)
  have hinstall : ∀ state, Balanced t (rollbackInstall u state next rebootSupport) := fun state =>
    Rests.bind (rests_ite hready rfl) fun updateSts => rests_ite (hnext updateSts) rfl
  refine Rests.bind (balanced_assign u _) fun _ => Rests.bind (balanced_readComp u _) fun _ =>
    Rests.bind (balanced_readComp u _) fun _ => Rests.bind (hprepare _ _) fun prepared =>
    Rests.bind (balanced_assign u _) fun _ => Rests.bind (balanced_assign u _) fun _ =>
    Rests.bind (balanced_readComp u _) fun _ => Rests.bind (hdelta _) fun _ => ?_
  exact Rests.bind (rests_ite hprepared (hinstall prepared.state)) fun _ =>
    Rests.bind (balanced_assign u _) fun _ => rfl

theorem balanced_updateStartRollbackOperations (rbVersion : String) (rebootSupport : Bool) :
    Balanced t (updateStartRollbackOperations u rbVersion rebootSupport) := by
  have hstatus : ∀ state pkgFile ue, Balanced t (ignoring (sendInstallStatus u state pkgFile ue)) :=
    fun state pkgFile ue => Rests.bind (balanced_sendInstallStatus u state pkgFile ue) fun _ => rfl
  have hinstalled : Balanced t (rollbackToInstalled u rbVersion) := by
    refine Rests.bind (balanced_assign u _) fun _ => Rests.bind (balanced_assign u _) fun _ =>
      Rests.bind (balanced_readComp u _) fun _ => Rests.bind (hstatus _ _ _) fun _ =>
      Rests.bind (balanced_readComp u _) fun _ => Rests.bind (balanced_readComp u _) fun _ =>
      Rests.bind (balanced_assignIntl _) fun _ => ?_
    exact Rests.bind (hstatus _ _ _) fun _ => Rests.bind (balanced_postUpdateAction u) fun _ => rfl
  have hpackage : Balanced t (updateGetRollbackPackage u .zero (some rbVersion)) :=
    balanced_of_within (updateGetRollbackPackage_within u [.env] (by decide) _ _) (by decide)
  have hwithout : Balanced t (rollbackWithoutPackage u rbVersion) :=
    balanced_of_within (rollbackWithoutPackage_within u intentKinds (fun _ h => h) _) (by decide)
  have hversion : Balanced t (rollbackToVersion u rbVersion rebootSupport) :=
    Rests.bind hpackage fun _ => rests_ite (balanced_rollbackWithPackage u _ _ _ _) hwithout
  have hmanifest : Balanced t (removeUpdateManifest u) :=
    balanced_of_all (by simp [removeUpdateManifest, Plain, Op.kind, ExtOp.kind])
  have hfailed : Balanced t (rollbackFailed u) := by
    refine Rests.bind (balanced_of_all (by simp [readRbType])) fun _ =>
      rests_ite (hstatus _ _ _) ?_
    exact Rests.bind (balanced_readComp u _) fun _ => Rests.bind (balanced_readComp u _) fun _ =>
      Rests.bind (balanced_assignIntl _) fun _ => Rests.bind (balanced_assign u _) fun _ =>
      Rests.bind (balanced_readComp u _) fun _ => Rests.bind (balanced_readComp u _) fun _ =>
      hstatus _ _ _
  refine Rests.bind (balanced_assign u _) fun _ => Rests.bind (balanced_assign u _) fun _ =>
    Rests.bind (balanced_assign u _) fun _ =>
    Rests.bind (balanced_updateInstalledVersionSame u _) fun _ => ?_
  exact Rests.bind (rests_ite hinstalled hversion) fun _ =>
    Rests.bind (rests_doIf hmanifest) fun _ => Rests.bind (rests_doIf hfailed) fun _ => rfl

theorem balanced_readyUpdateInstall : Balanced t (readyUpdateInstall u) := by
  have hafter : ∀ updateSts, Balanced t (afterInstall u updateSts) := fun updateSts =>
    balanced_of_within (afterInstall_within u _ (fun _ h => h) updateSts) (by decide)
  refine Rests.bind (balanced_readIntl _) fun rebootSupport =>
    Rests.bind (balanced_readComp u _) fun rollbackVersion => ?_
  cases rollbackVersion with
  | some version => exact balanced_updateStartRollbackOperations u version rebootSupport
  | none =>
    exact Rests.bind (balanced_readComp u _) fun _ => Rests.bind (balanced_assign u _) fun _ =>
      Rests.bind (balanced_updateStartInstallOperations u rebootSupport) fun updateSts =>
      hafter updateSts

theorem balanced_readyUpdateBackup (updateSts : InstallState) :
    Balanced t (readyUpdateBackup u updateSts) := by
  have hdelta : ∀ file, Balanced t (ext (.isPreparedDeltaPackage file)) := fun file =>
    balanced_of_all (by simp [Plain, Op.kind, ExtOp.kind])
  have hinstalled : ∀ name, Balanced t (backupInstalled u name) := fun name =>
    Rests.bind (balanced_readComp u _) fun _ => Rests.bind (hdelta _) fun _ =>
    Rests.bind (balanced_readComp u _) fun _ =>
    rests_doIf (Rests.bind (balanced_handlerBackupActions u _ _) fun _ => rfl)
  refine rests_ite ?_ rfl
  exact Rests.bind (balanced_readComp u _) fun _ => Rests.bind (balanced_orCrash _) fun name =>
    Rests.bind (balanced_readIntl _) fun _ => rests_doIf (hinstalled name)

theorem balanced_processReadyUpdate (jsonObj : Json) :
    Balanced t (processReadyUpdate u jsonObj) := by
  have hrbType : Balanced t (chooseRbType u) :=
    balanced_of_all (by simp [chooseRbType, readRbType, Plain, Op.kind, AssignIntl.kind])
  have hconfirm : Balanced t (processConfirmUpdate u jsonObj) :=
    balanced_of_within (processConfirmUpdate_within u _ (fun _ h => h) jsonObj) (by decide)
  have hdeferred : Balanced t (deferredConfirm u jsonObj) :=
    Rests.bind hconfirm fun _ => balanced_assign u _
  have hrelease : Balanced t (readyUpdateRelease u) :=
    Rests.bind (balanced_assign u _) fun _ => Rests.bind (balanced_assign u _) fun _ =>
      Rests.bind (balanced_assign u _) fun _ =>
      balanced_of_within (updateReleaseCompContext_within u _ (fun _ h => h)) (by decide)
  have hready : Balanced t (readyUpdate u jsonObj) := by
    refine Rests.bind (balanced_readComp u _) fun _ => Rests.bind (balanced_assign u _) fun _ =>
      Rests.bind (balanced_readIntl _) fun _ => Rests.bind (balanced_assign u _) fun _ =>
      Rests.bind hrbType fun _ => Rests.bind (balanced_readyUpdateInstall u) fun _ =>
      Rests.bind (balanced_readyUpdateBackup u _) fun _ => ?_
    exact Rests.bind (balanced_readComp u _) fun _ => Rests.bind (balanced_assignIntl _) fun _ =>
      Rests.bind (balanced_assign u _) fun _ =>
      Rests.bind (balanced_op (by simp [Plain, Op.kind])) fun _ =>
      Rests.bind (rests_doIf hdeferred) fun _ => hrelease
  have hmark : ∀ m, Mark.kind m ∉ lockKinds → Balanced t (mark m) := fun m hm =>
    balanced_of_all (by simpa [Plain, Op.kind] using hm)
  have hfailed : Balanced t (readyUpdateFailed u) :=
    Rests.bind (balanced_readComp u _) fun _ => Rests.bind (balanced_readComp u _) fun _ =>
      Rests.bind (balanced_sendInstallStatus u _ _ _) fun _ => rfl
  have hparse : ∀ cacheDir backupDir,
      Balanced t (updateParseJsonReadyUpdate u jsonObj cacheDir backupDir) :=
    fun cacheDir backupDir => balanced_of_within
      (updateParseJsonReadyUpdate_within u parseKinds (fun _ h => h) jsonObj cacheDir backupDir)
      (by decide)
  have hparsed : ∀ err, Balanced t (readyUpdateParsed u jsonObj err) := fun err =>
    Rests.bind (balanced_readComp u _) fun _ =>
      rests_ite (Rests.bind (hmark _ (by simp [Mark.kind])) fun _ => hready) hfailed
  refine Rests.bind (balanced_readIntl _) fun _ =>
    rests_ite ?_ (hmark _ (by simp [Mark.kind]))
  exact Rests.bind (balanced_assign u _) fun _ => Rests.bind (balanced_readIntl _) fun _ =>
    Rests.bind (balanced_readIntl _) fun _ => Rests.bind (hparse _ _) fun err => hparsed err

theorem balanced_call (func : ProcessF) (jsonObj : Json) :
    Balanced t (ProcessF.call func u jsonObj) := by
  cases func with
  | queryPackage =>
    exact balanced_of_within (processQueryPackage_within u _ (fun _ h => h) jsonObj) (by decide)
  | readyDownload =>
    exact balanced_of_within (processReadyDownload_within u _ (fun _ h => h) jsonObj) (by decide)
  | readyUpdate => exact balanced_processReadyUpdate u jsonObj
  | prepareUpdate =>
    exact balanced_of_within (processPrepareUpdate_within u _ (fun _ h => h) jsonObj) (by decide)
  | confirmUpdate =>
    exact balanced_of_within (processConfirmUpdate_within u _ (fun _ h => h) jsonObj) (by decide)
  | downloadReport | sotaReport | logReport => rfl
  | sequenceInfo => exact balanced_processSequenceInfo u jsonObj
  | updateStatus => exact balanced_processUpdateStatus u jsonObj
  | queryUpdates =>
    exact balanced_of_within (processQueryUpdates_within u _ (fun _ h => h) jsonObj) (by decide)

theorem balanced_workerAction : Balanced t (workerAction u) :=
  Rests.bind (balanced_readComp u _) fun func => Rests.bind (balanced_readComp u _) fun _ =>
    Rests.bind (balanced_orCrash _) fun jsonObj =>
    Rests.bind (balanced_call u func jsonObj) fun _ => balanced_assign u _

theorem balanced_runnerPass (msg : Option Json) : Balanced t (runnerPass u msg) := by
  have hfree : Balanced t (ext (.freeMsg u)) :=
    balanced_of_all (by simp [Plain, Op.kind, ExtOp.kind])
  refine Rests.bind ?_ fun _ => hfree
  cases msg with
  | none => rfl
  | some jObj =>
    have hstart : ∀ func, Balanced t (startWorker u func jObj) := fun func =>
      balanced_of_all
        (by simp [startWorker, claimWorker, Plain, Op.kind, Assign.kind, Mark.kind])
    have houtdated : Balanced t (isOutdated u jObj) :=
      balanced_of_all (by simp [isOutdated, Plain, Op.kind, ExtOp.kind])
    have htype : ∀ type, Balanced t (dispatchType u jObj type) := by
      intro type
      refine Rests.bind (balanced_readIntl _) fun async =>
        Rests.bind (balanced_orCrash type) fun type => ?_
      split
      · exact rests_ite (hstart _) (balanced_call u _ jObj)
      · rfl
    have hmessage : ∀ ctl, Balanced t (callback u .onMessage ctl) := fun ctl =>
      balanced_of_all (by simp [Plain, Op.kind, ExtOp.kind])
    exact Rests.bind houtdated fun outdated => rests_doIf <|
      Rests.bind (balanced_readComp u _) fun uar =>
      Rests.bind (rests_ite (hmessage _) rfl) fun processed => rests_doIf (htype _)

theorem balanced_handlePresence (n : Nat) (connected : Bool) :
    Balanced t (handlePresence n connected) := by
  have hkinds : ∀ {k : Kind} {ks : List Kind}, (∀ k ∈ lockKinds, k ∉ ks) → k ∈ ks →
      k ∉ lockKinds := fun hks hk hmem => hks _ hmem hk
  refine balanced_of_all (handlePresence_all ?_ ?_ ?_ n connected)
  · intro o _ hkind
    exact hkinds (by decide) hkind
  · simp [Plain, Op.kind]
  · intro u o ho
    exact hkinds (by decide) ho.2

theorem balanced_updateResumeFromReboot : Balanced t (updateResumeFromReboot u) := by
  have hstatus : ∀ state pkgFile ue, Balanced t (ignoring (sendInstallStatus u state pkgFile ue)) :=
    fun state pkgFile ue => Rests.bind (balanced_sendInstallStatus u state pkgFile ue) fun _ => rfl
  have hbackup : ∀ name version, Balanced t (ignoring (handlerBackupActions u name version)) :=
    fun name version => Rests.bind (balanced_handlerBackupActions u name version) fun _ => rfl
  have hsucceeded : Balanced t (resumeSucceeded u) :=
    Rests.bind (balanced_readComp u _) fun _ => Rests.bind (hstatus _ _ _) fun _ =>
      Rests.bind (balanced_readComp u _) fun _ => Rests.bind (balanced_readComp u _) fun _ =>
      Rests.bind (hbackup _ _) fun _ => balanced_postUpdateAction u
  have hfailed : Balanced t (resumeFailed u) :=
    balanced_of_within (resumeFailed_within u intentKinds (fun _ h => h)) (by decide)
  have hmanifests : ∀ cacheDir backupDir, Balanced t (assignManifests u cacheDir backupDir) :=
    fun cacheDir backupDir => balanced_of_all
      (by simp [assignManifests, Plain, Op.kind, Assign.kind])
  have hremove : ∀ path, Balanced t (remove path) := fun path =>
    balanced_op (by simp [Plain, Op.kind])
  have hrelease : Balanced t (updateReleaseCompContext u) :=
    balanced_of_within (updateReleaseCompContext_within u _ (fun _ h => h)) (by decide)
  have hresume : Balanced t (resumeInstallation u) := by
    refine Rests.bind (balanced_readIntl _) fun _ => Rests.bind (balanced_readIntl _) fun _ =>
      Rests.bind (hmanifests _ _) fun _ => Rests.bind (balanced_readComp u _) fun _ =>
      Rests.bind (balanced_updateInstalledVersionSame u _) fun same =>
      Rests.bind (rests_ite hsucceeded hfailed) fun _ => ?_
    exact Rests.bind (balanced_readComp u _) fun _ => Rests.bind (balanced_assign u _) fun _ =>
      Rests.bind (balanced_readComp u _) fun _ => Rests.bind (hremove _) fun _ =>
      Rests.bind hrelease fun _ => Rests.bind (balanced_assign u _) fun _ =>
      Rests.bind (balanced_assign u _) fun _ => balanced_assignIntl _
  exact Rests.bind (balanced_assign u _) fun _ => Rests.bind hresume fun _ => balanced_assign u _

theorem balanced_updateSequenceInfo (passes : Nat) : Balanced t (updateSequenceInfo passes) := by
  have hmark : ∀ m, Mark.kind m ∉ lockKinds → Balanced t (mark m) := fun m hm =>
    balanced_of_all (by simpa [Plain, Op.kind] using hm)
  induction passes with
  | zero => rfl
  | succ passes ih =>
    refine Rests.bind (balanced_readIntl _) fun valid =>
      rests_ite (hmark _ (by simp [Mark.kind])) ?_
    exact Rests.bind (hmark _ (by simp [Mark.kind])) fun _ =>
      Rests.bind balanced_sendSequenceQuery fun _ => ih

theorem balanced_of_fork {o : Op} {b : o.Ans} {t₀ t₂ : Tid} {p : UaProg Unit}
    (h : fork t₀ o b = some (t₂, p)) : Balanced t p := by
  obtain ⟨u, n, -, -, rfl⟩ | ⟨u, -, -, rfl⟩ | ⟨n, -, -, rfl⟩ | ⟨n, passes, -, -, rfl⟩ :=
    fork_cases h
  · exact balanced_workerAction u
  · exact balanced_updateResumeFromReboot u
  · exact balanced_assignIntl _
  · exact balanced_updateSequenceInfo (passes + 1)

end EsyncUa.Locking
