import EsyncUa.Messages
import EsyncUa.Machines

/-!
The whole agent as a machine: the effect of each operation on the shared state, the
programs that threads are given, and what a restart keeps. Messages and presence events
arrive in any order and at any time, the environment gives any possible answer, and a
restart may come at any moment; it keeps the files on the disk and nothing else.
-/
namespace EsyncUa.Agents

open EsyncUa.JsonProperties EsyncUa.Components EsyncUa.Records EsyncUa.Programs
open EsyncUa.Operations EsyncUa.Installation EsyncUa.Updater EsyncUa.Messages EsyncUa.Machines

/-- What the application passes to `ua_init` and to `ua_register`. The handlers are known by
their index below `nUah`, and `route` is the lookup of a type among them. -/
structure AgentConfig where
  delta : Bool
  cacheDir : Option String
  backupDir : Option String
  rebootSupport : Bool
  packageVerificationDisabled : Bool
  backupSource : Nat
  maxRetry : Int32
  qpFailureResponse : Bool
  asyncQueryPackage : Bool
  nUah : Nat
  typeHandler : UaccPtr → String
  getRoutine : UaccPtr → UaRoutine
  route : String → List UaccPtr
  accepted : ∀ uacc, ((getRoutine uacc).onGetVersion ∧ (getRoutine uacc).onInstall) ∨
    (getRoutine uacc).onMessage

def updateRecFile : String := "update.rec"

/-- `ua_intl.record_file`, which every component gets. -/
def AgentConfig.recordFile (cfg : AgentConfig) : Option String :=
  if isSet cfg.backupDir then join cfg.backupDir [some "backup", some updateRecFile] else none

/-- `ua_intl` after `ua_init` and `ua_register`; the application may have set up the control
table, with rollback types for instance. -/
def AgentConfig.intl (cfg : AgentConfig) (ctrl : Table CompCtrl) : UaInternal where
  delta := cfg.delta
  cacheDir := if isSet cfg.cacheDir then cfg.cacheDir else none
  backupDir := if isSet cfg.backupDir then cfg.backupDir else none
  recordFile := cfg.recordFile
  state := .handlerRegistered
  rebootSupport := cfg.rebootSupport
  packageVerificationDisabled := cfg.packageVerificationDisabled
  backupSource := cfg.backupSource
  lock := none
  backupLock := none
  componentCtrl := ctrl
  queryReplyId := none
  seqInfoValid := false
  seqOut := .empty
  queryUpdates := none
  curCampaignId := none
  maxRetry := cfg.maxRetry
  dmcHandlerDone := false
  asyncQueryPackage := cfg.asyncQueryPackage
  qpFailureResponse := cfg.qpFailureResponse

/-- The shared state when the agent has started. -/
def AgentConfig.started (cfg : AgentConfig) (ctrl : Table CompCtrl)
    (records : Table RecordContent) : Shared where
  intl := cfg.intl ctrl
  comp := fun uacc =>
    .registered (cfg.typeHandler uacc) (cfg.getRoutine uacc) cfg.recordFile cfg.maxRetry
  records := records

def Assign.apply (x : Assign) (c : UaComponentContext) : UaComponentContext :=
  match x with
  | .curMsg msg => { c with curMsg := msg }
  | .workerRunning value => { c with worker := { c.worker with workerRunning := value } }
  | .workerFunc func => { c with worker := { c.worker with workerFunc := func } }
  | .workerJobj jObj => { c with worker := { c.worker with workerJobj := jObj } }
  | .replyId value => { c with updateStatusInfo := { c.updateStatusInfo with replyId := value } }
  | .successful value =>
      { c with updateStatusInfo := { c.updateStatusInfo with successful := value } }
  | .updateFileInfo pkgFile => { c with updateFileInfo := pkgFile }
  | .fileInfoFile file => { c with updateFileInfo := { c.updateFileInfo with file := file } }
  | .fileInfoVersion version =>
      { c with updateFileInfo := { c.updateFileInfo with version := version } }
  | .fileInfoDownloaded value =>
      { c with updateFileInfo := { c.updateFileInfo with downloaded := value } }
  | .fileInfoSha256 sha => { c with updateFileInfo := { c.updateFileInfo with sha256b64 := sha } }
  | .fileInfoShaOfSha sha => { c with updateFileInfo := { c.updateFileInfo with shaOfSha := sha } }
  | .fileInfoRollbackOrder value =>
      { c with updateFileInfo := { c.updateFileInfo with rollbackOrder := value } }
  | .updatePkg pkg => { c with updatePkg := pkg }
  | .pkgType type => { c with updatePkg := { c.updatePkg with type := type } }
  | .pkgName name => { c with updatePkg := { c.updatePkg with name := name } }
  | .pkgVersion version => { c with updatePkg := { c.updatePkg with version := version } }
  | .pkgRollbackVersion version =>
      { c with updatePkg := { c.updatePkg with rollbackVersion := version } }
  | .pkgRollbackVersions versions =>
      { c with updatePkg := { c.updatePkg with rollbackVersions := versions } }
  | .updateError ue => { c with updateError := ue }
  | .updateManifest path => { c with updateManifest := path }
  | .backupManifest path => { c with backupManifest := path }
  | .isRollbackInstallation value => { c with isRollbackInstallation := value }
  | .cleanupOkAfterUpdate value => { c with cleanupOkAfterUpdate := value }
  | .retryCnt value => { c with retryCnt := value }
  | .updateStage pkgName stage => { c with stInfo := compSetUpdateStage c.stInfo pkgName stage }
  | .preparedVersion pkgName preparedVer cid =>
      { c with stInfo := compSetPreparedVersion c.stInfo pkgName preparedVer cid }

def AssignIntl.apply (x : AssignIntl) (intl : UaInternal) : UaInternal :=
  match x with
  | .state st => { intl with state := st }
  | .queryReplyId value => { intl with queryReplyId := value }
  | .seqInfoValid value => { intl with seqInfoValid := value }
  | .queryUpdates value => { intl with queryUpdates := value }
  | .curCampaignId value => { intl with curCampaignId := value }
  | .dmcHandlerDone value => { intl with dmcHandlerDone := value }
  | .rbType pkgName rbType =>
      { intl with componentCtrl := compSetRbType intl.componentCtrl pkgName rbType }
  | .customMessage pkgName message =>
      { intl with componentCtrl := uaSetCustomMessage intl.componentCtrl pkgName message }

namespace Shared

def setComp (s : Shared) (uacc : UaccPtr) (c : UaComponentContext) : Shared :=
  { s with comp := Function.update s.comp uacc c }

def setUpdateStatusInfo (s : Shared) (uacc : UaccPtr) (info : AsyncUpdateStatus) : Shared :=
  setComp s uacc { s.comp uacc with updateStatusInfo := info }

def setIntl (s : Shared) (intl : UaInternal) : Shared := { s with intl := intl }

def setRecord (s : Shared) (path : String) (content : Option RecordContent) : Shared :=
  { s with records := Function.update s.records path content }

def owner (s : Shared) : Mutex → Option Tid
  | .updateStatus uacc => (s.comp uacc).updateStatusInfo.lock
  | .intl => s.intl.lock
  | .backup => s.intl.backupLock

def setOwner (s : Shared) (lock : Mutex) (t : Option Tid) : Shared :=
  match lock with
  | .updateStatus uacc =>
      setUpdateStatusInfo s uacc { (s.comp uacc).updateStatusInfo with lock := t }
  | .intl => setIntl s { s.intl with lock := t }
  | .backup => setIntl s { s.intl with backupLock := t }

end Shared

/-- A manifest entry that is found is complete and has the version asked for. -/
def ManifestReply.possible (xmlFile version : Option String) : ManifestReply → Bool
  | .found pkgFile => xmlFile.isSome && isSet version && decide (pkgFile.version = version) &&
      isSet pkgFile.file && decide (pkgFile.sha256b64.val.utf8ByteSize = sha256B64Length - 1)
  | .err => true
  | .sys => xmlFile.isSome && version.isSome

/-- The answers the environment can give: an absent callback gives none, and a file without
name is not there and has no digest. -/
def ExtOp.possible (s : Shared) : (o : ExtOp) → o.Ans → Bool
  | .callback uacc f _, _ => f.present (s.comp uacc).uar
  | .access path, b => path.isSome || !b
  | .getPkgFileManifest xmlFile version, b => ManifestReply.possible xmlFile version b
  | .isPreparedDeltaPackage archive, b => archive.isSome || !b
  | .calcSha256X archive, b => archive.isSome || b.isNone
  | _, _ => true

/-- What a wait returns: a thread that was signalled is no longer among the waiting ones. -/
def wakeup (info : AsyncUpdateStatus) (t : Tid) (b : Wakeup) : Option AsyncUpdateStatus :=
  if info.lock = none ∧ (b = .signalled ↔ t ∉ info.cond) then
    some { info with lock := some t, cond := info.cond.erase t }
  else none

/-- The shared state after thread `t` has performed an operation that was answered by `b`;
nothing if that answer is not possible, or the thread has to wait. -/
def effect (cfg : AgentConfig) (t : Tid) (s : Shared) : (o : Op) → o.Ans → Option Shared
  | .ext o, b => if ExtOp.possible s o b then some s else none
  | .assign uacc x, _ => some (Shared.setComp s uacc (Assign.apply x (s.comp uacc)))
  | .assignIntl x, _ => some (Shared.setIntl s (AssignIntl.apply x s.intl))
  | .mark _, _ => some s
  | .testCleanupOk uacc, b => if b = (s.comp uacc).cleanupOkAfterUpdate then some s else none
  | .matchReplyId uacc replyTo, b =>
      if b = replyIdMatched replyTo (s.comp uacc).updateStatusInfo.replyId then some s else none
  | .chkIncomingSeq uacc name num, b =>
      let (seqIn, outdated) := handlerChkIncomingSeqOutdated (s.comp uacc).seqIn name num
      if b = outdated then some (Shared.setComp s uacc { s.comp uacc with seqIn := seqIn })
      else none
  | .updateOutgoingSeq name updateNum, b =>
      let (seqOut, num) := handlerUpdateOutgoingSeqNum s.intl.seqOut name updateNum
      if b = num then some (Shared.setIntl s { s.intl with seqOut := seqOut }) else none
  | .setCompContext uacc updateCc, b =>
      let (err, c, ctrl) := updateSetCompContext (s.comp uacc) s.intl.componentCtrl updateCc
      if b = err then
        some (Shared.setIntl (Shared.setComp s uacc c) { s.intl with componentCtrl := ctrl })
      else none
  | .mutexLock lock, _ =>
      if Shared.owner s lock = none then some (Shared.setOwner s lock (some t)) else none
  | .mutexUnlock lock, _ =>
      if Shared.owner s lock = some t then some (Shared.setOwner s lock none) else none
  | .condSignal uacc, _ =>
      let info := (s.comp uacc).updateStatusInfo
      some (Shared.setUpdateStatusInfo s uacc { info with cond := info.cond.tail })
  | .condTimedwait uacc, _ =>
      let info := (s.comp uacc).updateStatusInfo
      if info.lock = some t then
        some (Shared.setUpdateStatusInfo s uacc
          { info with lock := none, cond := info.cond ++ [t] })
      else none
  | .condWakeup uacc, b =>
      (wakeup (s.comp uacc).updateStatusInfo t b).map (Shared.setUpdateStatusInfo s uacc)
  | .recordOpen path, b => some (if b then Shared.setRecord s path (some .torn) else s)
  | .recordWrite path uacc, b =>
      let jo := updateGetCompContextJo (s.comp uacc) s.intl.componentCtrl
      some (Shared.setRecord s path (some (if b then .whole jo else .torn)))
  | .recordLoad path, b => if b = none ∨ b = path.bind s.records then some s else none
  | .remove path, _ => some (path.elim s fun path => Shared.setRecord s path none)
  | .queryHashTree type, b => if b = (cfg.route type).head? then some s else none
  | .createWorker _, _ => some s
  | .createResume _, _ => some s
  | .createPresence, _ => some s
  | .createSequence, _ => some s

/-- The thread that a successful call of `pthread_create` starts, and its program. -/
def fork (_t : Tid) : (o : Op) → o.Ans → Option (Tid × UaProg Unit)
  | .createWorker uacc, some n => some (.worker uacc n, workerAction uacc)
  | .createResume uacc, true => some (.resume uacc, updateResumeFromReboot uacc)
  | .createPresence, some n => some (.presence n, uaHandleDmcPresence)
  | .createSequence, some (n, passes) => some (.sequence n, updateSequenceInfo (passes + 1))
  | _, _ => none

/-- What comes to an idle thread from outside: a message for a registered component or an
event of the bus. -/
inductive Arrive (cfg : AgentConfig) : Tid → UaProg Unit → Event → Prop
  | message (uacc msg) (hreg : uacc < cfg.nUah) :
      Arrive cfg (.runner uacc) (runnerPass uacc msg) (.received uacc msg)
  | presence (connected) :
      Arrive cfg .bus (handlePresence cfg.nUah connected) (.presence connected)

/-- The agent; its history grows by one event in every step that is not a mere read. -/
def agent (cfg : AgentConfig) : Machine Tid Shared World Op.Ans where
  mem := World.shared
  init := fun w => w.trace = [] ∧ ∃ ctrl, w.shared = cfg.started ctrl .empty
  act := fun t o b w w' =>
    effect cfg t w.shared o b = some w'.shared ∧ w'.trace = .did t o b :: w.trace
  fork := fork
  arrive := fun t p w w' =>
    ∃ e, Arrive cfg t p e ∧ w' = { w with trace := e :: w.trace }
  restart := fun w w' =>
    w'.trace = .rebooted :: w.trace ∧ ∃ ctrl, w'.shared = cfg.started ctrl w.shared.records

abbrev AgentConfiguration : Type := Config Tid Shared World Op.Ans

/-- A condition on the steps of a run: what holds of the state and the new event. -/
def WhenEvents (C : Tid → Event → World → Prop) (t : Tid) (w w' : World) : Prop :=
  ∀ e, w'.trace = e :: w.trace → C t e w

/-- The runs of the agent in which every event meets the condition. -/
def runsWhere (cfg : AgentConfig) (C : Tid → Event → World → Prop) :
    Machine Tid Shared World Op.Ans :=
  (agent cfg).restrict (WhenEvents C)

end EsyncUa.Agents
