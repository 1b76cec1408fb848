import EsyncUa.Programs
import EsyncUa.Records

/-!
The operations that the agent's threads perform, their answers and their effect.
An operation is one access to the shared state, one call of the library's environment
(a callback, the bus, a file, a tool) or one call of the thread library. What the
environment answers is not determined here: a step takes any answer that is possible.
The history of a run lists the operations with their answers, newest first.
-/
namespace EsyncUa.Operations

open EsyncUa.JsonProperties EsyncUa.Components EsyncUa.Records EsyncUa.Programs

/-- The callbacks of `ua_routine_t` that the modelled functions call. -/
inductive Callback
  | onGetVersion | onSetVersion | onPreInstall | onInstall | onPostInstall
  | onTransferFile | onPrepareInstall | onPrepareDownload | onMessage | onConfirmUpdate
  deriving DecidableEq

def Callback.present (uar : UaRoutine) : Callback → Bool
  | onGetVersion => uar.onGetVersion
  | onSetVersion => uar.onSetVersion
  | onPreInstall => uar.onPreInstall
  | onInstall => uar.onInstall
  | onPostInstall => uar.onPostInstall
  | onTransferFile => uar.onTransferFile
  | onPrepareInstall => uar.onPrepareInstall
  | onPrepareDownload => uar.onPrepareDownload
  | onMessage => uar.onMessage
  | onConfirmUpdate => uar.onConfirmUpdate

/-- What the library passes to a callback. -/
structure UaCallbackCtl where
  type : Option String
  pkgName : Option String
  version : Option String
  pkgPath : Option String
  isRollback : Bool
  deriving DecidableEq

structure VersionReply where
  err : Rc
  version : Option String
  updateError : UpdateErr

structure TransferReply where
  err : Rc
  newFilePath : Option String

structure PrepareReply where
  state : InstallState
  newFilePath : Option String
  updateError : UpdateErr

abbrev Callback.Ans : Callback → Type
  | onGetVersion => VersionReply
  | onSetVersion => Rc
  | onPreInstall => InstallState
  | onInstall => InstallState
  | onPostInstall => Unit
  | onTransferFile => TransferReply
  | onPrepareInstall => PrepareReply
  | onPrepareDownload => DownloadState
  | onMessage => Bool
  | onConfirmUpdate => Unit

def installStateString : InstallState → String
  | .ready => "INSTALL_READY"
  | .inProgress => "INSTALL_IN_PROGRESS"
  | .completed => "INSTALL_COMPLETED"
  | .failed => "INSTALL_FAILED"
  | .aborted => "INSTALL_ABORTED"
  | .rollback => "INSTALL_ROLLBACK"

def downloadStateString : DownloadState → String
  | .postponed => "DOWNLOAD_POSTPONED"
  | .consent => "DOWNLOAD_CONSENT"
  | .denied => "DOWNLOAD_DENIED"

/-- The one entry of `version-list` in an update status. -/
inductive VersionEntry
  | incrementalFailed (version : String)
  | downloaded (version : String) (value : Bool)

/-- The update status that `send_install_status` builds. -/
structure UpdateStatus where
  name : String
  type : String
  version : String
  status : InstallState
  rollbackVersion : Option String
  rollbackVersions : Option (List Json)
  message : Option String
  terminalFailure : Bool
  updateIncapable : Bool
  versionList : Option VersionEntry
  updateInProgress : Option Bool
  sequence : Option Int32
  replyId : Option String

def VersionEntry.json : VersionEntry → Json
  | incrementalFailed version => .object [(version, .object [("incremental-failed", .bool true)])]
  | downloaded version value => .object [(version, .object [("downloaded", .bool value)])]

/-- The update status as it goes over the bus. -/
def UpdateStatus.json (m : UpdateStatus) : Json :=
  .object <|
    [("type", .string "xl4.update-status"),
      ("body", .object <|
        optionalField "sequence" (m.sequence.map fun num => .int num.toInt64) ++
        [("package", .object <|
          [("name", .string m.name), ("type", .string m.type), ("version", .string m.version),
            ("status", .string (installStateString m.status))] ++
          optionalField "rollback-version" (m.rollbackVersion.map Json.string) ++
          optionalField "rollback-versions" (m.rollbackVersions.map Json.array) ++
          optionalField "message" (m.message.map Json.string) ++
          optionalField "terminal-failure"
            (if m.terminalFailure then some (.bool true) else none) ++
          optionalField "update-incapable"
            (if m.updateIncapable then some (.bool true) else none) ++
          optionalField "version-list" (m.versionList.map VersionEntry.json) ++
          optionalField "update-in-progress" (m.updateInProgress.map Json.bool))])] ++
    optionalField "reply-id" (m.replyId.map Json.string)

/-- A message for the bus. -/
inductive OutMsg
  | updateStatus (m : UpdateStatus)
  | json (jObject : Json)

def OutMsg.toJson : OutMsg → Json
  | updateStatus m => m.json
  | json jObject => jObject

/-- The answer of `get_pkg_file_manifest`: an entry, or which error it returns. -/
inductive ManifestReply
  | found (pkgFile : PkgFile)
  | err
  | sys

/-- The calls that leave the shared state of the agent as it is. `removeOldBackup` also says
for which package of which component the call is made. -/
inductive ExtOp
  | callback (uacc : UaccPtr) (f : Callback) (ctl : UaCallbackCtl)
  | uaSendMessage (m : OutMsg)
  | randstring
  | access (path : Option String)
  | rmdirp (path : Option String)
  | unlink (path : Option String)
  | getPkgFileManifest (xmlFile version : Option String)
  | addPkgFileManifest (xmlFile : Option String) (pkgFile : PkgFile)
  | parsePkgManifest (xmlFile : Option String)
  | removeOldBackup (uacc : UaccPtr) (pkgName : Option String) (manifest version : Option String)
  | isDeltaPackage (pkgFile : Option String)
  | isPreparedDeltaPackage (archive : Option String)
  | deltaReconstruct (oldPkg diffPkg newPkg : Option String)
  | calcSha256X (archive : Option String)
  | calculateSha256B64 (file : Option String)
  | verifyFileHashB64 (file : Option String) (sha256B64 : Sha256B64)
  | sha256xcmp (archive : Option String) (sha256B64 : Sha256B64)
  | makeFileHardLink (src dst : Option String)
  | copyFile (src dst : Option String)
  | getDeltaCapability
  | deltaUseExternalAlgo
  | freeMsg (uacc : UaccPtr)
  | crash

abbrev ExtOp.Ans : ExtOp → Type
  | callback _ f _ => f.Ans
  | uaSendMessage _ => Rc
  | randstring => Option String
  | access _ => Bool
  | rmdirp _ => Unit
  | unlink _ => Unit
  | getPkgFileManifest _ _ => ManifestReply
  | addPkgFileManifest _ _ => Rc
  | parsePkgManifest _ => Option (List PkgFile)
  | removeOldBackup _ _ _ _ => Rc
  | isDeltaPackage _ => Bool
  | isPreparedDeltaPackage _ => Bool
  | deltaReconstruct _ _ _ => Rc
  | calcSha256X _ => Option Sha256B64
  | calculateSha256B64 _ => Option Sha256B64
  | verifyFileHashB64 _ _ => Rc
  | sha256xcmp _ _ => Rc
  | makeFileHardLink _ _ => Rc
  | copyFile _ _ => Rc
  | getDeltaCapability => Option String
  | deltaUseExternalAlgo => Bool
  | freeMsg _ => Unit
  | crash => Empty

/-- The assignments to a component context. -/
inductive Assign
  | curMsg (msg : Option Json)
  | workerRunning (value : Bool)
  | workerFunc (func : ProcessF)
  | workerJobj (jObj : Option Json)
  | replyId (value : Option String)
  | successful (value : Bool)
  | updateFileInfo (pkgFile : PkgFile)
  | fileInfoFile (file : Option String)
  | fileInfoVersion (version : Option String)
  | fileInfoDownloaded (value : Int32)
  | fileInfoSha256 (sha : Sha256B64)
  | fileInfoShaOfSha (sha : Sha256B64)
  | fileInfoRollbackOrder (value : Int32)
  | updatePkg (pkg : PkgInfo)
  | pkgType (type : Option String)
  | pkgName (name : Option String)
  | pkgVersion (version : Option String)
  | pkgRollbackVersion (version : Option String)
  | pkgRollbackVersions (versions : Option (List Json))
  | updateError (ue : UpdateErr)
  | updateManifest (path : Option String)
  | backupManifest (path : Option String)
  | isRollbackInstallation (value : Bool)
  | cleanupOkAfterUpdate (value : Bool)
  | retryCnt (value : Int32)
  | updateStage (pkgName : Option String) (stage : UaStage)
  | preparedVersion (pkgName preparedVer cid : Option String)

/-- The assignments to `ua_intl`. -/
inductive AssignIntl
  | state (st : UaInternalState)
  | queryReplyId (value : Option String)
  | seqInfoValid (value : Bool)
  | queryUpdates (value : Option Json)
  | curCampaignId (value : Option String)
  | dmcHandlerDone (value : Bool)
  | rbType (pkgName : Option String) (rbType : UpdateRollback)
  | customMessage (pkgName message : Option String)

inductive Mutex
  | updateStatus (uacc : UaccPtr)
  | intl
  | backup

/-- Calls and returns that the history records, for functions whose calls matter in a run. -/
inductive Mark
  | readyUpdateParsed (uacc : UaccPtr) (pkgName : Option String) (jsonObj : Json)
  | readyUpdateDropped (uacc : UaccPtr) (jsonObj : Json)
  | workerBusy (uacc : UaccPtr) (jObj : Json)
  | prepareUpdateParsed (uacc : UaccPtr) (pkgName version : Option String)
  | prepareInstallReturned (uacc : UaccPtr) (pkgName version : Option String)
      (state : InstallState)
  | markedPrepared (uacc : UaccPtr) (pkgName version : Option String)
  | recordSaved (uacc : UaccPtr)
  | sequencePass
  | sequenceInfoValid

inductive Op
  | ext (o : ExtOp)
  | assign (uacc : UaccPtr) (x : Assign)
  | assignIntl (x : AssignIntl)
  | mark (m : Mark)
  | testCleanupOk (uacc : UaccPtr)
  | matchReplyId (uacc : UaccPtr) (replyTo : Option String)
  | chkIncomingSeq (uacc : UaccPtr) (name : String) (num : Int32)
  | updateOutgoingSeq (name : String) (updateNum : Int32)
  | setCompContext (uacc : UaccPtr) (updateCc : Json)
  | mutexLock (lock : Mutex)
  | mutexUnlock (lock : Mutex)
  | condSignal (uacc : UaccPtr)
  | condTimedwait (uacc : UaccPtr)
  | condWakeup (uacc : UaccPtr)
  | recordOpen (path : String)
  | recordWrite (path : String) (uacc : UaccPtr)
  | recordLoad (path : Option String)
  | remove (path : Option String)
  | queryHashTree (type : String)
  | createWorker (uacc : UaccPtr)
  | createResume (uacc : UaccPtr)
  | createPresence
  | createSequence

/-- What is in a record file: a whole record, or the beginning of one. -/
inductive RecordContent
  | whole (joRec : Json)
  | torn
  deriving DecidableEq

/-- Whether the wait was ended by the clock. -/
inductive Wakeup
  | signalled | spurious | timedOut
  deriving DecidableEq

abbrev Op.Ans : Op → Type
  | ext o => o.Ans
  | assign _ _ => Unit
  | assignIntl _ => Unit
  | mark _ => Unit
  | testCleanupOk _ => Bool
  | matchReplyId _ _ => Bool
  | chkIncomingSeq _ _ _ => Bool
  | updateOutgoingSeq _ _ => Int32
  | setCompContext _ _ => Rc
  | mutexLock _ => Unit
  | mutexUnlock _ => Unit
  | condSignal _ => Unit
  | condTimedwait _ => Unit
  | condWakeup _ => Wakeup
  | recordOpen _ => Bool
  | recordWrite _ _ => Bool
  | recordLoad _ => Option RecordContent
  | remove _ => Unit
  | queryHashTree _ => Option UaccPtr
  | createWorker _ => Option Nat
  | createResume _ => Bool
  | createPresence => Option Nat
  | createSequence => Option (Nat × Nat)

/-- Everything the threads share: `ua_intl`, the component contexts, and the record files on
the disk, which only the record operations read. -/
structure Shared where
  intl : UaInternal
  comp : UaccPtr → UaComponentContext
  records : Table RecordContent

inductive Event
  | did (t : Tid) (o : Op) (b : o.Ans)
  | received (uacc : UaccPtr) (msg : Option Json)
  | presence (connected : Bool)
  | rebooted

structure World where
  shared : Shared
  trace : List Event

end EsyncUa.Operations
