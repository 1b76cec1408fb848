import EsyncUa.Updater

/-!
The message handlers of `handler.c`, the worker that runs the long ones, and the entry
points that the bus client calls. A message is a parsed JSON value, or nothing if its text
is not JSON. `process_run` gives ready-update and prepare-update to a worker thread and
calls the other handlers on the thread of the message runner.
-/
namespace EsyncUa.Messages

open EsyncUa.JsonProperties EsyncUa.Components EsyncUa.Records EsyncUa.Programs
open EsyncUa.Operations EsyncUa.Installation EsyncUa.Updater

def bmtQueryPackage : String := "xl4.query-package"
def bmtReadyDownload : String := "xl4.ready-download"
def bmtReadyUpdate : String := "xl4.ready-update"
def bmtPrepareUpdate : String := "xl4.prepare-update"
def bmtConfirmUpdate : String := "xl4.confirm-update"
def bmtDownloadReport : String := "xl4.download-report"
def bmtSotaReport : String := "xl4.sota-report"
def bmtLogReport : String := "xl4.log-report"
def bmtUpdateStatus : String := "xl4.update-status"
def bmtQuerySequence : String := "xl4.sequence-info"
def bmtQueryUpdates : String := "xl4.query-updates"

def sendJson (fields : List (String × Json)) : UaProg Rc :=
  ext (.uaSendMessage (.json (.object fields)))

/-- `S(s) ? json_object_new_string(s) : NULL`. -/
def stringOrNull (s : Option String) : Json :=
  match s with
  | some s => if s = "" then .null else .string s
  | none => .null

/-- The `version-list` entry of the installed version in the backup manifest. -/
def backupVersionList (delta : Bool) (installedVer : Option String) (pkgFiles : List PkgFile) :
    Option Json :=
  let found := pkgFiles.filter fun pf => isSet installedVer && decide (pf.version = installedVer)
  found.getLast?.map fun pf =>
    .object [(nullStr installedVer, .object <|
      [("file", .string (formatted pf.file)), ("downloaded", .bool (pf.downloaded ≠ 0)),
        ("rollback-order", .int pf.rollbackOrder.toInt64)] ++
      optionalField "sha-256" (if delta then some (.string pf.shaOfSha.val) else none))]

/-- The `version-list` entry that stands for a backup when rollback is simulated. -/
def fakeVersionList (ctl : CompCtrl) (installedVer : Option String) : Json :=
  .object [(nullStr installedVer, .object <|
    [("downloaded", .bool (ctl.rbDownloadRequired = 0)), ("rollback-order", .int 0)] ++
    optionalField "sha-256"
      (if ctl.rbDownloadRequired ≠ 0 then none else some (.string (nullStr installedVer))))]

/-- The `version-list` that comes from the backup manifest. -/
def versionListFromBackup (intl : UaInternal) (pkgName : String) (installedVer : Option String)
    (fakeRbVer : Bool) : UaProg (Option Json) := do
  let backupManifest :=
    if isSet intl.backupDir then
      join intl.backupDir [some "backup", some pkgName, some manifestPkg]
    else none
  if fakeRbVer ∨ backupManifest.isNone then pure none
  else
    let pkgFiles ← ext (.parsePkgManifest backupManifest)
    pure (pkgFiles.bind (backupVersionList intl.delta installedVer))

/-- `version-list` of the answer to a query, if there is one. -/
def queryVersionList (pkgName : String) (installedVer : Option String) :
    UaProg (Option Json) := do
  let intl ← readIntl id
  let external ← ext .deltaUseExternalAlgo
  let fakeRbVer := external || uaRollbackDisabled intl.componentCtrl (some pkgName) ≠ 0
  let fromBackup ← versionListFromBackup intl pkgName installedVer fakeRbVer
  match fromBackup, intl.componentCtrl pkgName with
  | some list, _ => pure (some list)
  | none, some ctl =>
      pure (if ctl.enableFakeRbVersion ≠ 0 then some (fakeVersionList ctl installedVer) else none)
  | none, none => pure none

/-- `delta-cap` of the answer to a query. -/
def queryDeltaCap (delta : Bool) : UaProg (Option Json) := do
  if delta then
    let cap ← ext .getDeltaCapability
    pure (some (stringOrNull cap))
  else pure none

/-- The result of `on_get_version` and the body of the answer to a query. -/
def queryPackageBody (uacc : UaccPtr) (pkgType pkgName : Option String) :
    UaProg (Rc × List (String × Json)) := do
  let reply ← callback uacc .onGetVersion ⟨pkgType, pkgName, none, none, false⟩
  let installedVer := if reply.err = eUaOk then reply.version else none
  let type ← orCrash pkgType
  let name ← orCrash pkgName
  let intl ← readIntl id
  let deltaCap ← queryDeltaCap intl.delta
  let customMsg := getComponentCustomMessage intl.componentCtrl (some name)
  let versionList ←
    (if reply.err = eUaOk then queryVersionList name installedVer else pure none)
  let failure := reply.err = eUaErr ∧ intl.qpFailureResponse
  let pkgObject :=
    [("type", .string type), ("name", .string name), ("version", stringOrNull installedVer)] ++
    optionalField "delta-cap" deltaCap ++
    optionalField "message" (if intl.qpFailureResponse then none else customMsg.map Json.string) ++
    optionalField "update-incapable"
      (if reply.err = eUaErr ∧ ¬intl.qpFailureResponse then some (.bool true) else none) ++
    optionalField "version-list" versionList
  pure (reply.err,
    optionalField "failure"
      (if failure then some (.string (customMsg.getD "Unknown Faiure")) else none) ++
    optionalField "package" (if failure then none else some (.object pkgObject)))

/-- The answer to a query while an installation is going on. -/
def doNotDisturbBody (pkgName : Option String) : UaProg (Rc × List (String × Json)) := do
  let customMsg ← readIntl fun intl => getComponentCustomMessage intl.componentCtrl pkgName
  pure (eUaOk, [("do-not-disturb", .bool true)] ++
    optionalField "message" (customMsg.map Json.string))

/-- The answer to a query of a package. -/
def answerQuery (uacc : UaccPtr) (pkgType pkgName replyId : Option String) : UaProg Unit := do
  let stage ← readComp uacc fun c => compGetUpdateStage c.stInfo pkgName
  let (uae, body) ←
    (if stage = .readyUpdateStarted then doNotDisturbBody pkgName
      else queryPackageBody uacc pkgType pkgName)
  let replyTo ← orCrash replyId
  doIf (uae ≠ eUaSys) (ignoring (sendJson [("type", .string bmtQueryPackage),
    ("reply-to", .string replyTo), ("body", .object body)]))

def processQueryPackage (uacc : UaccPtr) (jsonObj : Json) : UaProg Unit := do
  let uar ← readComp uacc (·.uar)
  let type := getPkgTypeFromJson jsonObj none
  let name := getPkgNameFromJson jsonObj none
  let replyId := getReplyidFromJson jsonObj
  doIf (uar.onGetVersion ∧ type.1 = eUaOk ∧ name.1 = eUaOk ∧ replyId.1 = eUaOk)
    (answerQuery uacc type.2 name.2 replyId.2)

/-- `send_download_status`. -/
def sendDownloadStatus (pkgInfo : PkgInfo) (state : DownloadState) : UaProg Unit := do
  let name ← orCrash pkgInfo.name
  let type ← orCrash pkgInfo.type
  let version ← orCrash pkgInfo.version
  let sequence ← statusSequence name
  ignoring (sendJson [("type", .string bmtUpdateStatus), ("body", .object <|
    optionalField "sequence" (sequence.map fun num => .int num.toInt64) ++
    [("package", .object [("name", .string name), ("type", .string type),
      ("version", .string version), ("status", .string (downloadStateString state))])])])

/-- `prepare_download_action`, whose result no caller uses. -/
def prepareDownloadAction (uacc : UaccPtr) (updatePkg : PkgInfo) : UaProg Unit := do
  let uar ← readComp uacc (·.uar)
  if uar.onPrepareDownload then
    let state ← callback uacc .onPrepareDownload (uactl updatePkg updatePkg.version none false)
    sendDownloadStatus updatePkg state

def processReadyDownload (uacc : UaccPtr) (jsonObj : Json) : UaProg Unit := do
  let type := getPkgTypeFromJson jsonObj none
  let name := getPkgNameFromJson jsonObj none
  let version := getPkgVersionFromJson jsonObj none
  doIf (type.1 = eUaOk ∧ name.1 = eUaOk ∧ version.1 = eUaOk)
    (prepareDownloadAction uacc ⟨type.2, name.2, version.2, none, none⟩)

/-- A query with a fresh reply id, unless another one is waiting for its answer. -/
def sendQuery (fields : List (String × Json)) : UaProg Unit := do
  let waiting ← readIntl (·.queryReplyId)
  if waiting.isNone then
    let replyId ← ext .randstring
    assignIntl (.queryReplyId replyId)
    match replyId with
    | some replyId => ignoring (sendJson (fields ++ [("reply-id", .string replyId)]))
    | none => pure ()

/-- `send_query_updates`. -/
def sendQueryUpdates : UaProg Unit := sendQuery [("type", .string bmtQueryUpdates)]

/-- `send_sequence_query`. -/
def sendSequenceQuery : UaProg Unit := do
  op (.mutexLock .intl)
  sendQuery [("type", .string bmtQuerySequence),
    ("body", .object [("domain", .string "change-notifications")])]
  op (.mutexUnlock .intl)

/-- The name of a prepare-update and then its version, stored while they are there. -/
def parsePrepareName (uacc : UaccPtr) (jsonObj : Json) : UaProg Bool := do
  let name := getPkgNameFromJson jsonObj none
  assign uacc (.pkgName name.2)
  if name.1 = eUaOk then
    let version := getPkgVersionFromJson jsonObj none
    assign uacc (.pkgVersion version.2)
    pure (decide (version.1 = eUaOk))
  else pure false

/-- Type, name and version of a prepare-update; whether all are there. -/
def parsePrepareUpdate (uacc : UaccPtr) (jsonObj : Json) : UaProg Bool := do
  assign uacc (.updatePkg .zero)
  let type := getPkgTypeFromJson jsonObj none
  assign uacc (.pkgType type.2)
  if type.1 = eUaOk then parsePrepareName uacc jsonObj else pure false

/-- Whether the version asked for has been prepared already under the current campaign. -/
def isMarkedPrepared (uacc : UaccPtr) (st : UaStage) : UaProg Bool := do
  if st = .prepareUpdateDone then
    let name ← readComp uacc (·.updatePkg.name)
    let cid ← readIntl (·.curCampaignId)
    let stInfo ← readComp uacc (·.stInfo)
    let version ← readComp uacc (·.updatePkg.version)
    match ← orCrash (compGetPreparedVersion stInfo name cid) with
    | some preparedVer => do
        let version ← orCrash version
        pure (decide (preparedVer = version))
    | none => pure false
  else pure false

/-- The file to prepare: from the message, or with the flag from the backup manifest. -/
def prepareSource (uacc : UaccPtr) (jsonObj : Json) (version : Option String) :
    UaProg (Option (PkgFile × Bool)) := do
  let file := getPkgFileFromJson jsonObj version none
  let pkgFile := { PkgFile.zero with version := version, file := file.2 }
  let downloaded := getPkgDownloadedFromJson jsonObj version
  if file.1 = eUaOk ∧ downloaded.1 = eUaOk then
    pure (some ({ pkgFile with downloaded := (downloaded.2.map intOfBool).getD 0 }, false))
  else
    let backupManifest ← readComp uacc (·.backupManifest)
    match ← ext (.getPkgFileManifest backupManifest version) with
    | .found pkgFile => pure (some (pkgFile, true))
    | _ => pure none

/-- The preparation of a package whose file is known, and its report. -/
def prepareAndReport (uacc : UaccPtr) (jsonObj : Json) (pkgFile : PkgFile) (bck : Bool) :
    UaProg InstallState := do
  let (_, sha) ← orCrash (getPkgSha256FromJson jsonObj pkgFile.version pkgFile.sha256b64.val)
  let (_, deltaSha) ←
    orCrash (getPkgDeltaSha256FromJson jsonObj pkgFile.version pkgFile.deltaSha256b64.val)
  let pkgFile := { pkgFile with sha256b64 := .copy sha, deltaSha256b64 := .copy deltaSha }
  let cacheDir ← readIntl (·.cacheDir)
  let name ← readComp uacc (·.updatePkg.name)
  assign uacc (.updateManifest (join cacheDir [name, some manifestPkg]))
  let prepared ← prepareInstallAction uacc pkgFile bck .zero .none
  mark (.prepareInstallReturned uacc name pkgFile.version prepared.state)
  doIf (prepared.state = .ready) sendQueryUpdates
  ignoring (sendInstallStatus uacc prepared.state (some prepared.pkgFile) prepared.ue)
  assign uacc (.updateManifest none)
  pure prepared.state

/-- The report when there is no file to prepare. -/
def prepareWithoutFile (uacc : UaccPtr) : UaProg InstallState := do
  ignoring (sendInstallStatus uacc .failed none .none)
  pure .failed

/-- The preparation, from the message or from the backup. -/
def prepareFromSource (uacc : UaccPtr) (jsonObj : Json) (version : Option String) :
    UaProg InstallState := do
  match ← prepareSource uacc jsonObj version with
  | some (pkgFile, bck) => prepareAndReport uacc jsonObj pkgFile bck
  | none => prepareWithoutFile uacc

/-- The package has been prepared. -/
def prepareDone (uacc : UaccPtr) : UaProg Unit := do
  assign uacc (.retryCnt 0)
  let name ← readComp uacc (·.updatePkg.name)
  let version ← readComp uacc (·.updatePkg.version)
  let cid ← readIntl (·.curCampaignId)
  assign uacc (.preparedVersion name version cid)
  assign uacc (.updateStage name .prepareUpdateDone)

/-- The package could not be prepared; it is again in the stage `st`. -/
def prepareUndone (uacc : UaccPtr) (st : UaStage) : UaProg Unit := do
  let name ← readComp uacc (·.updatePkg.name)
  assign uacc (.updateStage name st)

/-- The preparation of a package that was in stage `st`. -/
def prepareUpdate (uacc : UaccPtr) (jsonObj : Json) (st : UaStage) : UaProg Unit := do
  let name ← readComp uacc (·.updatePkg.name)
  assign uacc (.updateStage name .prepareUpdateStarted)
  let rollbackVersion := getPkgRollbackVersionFromJson jsonObj none
  assign uacc (.pkgRollbackVersion rollbackVersion.2)
  doIf rollbackVersion.2.isSome
    (assign uacc (.pkgRollbackVersions (getPkgRollbackVersionsFromJson jsonObj none).2))
  let backupDir ← readIntl (·.backupDir)
  assign uacc (.backupManifest (join backupDir [some "backup", name, some manifestPkg]))
  let pkgInfo ← readComp uacc (·.updatePkg)
  let state ← prepareFromSource uacc jsonObj (versionToUpdate pkgInfo)
  (if state = .ready then prepareDone uacc else prepareUndone uacc st)
  assign uacc (.backupManifest none)
  assign uacc (.updatePkg .zero)

/-- The report of a package that is prepared already. -/
def prepareFastPath (uacc : UaccPtr) : UaProg Unit := do
  let name ← readComp uacc (·.updatePkg.name)
  let version ← readComp uacc (·.updatePkg.version)
  mark (.markedPrepared uacc name version)
  ignoring (sendInstallStatus uacc .ready none .none)

/-- A prepare-update whose package is in the stage `st`. -/
def prepareInStage (uacc : UaccPtr) (jsonObj : Json) (st : UaStage) : UaProg Unit := do
  let campaignId := getCampaignIdFromJson jsonObj
  doIf campaignId.isSome (assignIntl (.curCampaignId campaignId))
  let name ← readComp uacc (·.updatePkg.name)
  let version ← readComp uacc (·.updatePkg.version)
  mark (.prepareUpdateParsed uacc name version)
  let prepared ← isMarkedPrepared uacc st
  if prepared then prepareFastPath uacc else prepareUpdate uacc jsonObj st

/-- A prepare-update whose type, name and version are there. -/
def prepareParsed (uacc : UaccPtr) (jsonObj : Json) : UaProg Unit := do
  let st ← readComp uacc fun c => compGetUpdateStage c.stInfo c.updatePkg.name
  doIf (st ≠ .prepareUpdateStarted) (prepareInStage uacc jsonObj st)

def processPrepareUpdate (uacc : UaccPtr) (jsonObj : Json) : UaProg Unit := do
  let parsed ← parsePrepareUpdate uacc jsonObj
  doIf parsed (prepareParsed uacc jsonObj)

/-- What `process_confirm_update` reads from its message. -/
structure ConfirmInfo where
  type : Rc × Option String
  name : Rc × Option String
  version : Rc × Option String
  rollback : Rc × Option Bool
  rollbackVersion : Rc × Option String

def ConfirmInfo.ofJson (jsonObj : Json) : ConfirmInfo where
  type := getPkgTypeFromJson jsonObj none
  name := getPkgNameFromJson jsonObj none
  version := getPkgVersionFromJson jsonObj none
  rollback := getBodyRollbackFromJson jsonObj
  rollbackVersion := getPkgRollbackVersionFromJson jsonObj none

def ConfirmInfo.ok (info : ConfirmInfo) : Prop :=
  info.type.1 = eUaOk ∧ info.name.1 = eUaOk ∧ info.version.1 = eUaOk

instance (info : ConfirmInfo) : Decidable info.ok := by unfold ConfirmInfo.ok; infer_instance

/-- The version whose backup is kept. -/
def ConfirmInfo.keptVersion (info : ConfirmInfo) : Option String :=
  if info.rollback.1 = eUaOk ∧ info.rollback.2 = some true ∧ info.rollbackVersion.1 = eUaOk then
    info.rollbackVersion.2
  else info.version.2

/-- The cleanup of the backups of a package whose update manifest is there. -/
def cleanupBackups (uacc : UaccPtr) (info : ConfirmInfo) (updateManifest backupManifest : String) :
    UaProg Unit := do
  let rbType ← readRbType uacc
  let pkgName ← readComp uacc (·.updatePkg.name)
  doIf (rbType ≠ .none) (assignIntl (.rbType pkgName .none))
  ignoring (ext (.removeOldBackup uacc info.name.2 (some backupManifest) info.keptVersion))
  remove (some updateManifest)
  let uar ← readComp uacc (·.uar)
  doIf uar.onConfirmUpdate
    (callback uacc .onConfirmUpdate ⟨info.type.2, info.name.2, info.version.2, none, false⟩)

def confirmCleanup (uacc : UaccPtr) (info : ConfirmInfo) (cacheDir backupDir : Option String) :
    UaProg Unit :=
  match join cacheDir [info.name.2, some manifestPkg],
      join backupDir [some "backup", info.name.2, some manifestPkg] with
  | some updateManifest, some backupManifest => do
      let found ← access (some updateManifest)
      doIf found (cleanupBackups uacc info updateManifest backupManifest)
  | _, _ => pure ()

/-- Characters that `snprintf` writes into a path buffer of `PATH_MAX - 1` bytes. -/
def pathText (text : String) : String := prefixWithin text.toList 4094

/-- The removal of a directory or file that may be there. -/
def removeIfFound (path : Option String) (p : UaProg Unit) : UaProg Unit := do
  let found ← access path
  doIf found p

/-- The directory and the archive of a delta in the cache. -/
def confirmDeltaCleanup (info : ConfirmInfo) (cacheDir : Option String) : UaProg Unit := do
  let stem := formatted info.name.2 ++ "-" ++ formatted info.version.2
  let deltaDir := join cacheDir [some "delta", some (pathText stem)]
  doIf deltaDir.isSome (removeIfFound deltaDir (ext (.rmdirp deltaDir)))
  let tempDeltaDir := join cacheDir [some "delta", some (pathText (stem ++ ".x"))]
  removeIfFound tempDeltaDir (remove tempDeltaDir)

/-- A confirm-update for a package in a stage that lets it be handled. -/
def confirmUpdate (uacc : UaccPtr) (info : ConfirmInfo) : UaProg Unit := do
  assign uacc (.updateStage info.name.2 .confirmUpdateStarted)
  let cacheDir ← readIntl (·.cacheDir)
  let backupDir ← readIntl (·.backupDir)
  confirmCleanup uacc info cacheDir backupDir
  confirmDeltaCleanup info cacheDir
  assign uacc (.retryCnt 0)
  assign uacc (.updateStage info.name.2 .confirmUpdateDone)

/-- A confirm-update for a package in the stage `st`. -/
def confirmInStage (uacc : UaccPtr) (info : ConfirmInfo) (st : UaStage) : UaProg Unit :=
  if st = .readyUpdateDone ∨ st = .unknown then confirmUpdate uacc info
  else doIf (st = .readyUpdateStarted) (assign uacc (.cleanupOkAfterUpdate true))

def processConfirmUpdate (uacc : UaccPtr) (jsonObj : Json) : UaProg Unit := do
  let info := ConfirmInfo.ofJson jsonObj
  let st ← readComp uacc fun c => compGetUpdateStage c.stInfo info.name.2
  doIf info.ok (confirmInStage uacc info st)

/-- The terminal failure of a package without another version to go back to. -/
def installTerminalFailure (uacc : UaccPtr) : UaProg InstallState := do
  assign uacc (.updateError .terminalFailure)
  let fileInfo ← readComp uacc (·.updateFileInfo)
  let updateError ← readComp uacc (·.updateError)
  ignoring (sendInstallStatus uacc .failed (some fileInfo) updateError)
  pure .failed

/-- The rollback of a first installation that has failed, or its terminal failure. -/
def installRollback (uacc : UaccPtr) : UaProg InstallState := do
  let version ← readComp uacc (·.updateFileInfo.version)
  match ← updateGetNextRollbackVersion uacc version with
  | some rbVersion => do
      ignoring (updateSendRollbackIntent uacc (some rbVersion))
      pure .rollback
  | none => installTerminalFailure uacc

/-- The plain failure of an installation that may be tried again. -/
def installRetry (uacc : UaccPtr) : UaProg InstallState := do
  ignoring (sendInstallStatus uacc .failed none .none)
  pure .failed

/-- The report of a first installation that failed. -/
def installFailed (uacc : UaccPtr) : UaProg InstallState := do
  let retryCnt ← readComp uacc (·.retryCnt)
  let maxRetry ← readComp uacc (·.maxRetry)
  let versions ← readComp uacc (·.updatePkg.rollbackVersions)
  if retryCnt ≤ maxRetry then installRetry uacc
  else if versions.isSome then installRollback uacc
  else pure .failed

/-- What follows a first installation. -/
def afterInstall (uacc : UaccPtr) (updateSts : InstallState) : UaProg InstallState := do
  let updateSts ← (if updateSts = .failed then installFailed uacc else pure updateSts)
  doIf (updateSts = .rollback) (removeUpdateManifest uacc)
  pure updateSts

/-- The first installation of a ready-update. -/
def firstInstall (uacc : UaccPtr) (rebootSupport : Bool) : UaProg InstallState := do
  let retryCnt ← readComp uacc (·.retryCnt)
  assign uacc (.retryCnt (retryCnt + 1))
  let updateSts ← updateStartInstallOperations uacc rebootSupport
  afterInstall uacc updateSts

/-- The installation that a ready-update asks for. -/
def readyUpdateInstall (uacc : UaccPtr) : UaProg InstallState := do
  let rebootSupport ← readIntl (·.rebootSupport)
  match ← readComp uacc (·.updatePkg.rollbackVersion) with
  | some rollbackVersion => updateStartRollbackOperations uacc rollbackVersion rebootSupport
  | none => firstInstall uacc rebootSupport

/-- The backup of an installed package, unless it was a prepared delta. -/
def backupInstalled (uacc : UaccPtr) (name : String) : UaProg Unit := do
  let file ← readComp uacc (·.updateFileInfo.file)
  let isPreparedDelta ← ext (.isPreparedDeltaPackage file)
  let version ← readComp uacc (·.updateFileInfo.version)
  doIf (¬isPreparedDelta) (ignoring (handlerBackupActions uacc (some name) version))

/-- The backup of a completed installation. -/
def readyUpdateBackup (uacc : UaccPtr) (updateSts : InstallState) : UaProg Unit := do
  if updateSts = .completed then
    let name ← readComp uacc (·.updatePkg.name)
    let name ← orCrash name
    let disabled ← readIntl fun intl => uaRollbackDisabled intl.componentCtrl (some name)
    doIf (disabled = 0) (backupInstalled uacc name)

/-- A package that comes with rollback versions has a rollback type. -/
def chooseRbType (uacc : UaccPtr) : UaProg Unit := do
  let pkgInfo ← readComp uacc (·.updatePkg)
  let rbType ← readRbType uacc
  doIf (pkgInfo.rollbackVersions.isSome ∧ rbType = .none)
    (assignIntl (.rbType pkgInfo.name .dmcInitiatedWithUaIntent))

/-- A confirm-update that came during the installation is made up for. -/
def deferredConfirm (uacc : UaccPtr) (jsonObj : Json) : UaProg Unit := do
  processConfirmUpdate uacc jsonObj
  assign uacc (.cleanupOkAfterUpdate false)

/-- What is left of a ready-update is cleared. -/
def readyUpdateRelease (uacc : UaccPtr) : UaProg Unit := do
  assign uacc (.curMsg none)
  assign uacc (.backupManifest none)
  assign uacc (.updateManifest none)
  updateReleaseCompContext uacc

/-- A ready-update that has been parsed. -/
def readyUpdate (uacc : UaccPtr) (jsonObj : Json) : UaProg Unit := do
  let name ← readComp uacc (·.updatePkg.name)
  assign uacc (.updateStage name .readyUpdateStarted)
  let cid ← readIntl (·.curCampaignId)
  assign uacc (.preparedVersion name none cid)
  chooseRbType uacc
  let updateSts ← readyUpdateInstall uacc
  readyUpdateBackup uacc updateSts
  let name ← readComp uacc (·.updatePkg.name)
  assignIntl (.customMessage name none)
  assign uacc (.updateStage name .readyUpdateDone)
  let cleanupOk ← op (.testCleanupOk uacc)
  doIf cleanupOk (deferredConfirm uacc jsonObj)
  readyUpdateRelease uacc

/-- The report of a ready-update that could not be parsed. -/
def readyUpdateFailed (uacc : UaccPtr) : UaProg Unit := do
  let fileInfo ← readComp uacc (·.updateFileInfo)
  let updateError ← readComp uacc (·.updateError)
  ignoring (sendInstallStatus uacc .failed (some fileInfo) updateError)

/-- A ready-update after its message has been parsed with the result `err`. -/
def readyUpdateParsed (uacc : UaccPtr) (jsonObj : Json) (err : Rc) : UaProg Unit := do
  let name ← readComp uacc (·.updatePkg.name)
  if err = eUaOk then
    mark (.readyUpdateParsed uacc name jsonObj)
    readyUpdate uacc jsonObj
  else readyUpdateFailed uacc

def processReadyUpdate (uacc : UaccPtr) (jsonObj : Json) : UaProg Unit := do
  let dmcHandlerDone ← readIntl (·.dmcHandlerDone)
  if dmcHandlerDone then
    assign uacc (.curMsg (some jsonObj))
    let cacheDir ← readIntl (·.cacheDir)
    let backupDir ← readIntl (·.backupDir)
    let err ← updateParseJsonReadyUpdate uacc jsonObj cacheDir backupDir
    readyUpdateParsed uacc jsonObj err
  else mark (.readyUpdateDropped uacc jsonObj)

def processDownloadReport (_uacc : UaccPtr) (_jsonObj : Json) : UaProg Unit := pure ()

def processSotaReport (_uacc : UaccPtr) (_jsonObj : Json) : UaProg Unit := pure ()

def processLogReport (_uacc : UaccPtr) (_jsonObj : Json) : UaProg Unit := pure ()

/-- The sequence numbers of an answer, taken over one by one. -/
def updateSequences : List (String × Json) → UaProg Unit
  | [] => pure ()
  | (key, .int seq) :: fields => do
      ignoring (op (.updateOutgoingSeq key seq.toInt32))
      updateSequences fields
  | _ :: fields => updateSequences fields

/-- `json_object_object_foreach`. -/
def objectFields (json : Json) (path : List (Option String)) : Option (List (String × Json)) :=
  match jsonGetProperty .object json path none with
  | (err, some (.object fields)) => if err = eUaOk then some fields else none
  | _ => none

/-- The numbers that the answer to the query brings. -/
def takeSequences (jsonObj : Json) : UaProg Unit := do
  let fields ← orCrash (objectFields jsonObj
    [some "body", some "change-notification-sequences", some "per-update"])
  updateSequences fields
  assignIntl (.seqInfoValid true)

/-- An answer with the reply id `replyTo`, while a query waits for one. -/
def answerSequence (jsonObj : Json) (replyTo : Option String) (queryReplyId : String) :
    UaProg Unit := do
  let replyTo ← orCrash replyTo
  doIf (replyTo = queryReplyId) (takeSequences jsonObj)
  assignIntl (.queryReplyId none)

def processSequenceInfo (_uacc : UaccPtr) (jsonObj : Json) : UaProg Unit := do
  op (.mutexLock .intl)
  let replyTo := getReplytoFromJson jsonObj
  let queryReplyId ← readIntl (·.queryReplyId)
  (match queryReplyId with
    | some queryReplyId =>
        doIf (replyTo.1 = eUaOk) (answerSequence jsonObj replyTo.2 queryReplyId)
    | none => pure ())
  op (.mutexUnlock .intl)

/-- The verdict of the reply, if it has one. -/
def storeVerdict (uacc : UaccPtr) (successful : Option Bool) : UaProg Unit :=
  match successful with
  | some successful => assign uacc (.successful successful)
  | none => pure ()

/-- The reply to the update status that was sent last. -/
def acceptReply (uacc : UaccPtr) (jsonObj : Json) : UaProg Unit := do
  assign uacc (.replyId none)
  op (.mutexLock (.updateStatus uacc))
  storeVerdict uacc (getUpdateStatusResponseFromJson jsonObj).2
  op (.condSignal uacc)
  op (.mutexUnlock (.updateStatus uacc))

/-- A message with a `reply-to`. -/
def matchReply (uacc : UaccPtr) (jsonObj : Json) (replyTo : Option String) : UaProg Unit := do
  let matched ← op (.matchReplyId uacc replyTo)
  doIf matched (acceptReply uacc jsonObj)

def processUpdateStatus (uacc : UaccPtr) (jsonObj : Json) : UaProg Unit :=
  let replyTo := getReplytoFromJson jsonObj
  doIf (replyTo.1 = eUaOk) (matchReply uacc jsonObj replyTo.2)

def processQueryUpdates (_uacc : UaccPtr) (jsonObj : Json) : UaProg Unit := do
  let replyTo := getReplytoFromJson jsonObj
  let queryReplyId ← readIntl (·.queryReplyId)
  doIf (replyTo.1 = eUaOk ∧ replyIdMatched replyTo.2 queryReplyId)
    (assignIntl (.queryUpdates (some jsonObj)))
  assignIntl (.queryReplyId none)

/-- The function behind a `process_f` pointer. -/
def ProcessF.call (func : ProcessF) (uacc : UaccPtr) (jsonObj : Json) : UaProg Unit :=
  match func with
  | .queryPackage => processQueryPackage uacc jsonObj
  | .readyDownload => processReadyDownload uacc jsonObj
  | .readyUpdate => processReadyUpdate uacc jsonObj
  | .prepareUpdate => processPrepareUpdate uacc jsonObj
  | .confirmUpdate => processConfirmUpdate uacc jsonObj
  | .downloadReport => processDownloadReport uacc jsonObj
  | .sotaReport => processSotaReport uacc jsonObj
  | .logReport => processLogReport uacc jsonObj
  | .sequenceInfo => processSequenceInfo uacc jsonObj
  | .updateStatus => processUpdateStatus uacc jsonObj
  | .queryUpdates => processQueryUpdates uacc jsonObj

/-- The thread function of a worker. -/
def workerAction (uacc : UaccPtr) : UaProg Unit := do
  let func ← readComp uacc (·.worker.workerFunc)
  let workerJobj ← readComp uacc (·.worker.workerJobj)
  let jsonObj ← orCrash workerJobj
  ProcessF.call func uacc jsonObj
  assign uacc (.workerRunning false)

/-- A worker for one message. -/
def claimWorker (uacc : UaccPtr) (func : ProcessF) (jObj : Json) : UaProg Unit := do
  assign uacc (.workerRunning true)
  assign uacc (.workerFunc func)
  assign uacc (.workerJobj (some jObj))
  let thread ← op (.createWorker uacc)
  doIf thread.isNone (assign uacc (.workerRunning false))

/-- The start of a worker, unless one is running. -/
def startWorker (uacc : UaccPtr) (func : ProcessF) (jObj : Json) : UaProg Unit := do
  let busy ← readComp uacc (·.worker.workerRunning)
  if busy then mark (.workerBusy uacc jObj) else claimWorker uacc func jObj

def processRun (uacc : UaccPtr) (func : ProcessF) (jObj : Json) (turnover : Bool) :
    UaProg Unit :=
  if turnover then startWorker uacc func jObj else ProcessF.call func uacc jObj

/-- The handler of a message type and whether a worker runs it. -/
def handlerOf (asyncQueryPackage : Bool) (type : String) : Option (ProcessF × Bool) :=
  if type = bmtQueryPackage then some (.queryPackage, asyncQueryPackage)
  else if type = bmtReadyDownload then some (.readyDownload, false)
  else if type = bmtReadyUpdate then some (.readyUpdate, true)
  else if type = bmtPrepareUpdate then some (.prepareUpdate, true)
  else if type = bmtConfirmUpdate then some (.confirmUpdate, false)
  else if type = bmtDownloadReport then some (.downloadReport, false)
  else if type = bmtSotaReport then some (.sotaReport, false)
  else if type = bmtLogReport then some (.logReport, false)
  else if type = bmtQuerySequence then some (.sequenceInfo, false)
  else if type = bmtUpdateStatus then some (.updateStatus, false)
  else if type = bmtQueryUpdates then some (.queryUpdates, false)
  else none

/-- The check of the sequence number of a message, if it has one and names a package. -/
def isOutdated (uacc : UaccPtr) (jObj : Json) : UaProg Bool := do
  let seq := getSeqNumFromJson jObj (-1)
  let pkgName := getPkgNameFromJson jObj none
  if seq.1 = eUaOk ∧ pkgName.1 = eUaOk then
    let pkgName ← orCrash pkgName.2
    op (.chkIncomingSeq uacc pkgName seq.2)
  else pure false

/-- The handler of the message's type. -/
def dispatchType (uacc : UaccPtr) (jObj : Json) (type : Option String) : UaProg Unit := do
  let asyncQueryPackage ← readIntl (·.asyncQueryPackage)
  let type ← orCrash type
  match handlerOf asyncQueryPackage type with
  | some (func, turnover) => processRun uacc func jObj turnover
  | none => pure ()

/-- The callback first, then the handler. -/
def dispatch (uacc : UaccPtr) (jObj : Json) (type : Option String) : UaProg Unit := do
  let uar ← readComp uacc (·.uar)
  let processed ←
    (if uar.onMessage then callback uacc .onMessage ⟨type, none, none, none, false⟩
      else pure false)
  doIf (¬processed) (dispatchType uacc jObj type)

/-- A message that is a JSON value. -/
def processJson (uacc : UaccPtr) (jObj : Json) : UaProg Unit := do
  let outdated ← isOutdated uacc jObj
  let type := getTypeFromJson jObj
  doIf (¬outdated ∧ type.1 = eUaOk) (dispatch uacc jObj type.2)

def processMessage (uacc : UaccPtr) (msg : Option Json) : UaProg Unit :=
  match msg with
  | some jObj => processJson uacc jObj
  | none => pure ()

/-- What the runner does with one message that it takes from its queue. -/
def runnerPass (uacc : UaccPtr) (msg : Option Json) : UaProg Unit := do
  processMessage uacc msg
  ext (.freeMsg uacc)

/-- `ua_handle_dmc_presence`. -/
def uaHandleDmcPresence : UaProg Unit := assignIntl (.dmcHandlerDone true)

/-- `update_sequence_info`, up to a number of passes of its loop. -/
def updateSequenceInfo : Nat → UaProg Unit
  | 0 => pure ()
  | passes + 1 => do
      let valid ← readIntl (·.seqInfoValid)
      if valid then mark .sequenceInfoValid
      else do
        mark .sequencePass
        sendSequenceQuery
        updateSequenceInfo passes

/-- A presence thread for each of the registered handlers. -/
def spawnPresence : Nat → UaProg Unit
  | 0 => pure ()
  | n + 1 => do
      ignoring (op .createPresence)
      spawnPresence n

def UaInternalState.beforeResume : UaInternalState → Bool
  | .notKnown | .initialized | .handlerRegistered => true
  | .resumeStarted | .resumeDone => false

/-- `handle_presence` for the DM client, with `nUah` registered handlers. -/
def handlePresence (nUah : Nat) (connected : Bool) : UaProg Unit := do
  doIf connected (ignoring (op .createSequence))
  let intl ← readIntl id
  doIf (intl.rebootSupport ∧ UaInternalState.beforeResume intl.state)
    (updateHandleResumeFromReboot intl.recordFile)
  spawnPresence nUah

end EsyncUa.Messages
