import EsyncUa.Installation

/-!
The functions of `updater.c`: the installation with its record for a reboot, the rollback
to earlier versions, the resume after a reboot and the reading of a ready-update message.
-/
namespace EsyncUa.Updater

open EsyncUa.JsonProperties EsyncUa.Components EsyncUa.Records EsyncUa.Programs
open EsyncUa.Operations EsyncUa.Installation

def updateRecordSave (uacc : UaccPtr) : UaProg Rc := do
  match ← readComp uacc (·.recordFile) with
  | some path => do
      let opened ← op (.recordOpen path)
      if opened then
        let name ← readComp uacc (·.updatePkg.name)
        ignoring (orCrash name)
        ignoring (op (.recordWrite path uacc))
        pure eUaOk
      else pure eUaErr
  | none => pure eUaErr

def updateInstalledVersionSame (uacc : UaccPtr) (targetVersion : Option String) :
    UaProg Bool := do
  let pkgInfo ← readComp uacc (·.updatePkg)
  let file ← readComp uacc (·.updateFileInfo.file)
  let reply ← callback uacc .onGetVersion (uactl pkgInfo none file false)
  let installVersion := if reply.err = eUaOk then reply.version else none
  pure (isSet targetVersion && isSet installVersion && decide (targetVersion = installVersion))

def installAndPost (uacc : UaccPtr) : UaProg InstallState := do
  let updateSts ← updateAction uacc
  postUpdateAction uacc
  pure updateSts

/-- The installation after the record has been saved, until the record is removed. -/
def updateRecordedInstall (uacc : UaccPtr) (updateSts : InstallState) (rebootSupport : Bool) :
    UaProg InstallState := do
  let updateSts ← (if updateSts = .inProgress then installAndPost uacc else pure updateSts)
  let recordFile ← readComp uacc (·.recordFile)
  doIf rebootSupport (remove recordFile)
  pure updateSts

/-- Whether a first installation has nothing to do. -/
def isInstalledAlready (uacc : UaccPtr) : UaProg Bool := do
  let pkgInfo ← readComp uacc (·.updatePkg)
  if pkgInfo.rollbackVersion.isNone then updateInstalledVersionSame uacc pkgInfo.version
  else pure false

/-- The record that a reboot during the installation will find. -/
def saveRecord (uacc : UaccPtr) : UaProg Unit := do
  ignoring (updateRecordSave uacc)
  mark (.recordSaved uacc)

def updateStartInstallOperations (uacc : UaccPtr) (rebootSupport : Bool) :
    UaProg InstallState := do
  let same ← isInstalledAlready uacc
  if same then
    ignoring (sendInstallStatus uacc .completed none .none)
    postUpdateAction uacc
    pure .completed
  else
    let updateSts ← preUpdateAction uacc
    doIf rebootSupport (saveRecord uacc)
    updateRecordedInstall uacc updateSts rebootSupport

def updateGetNextRollbackVersion (uacc : UaccPtr) (curVersion : Option String) :
    UaProg (Option String) := do
  match ← readComp uacc (·.updatePkg.rollbackVersions) with
  | some versions => do
      let (_, rbVersion) ← orCrash (getPkgNextRollbackVersion versions curVersion)
      pure rbVersion
  | none => pure none

def updatePackageAvailable (updateFile : PkgFile) (version : Option String) : UaProg Bool :=
  if updateFile.version = version then access updateFile.file else pure false

/-- What the ready-update message says about the file of a rollback version: the entry, or
nothing if a property is missing or the package is not downloaded. -/
def rollbackInfoFromMsg (curMsg : Option Json) (rbVersion : Option String)
    (rbFileInfo : PkgFile) : Option (Option (Option String) × PkgFile) :=
  match curMsg with
  | none => some (none, rbFileInfo)
  | some json =>
      let downloaded := getPkgDownloadedFromJson json rbVersion
      let rbFileInfo := { rbFileInfo with
        downloaded := (downloaded.2.map intOfBool).getD rbFileInfo.downloaded }
      if downloaded.1 = eUaOk ∧ rbFileInfo.downloaded ≠ 0 then
        (getPkgSha256FromJson json rbVersion rbFileInfo.sha256b64.val).map fun (err, sha) =>
          let rbFileInfo := { rbFileInfo with sha256b64 := .copy sha }
          let file := getPkgFileFromJson json rbVersion none
          if err = eUaOk ∧ file.1 = eUaOk then (some file.2, rbFileInfo) else (none, rbFileInfo)
      else some (none, rbFileInfo)

def rollbackPackage (rbFileInfo : PkgFile) (rbVersion : Option String) (fromBackup : Bool) :
    UaProg (Rc × PkgFile × Bool) := do
  let available ← updatePackageAvailable rbFileInfo rbVersion
  pure (if available then eUaOk else eUaErr, rbFileInfo, available && fromBackup)

/-- The result, the entry and whether it comes from the backup manifest. -/
def updateGetRollbackPackage (uacc : UaccPtr) (rbFileInfo : PkgFile) (rbVersion : Option String) :
    UaProg (Rc × PkgFile × Bool) := do
  if rbVersion.isNone then pure (eUaErr, rbFileInfo, false)
  else
    let curMsg ← readComp uacc (·.curMsg)
    let (filepath, rbFileInfo) ← orCrash (rollbackInfoFromMsg curMsg rbVersion rbFileInfo)
    match filepath with
    | some filepath =>
        rollbackPackage { rbFileInfo with file := filepath, version := rbVersion } rbVersion false
    | none => do
        let backupManifest ← readComp uacc (·.backupManifest)
        match ← ext (.getPkgFileManifest backupManifest rbVersion) with
        | .found rbFileInfo => rollbackPackage rbFileInfo rbVersion true
        | _ => pure (eUaErr, rbFileInfo, false)

/-- `comp_get_rb_type(ua_intl.component_ctrl, uacc->update_pkg.name)`. -/
def readRbType (uacc : UaccPtr) : UaProg UpdateRollback := do
  let name ← readComp uacc (·.updatePkg.name)
  readIntl fun intl => compGetRbType intl.componentCtrl name

/-- The report of an intent, by the rollback type of the package. -/
def sendIntent (uacc : UaccPtr) (rbType : UpdateRollback) (info : PkgFile) : UaProg Rc := do
  match rbType with
  | .none => pure eUaErr
  | .dmcInitiatedNoUaIntent => do
      ignoring (sendInstallStatus uacc .failed none .none)
      pure eUaOk
  | .dmcInitiatedWithUaIntent => do
      ignoring (sendInstallStatus uacc .failed (some info) .none)
      pure eUaOk
  | .uaInitiated => do
      ignoring (sendInstallStatus uacc .rollback (some info) .none)
      pure eUaOk

def updateSendRollbackIntent (uacc : UaccPtr) (nextRbVersion : Option String) : UaProg Rc := do
  assign uacc (.pkgRollbackVersion nextRbVersion)
  let (rc, info, _) ← updateGetRollbackPackage uacc .zero nextRbVersion
  let rbType ← readRbType uacc
  sendIntent uacc rbType
    (if rc = eUaOk then info else { info with downloaded := 0, version := nextRbVersion })

/-- The rollback to the version that is installed already. -/
def rollbackToInstalled (uacc : UaccPtr) (nextRbVersion : String) : UaProg InstallState := do
  assign uacc (.fileInfoVersion (some nextRbVersion))
  assign uacc (.fileInfoFile none)
  let fileInfo ← readComp uacc (·.updateFileInfo)
  ignoring (sendInstallStatus uacc .rollback (some fileInfo) .none)
  let version ← readComp uacc (·.updateFileInfo.version)
  let pkgName ← readComp uacc (·.updatePkg.name)
  assignIntl (.customMessage pkgName
    (some ("Found installed version is same as requested rollback version (" ++
      formatted version ++ ")")))
  ignoring (sendInstallStatus uacc .completed (some .zero) .none)
  postUpdateAction uacc
  pure .completed

/-- After a rollback installation that did not complete: the intent to try the next version. -/
def rollbackToNext (uacc : UaccPtr) (updateSts : InstallState) (nextRbVersion : String) :
    UaProg InstallState := do
  match ← updateGetNextRollbackVersion uacc (some nextRbVersion) with
  | some next => do
      let pkgName ← readComp uacc (·.updatePkg.name)
      assignIntl (.customMessage pkgName
        (some ("Rollback to version(" ++ nextRbVersion ++ ") was not successful")))
      ignoring (updateSendRollbackIntent uacc (some next))
      pure .rollback
  | none => pure updateSts

/-- The installation of a rollback package that is ready. -/
def rollbackReady (uacc : UaccPtr) (rebootSupport : Bool) : UaProg InstallState := do
  let version ← readComp uacc (·.updateFileInfo.version)
  assign uacc (.pkgRollbackVersion version)
  updateStartInstallOperations uacc rebootSupport

/-- The installation of a rollback package that has been prepared with result `state`. -/
def rollbackInstall (uacc : UaccPtr) (state : InstallState) (nextRbVersion : String)
    (rebootSupport : Bool) : UaProg InstallState := do
  let updateSts ← (if state = .ready then rollbackReady uacc rebootSupport else pure state)
  if updateSts ≠ .completed then rollbackToNext uacc updateSts nextRbVersion
  else pure updateSts

/-- No rollback is available with a prepared delta. -/
def rollbackPreparedDelta (uacc : UaccPtr) : UaProg InstallState := do
  postUpdateAction uacc
  pure .failed

/-- The rollback with a package file that was found. -/
def rollbackWithPackage (uacc : UaccPtr) (rbFileInfo : PkgFile) (bck : Bool)
    (nextRbVersion : String) (rebootSupport : Bool) : UaProg InstallState := do
  assign uacc (.isRollbackInstallation true)
  let updateFile ← readComp uacc (·.updateFileInfo)
  let ue ← readComp uacc (·.updateError)
  let prepared ← prepareInstallAction uacc rbFileInfo bck updateFile ue
  assign uacc (.updateFileInfo prepared.updateFile)
  assign uacc (.updateError prepared.ue)
  let file ← readComp uacc (·.updateFileInfo.file)
  let isPreparedDelta ← ext (.isPreparedDeltaPackage file)
  let updateSts ←
    (if isPreparedDelta then rollbackPreparedDelta uacc
      else rollbackInstall uacc prepared.state nextRbVersion rebootSupport)
  assign uacc (.isRollbackInstallation false)
  pure updateSts

/-- The rollback when no package file can be located. -/
def rollbackWithoutPackage (uacc : UaccPtr) (nextRbVersion : String) : UaProg InstallState := do
  match ← updateGetNextRollbackVersion uacc (some nextRbVersion) with
  | some next => do
      ignoring (updateSendRollbackIntent uacc (some next))
      pure .rollback
  | none => do
      postUpdateAction uacc
      pure .failed

/-- The report of a rollback that has exhausted all versions. -/
def rollbackFailed (uacc : UaccPtr) : UaProg Unit := do
  let rbType ← readRbType uacc
  if rbType = .dmcInitiatedNoUaIntent then
    ignoring (sendInstallStatus uacc .failed none .none)
  else
    let version ← readComp uacc (·.updateFileInfo.version)
    let pkgName ← readComp uacc (·.updatePkg.name)
    assignIntl (.customMessage pkgName
      (some ("Rollback to version(" ++ formatted version ++
        ") was not successful, no more available versions, signal terminal-failure.")))
    assign uacc (.updateError .terminalFailure)
    let fileInfo ← readComp uacc (·.updateFileInfo)
    let updateError ← readComp uacc (·.updateError)
    ignoring (sendInstallStatus uacc .failed (some fileInfo) updateError)

/-- Removes the update manifest if it is there. -/
def removeUpdateManifest (uacc : UaccPtr) : UaProg Unit := do
  let updateManifest ← readComp uacc (·.updateManifest)
  let found ← access updateManifest
  doIf found (remove updateManifest)

/-- The rollback to a version that is not the installed one. -/
def rollbackToVersion (uacc : UaccPtr) (rbVersion : String) (rebootSupport : Bool) :
    UaProg InstallState := do
  let (rc, rbFileInfo, bck) ← updateGetRollbackPackage uacc .zero (some rbVersion)
  if rc = eUaOk then rollbackWithPackage uacc rbFileInfo bck rbVersion rebootSupport
  else rollbackWithoutPackage uacc rbVersion

def updateStartRollbackOperations (uacc : UaccPtr) (rbVersion : String) (rebootSupport : Bool) :
    UaProg InstallState := do
  assign uacc (.fileInfoVersion none)
  assign uacc (.fileInfoFile none)
  assign uacc (.pkgRollbackVersion (some rbVersion))
  let same ← updateInstalledVersionSame uacc (some rbVersion)
  let updateSts ←
    (if same then rollbackToInstalled uacc rbVersion
      else rollbackToVersion uacc rbVersion rebootSupport)
  doIf (updateSts ≠ .completed) (removeUpdateManifest uacc)
  doIf (updateSts = .failed) (rollbackFailed uacc)
  pure updateSts

def updateReleaseCompContext (uacc : UaccPtr) : UaProg Unit := do
  assign uacc (.fileInfoVersion none)
  assign uacc (.fileInfoFile none)
  assignIntl (.curCampaignId none)
  assign uacc (.pkgName none)
  assign uacc (.pkgVersion none)
  assign uacc (.pkgType none)
  assign uacc (.pkgRollbackVersion none)
  assign uacc (.pkgRollbackVersions none)
  assign uacc (.fileInfoRollbackOrder 0)
  assign uacc (.updateError .none)
  let queryUpdates ← readIntl (·.queryUpdates)
  doIf queryUpdates.isSome (assignIntl (.queryUpdates none))

/-- `post_update_action`, then the plain failure. -/
def resumePlainFailure (uacc : UaccPtr) : UaProg Unit := do
  postUpdateAction uacc
  ignoring (sendInstallStatus uacc .failed none .none)

/-- The next rollback version, or the terminal failure. -/
def resumeRollback (uacc : UaccPtr) : UaProg Unit := do
  let version ← readComp uacc (·.updateFileInfo.version)
  match ← updateGetNextRollbackVersion uacc version with
  | some rbVersion => ignoring (updateSendRollbackIntent uacc (some rbVersion))
  | none => do
      postUpdateAction uacc
      let fileInfo ← readComp uacc (·.updateFileInfo)
      ignoring (sendInstallStatus uacc .failed (some fileInfo) .terminalFailure)

/-- The report of an installation that turns out to have failed after the reboot. -/
def resumeFailed (uacc : UaccPtr) : UaProg Unit := do
  let rbType ← readRbType uacc
  let retryCnt ← readComp uacc (·.retryCnt)
  let maxRetry ← readComp uacc (·.maxRetry)
  if retryCnt ≤ maxRetry then resumePlainFailure uacc
  else if rbType = .dmcInitiatedWithUaIntent ∨ rbType = .uaInitiated then resumeRollback uacc
  else resumePlainFailure uacc

/-- The report of an installation that turns out to have succeeded after the reboot. -/
def resumeSucceeded (uacc : UaccPtr) : UaProg Unit := do
  let fileInfo ← readComp uacc (·.updateFileInfo)
  ignoring (sendInstallStatus uacc .completed (some fileInfo) .none)
  let pkgName ← readComp uacc (·.updatePkg.name)
  let version ← readComp uacc (·.updateFileInfo.version)
  ignoring (handlerBackupActions uacc pkgName version)
  postUpdateAction uacc

/-- Both manifest paths of a package. -/
def assignManifests (uacc : UaccPtr) (cacheDir backupDir : Option String) : UaProg Unit := do
  let name ← readComp uacc (·.updatePkg.name)
  assign uacc (.updateManifest (join cacheDir [name, some manifestPkg]))
  assign uacc (.backupManifest (join backupDir [some "backup", name, some manifestPkg]))

/-- The report of the resumed installation, and its end. -/
def resumeInstallation (uacc : UaccPtr) : UaProg Unit := do
  let cacheDir ← readIntl (·.cacheDir)
  let backupDir ← readIntl (·.backupDir)
  assignManifests uacc cacheDir backupDir
  let version ← readComp uacc (·.updateFileInfo.version)
  let same ← updateInstalledVersionSame uacc version
  (if same then resumeSucceeded uacc else resumeFailed uacc)
  let name ← readComp uacc (·.updatePkg.name)
  assign uacc (.updateStage name .readyUpdateDone)
  let recordFile ← readComp uacc (·.recordFile)
  remove recordFile
  updateReleaseCompContext uacc
  assign uacc (.updateManifest none)
  assign uacc (.backupManifest none)
  assignIntl (.state .resumeDone)

def updateResumeFromReboot (uacc : UaccPtr) : UaProg Unit := do
  assign uacc (.workerRunning true)
  resumeInstallation uacc
  assign uacc (.workerRunning false)

/-- The resume thread could not be started. -/
def resumeAbandoned (uacc : UaccPtr) : UaProg Rc := do
  let name ← readComp uacc (·.updatePkg.name)
  assign uacc (.updateStage name .unknown)
  pure eUaErr

/-- The record applied to its component, and the resume thread started for it. -/
def resumeComponent (uacc : UaccPtr) (joUpdateRec : Json) : UaProg Rc := do
  let err ← op (.setCompContext uacc joUpdateRec)
  if err = eUaOk then
    let started ← op (.createResume uacc)
    if started then pure eUaOk else resumeAbandoned uacc
  else pure eUaErr

/-- The component that a record is for is the first one that its type is routed to. -/
def resumeRecord (joUpdateRec : Json) : UaProg Rc := do
  match updateRecordGetType joUpdateRec with
  | some type => do
      match ← op (.queryHashTree type) with
      | some uacc => resumeComponent uacc joUpdateRec
      | none => pure eUaErr
  | none => pure eUaErr

/-- A record that is not JSON has no type. -/
def resumeContent (content : Option RecordContent) : UaProg Rc :=
  match content with
  | some (.whole joUpdateRec) => resumeRecord joUpdateRec
  | _ => pure eUaErr

def updateHandleResumeFromReboot (recFile : Option String) : UaProg Unit := do
  let content ← op (.recordLoad recFile)
  assignIntl (.state .resumeStarted)
  let err ← resumeContent content
  if err = eUaErr then
    doIf recFile.isSome (remove recFile)
    assignIntl (.state .resumeDone)

/-- The version that a ready-update asks for. -/
def versionToUpdate (pkg : PkgInfo) : Option String :=
  if isSet pkg.rollbackVersion then pkg.rollbackVersion else pkg.version

/-- The callback that brings the file if it is not there. -/
def parseTransfer (uacc : UaccPtr) : UaProg Rc := do
  let pkgInfo ← readComp uacc (·.updatePkg)
  let file ← readComp uacc (·.updateFileInfo.file)
  let uar ← readComp uacc (·.uar)
  if uar.onTransferFile then
    let reply ← callback uacc .onTransferFile (uactl pkgInfo pkgInfo.version file false)
    doIf reply.newFilePath.isSome (assign uacc (.fileInfoFile reply.newFilePath))
    pure reply.err
  else pure eUaOk

/-- The digest of the file, which is entered in the update manifest if nothing has failed. -/
def parseDigest (uacc : UaccPtr) (err : Rc) : UaProg Rc := do
  let file ← readComp uacc (·.updateFileInfo.file)
  match ← ext (.calcSha256X file) with
  | some sha => do
      assign uacc (.fileInfoShaOfSha sha)
      let updateManifest ← readComp uacc (·.updateManifest)
      let fileInfo ← readComp uacc (·.updateFileInfo)
      doIf (err = eUaOk) (ignoring (ext (.addPkgFileManifest updateManifest fileInfo)))
      pure (if err = eUaOk then eUaOk else eUaErr)
  | none => pure eUaErr

/-- The file named by the message. -/
def parseFileFromMsg (uacc : UaccPtr) (updateFileName : Option String) : UaProg Rc := do
  assign uacc (.fileInfoFile updateFileName)
  let pkgInfo ← readComp uacc (·.updatePkg)
  assign uacc (.fileInfoVersion (versionToUpdate pkgInfo))
  let file ← readComp uacc (·.updateFileInfo.file)
  let found ← access file
  let err ← (if found then pure eUaOk else parseTransfer uacc)
  parseDigest uacc err

/-- The file information of the version in the backup manifest. -/
def parseFromBackup (uacc : UaccPtr) (version : Option String) : UaProg Rc := do
  let backupManifest ← readComp uacc (·.backupManifest)
  match ← ext (.getPkgFileManifest backupManifest version) with
  | .found pkgFile => do
      assign uacc (.updateFileInfo pkgFile)
      pure eUaOk
  | .err => pure eUaErr
  | .sys => pure eUaSys

/-- The file information of a ready-update whose version is not in the update manifest. -/
def parseInfoFromMsg (uacc : UaccPtr) (jsonObj : Json) : UaProg Rc := do
  let pkgInfo ← readComp uacc (·.updatePkg)
  let version := versionToUpdate pkgInfo
  let downloaded := getPkgDownloadedFromJson jsonObj version
  doIf downloaded.2.isSome
    (assign uacc (.fileInfoDownloaded (intOfBool (downloaded.2.getD false))))
  let isDownloaded ← readComp uacc (·.updateFileInfo.downloaded)
  if downloaded.1 = eUaOk ∧ isDownloaded ≠ 0 then
    let old ← readComp uacc (·.updateFileInfo.sha256b64)
    let (_, sha) ← orCrash (getPkgSha256FromJson jsonObj version old.val)
    assign uacc (.fileInfoSha256 (.copy sha))
    let file := getPkgFileFromJson jsonObj version none
    if file.1 = eUaOk then parseFileFromMsg uacc file.2 else parseFromBackup uacc version
  else pure eUaOk

/-- The name of the package, stored if the type is there. -/
def parseName (uacc : UaccPtr) (jsonObj : Json) : UaProg Rc := do
  let old ← readComp uacc (·.updatePkg.name)
  assign uacc (.pkgName (getPkgNameFromJson jsonObj old).2)
  pure (getPkgNameFromJson jsonObj old).1

/-- The type and name of the package and the campaign of the message. -/
def parseIdentity (uacc : UaccPtr) (jsonObj : Json) : UaProg Rc := do
  let old ← readComp uacc (·.updatePkg.type)
  let type := getPkgTypeFromJson jsonObj old
  assign uacc (.pkgType type.2)
  let err ← (if type.1 = eUaOk then parseName uacc jsonObj else pure eUaErr)
  let campaignId := getCampaignIdFromJson jsonObj
  doIf campaignId.isSome (assignIntl (.curCampaignId campaignId))
  pure err

/-- The rollback versions of the message and the file to install. -/
def parseFileInfo (uacc : UaccPtr) (jsonObj : Json) : UaProg Rc := do
  let rollbackVersion ← readComp uacc (·.updatePkg.rollbackVersion)
  assign uacc (.pkgRollbackVersion (getPkgRollbackVersionFromJson jsonObj rollbackVersion).2)
  let rollbackVersions ← readComp uacc (·.updatePkg.rollbackVersions)
  assign uacc (.pkgRollbackVersions (getPkgRollbackVersionsFromJson jsonObj rollbackVersions).2)
  let updateManifest ← readComp uacc (·.updateManifest)
  let pkgInfo ← readComp uacc (·.updatePkg)
  match ← ext (.getPkgFileManifest updateManifest (versionToUpdate pkgInfo)) with
  | .found pkgFile => do
      assign uacc (.updateFileInfo pkgFile)
      pure eUaOk
  | _ => parseInfoFromMsg uacc jsonObj

/-- The manifests, the version and the rest of a message whose type and name are there. -/
def parseVersions (uacc : UaccPtr) (jsonObj : Json) (cacheDir backupDir : Option String) :
    UaProg Rc := do
  assignManifests uacc cacheDir backupDir
  let old ← readComp uacc (·.updatePkg.version)
  let version := getPkgVersionFromJson jsonObj old
  assign uacc (.pkgVersion version.2)
  if version.1 = eUaOk then parseFileInfo uacc jsonObj else pure version.1

/-- What a failed parse leaves. -/
def parseFailed (uacc : UaccPtr) : UaProg Unit := do
  assign uacc (.backupManifest none)
  assign uacc (.updateManifest none)
  let rollbackVersion ← readComp uacc (·.updatePkg.rollbackVersion)
  doIf (isSet rollbackVersion) (assign uacc (.updateError .terminalFailure))

def updateParseJsonReadyUpdate (uacc : UaccPtr) (jsonObj : Json)
    (cacheDir backupDir : Option String) : UaProg Rc := do
  let err ← parseIdentity uacc jsonObj
  let err ← (if err = eUaOk then parseVersions uacc jsonObj cacheDir backupDir else pure err)
  doIf (err = eUaErr) (parseFailed uacc)
  pure err

end EsyncUa.Updater
