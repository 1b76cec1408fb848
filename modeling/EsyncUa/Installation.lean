import EsyncUa.Operations

/-!
The functions of `handler.c` that prepare, install and report one package: the status
message, the preparation of a package file, the consent request before an installation,
the installation itself and the backup after it. Each is the program of the thread that
calls it, for the component `uacc`.
-/
namespace EsyncUa.Installation

open EsyncUa.JsonProperties EsyncUa.Components EsyncUa.Programs EsyncUa.Operations

abbrev UaProg (α : Type) : Type := Prog Shared Op.Ans α

variable {α : Type}

/-- One operation of the agent. -/
def op (o : Op) : UaProg o.Ans := Prog.perform o

def ext (o : ExtOp) : UaProg o.Ans := op (.ext o)

def assign (uacc : UaccPtr) (x : Assign) : UaProg Unit := op (.assign uacc x)

def assignIntl (x : AssignIntl) : UaProg Unit := op (.assignIntl x)

def mark (m : Mark) : UaProg Unit := op (.mark m)

def readComp (uacc : UaccPtr) (f : UaComponentContext → α) : UaProg α :=
  Prog.read fun s => f (s.comp uacc)

def readIntl (f : UaInternal → α) : UaProg α := Prog.read fun s => f s.intl

/-- The invalid memory access that ends the process. -/
def crash : UaProg α := Prog.call (Op.ext .crash) fun b => b.elim

/-- The use of a pointer that must not be NULL. -/
def orCrash (value : Option α) : UaProg α :=
  match value with
  | some a => pure a
  | none => crash

/-- A statement that is executed only if the condition holds. -/
def doIf (c : Prop) [Decidable c] (p : UaProg Unit) : UaProg Unit := if c then p else pure ()

/-- A call whose result is not used. -/
def ignoring (p : UaProg α) : UaProg Unit := do
  let _ ← p
  pure ()

def callback (uacc : UaccPtr) (f : Callback) (ctl : UaCallbackCtl) : UaProg f.Ans :=
  ext (.callback uacc f ctl)

def access (path : Option String) : UaProg Bool := ext (.access path)

def remove (path : Option String) : UaProg Unit := op (.remove path)

/-- The control record with the fields that a function of the library sets. -/
def uactl (pkgInfo : PkgInfo) (version pkgPath : Option String) (isRollback : Bool) :
    UaCallbackCtl :=
  ⟨pkgInfo.type, pkgInfo.name, version, pkgPath, isRollback⟩

/-- `version-list` of a status: for a failed incremental update or for a rollback. -/
def statusVersionList (state : InstallState) (pkgFile : Option PkgFile) (ue : UpdateErr) :
    UaProg (Option VersionEntry) :=
  match pkgFile with
  | none => pure none
  | some pkgFile =>
      if state = .failed ∧ ue = .incrementalFailed then do
        let version ← orCrash pkgFile.version
        pure (some (.incrementalFailed version))
      else if state = .rollback then do
        let version ← orCrash pkgFile.version
        pure (some (.downloaded version (pkgFile.downloaded ≠ 0)))
      else pure none

/-- `update-in-progress` of a status: the last of the three places that set it. -/
def statusInProgress (pkgInfo : PkgInfo) (state : InstallState) (pkgFile : Option PkgFile)
    (ue : UpdateErr) : Option Bool :=
  if state = .inProgress then some true
  else if pkgInfo.rollbackVersion = none ∧ state = .failed ∨ state = .completed then some false
  else if state = .failed ∧ pkgFile.isSome ∧ ue = .terminalFailure then some false
  else none

def statusSequence (pkgName : String) : UaProg (Option Int32) := do
  if ← readIntl (·.seqInfoValid) then
    let num ← op (.updateOutgoingSeq pkgName 0)
    pure (some num)
  else pure none

/-- The reply id of a status, which only the request to start an installation has. -/
def statusReplyId (uacc : UaccPtr) (state : InstallState) : UaProg (Option String) := do
  if state = .inProgress then
    let replyId ← ext .randstring
    assign uacc (.replyId replyId)
    pure replyId
  else pure none

def sendInstallStatus (uacc : UaccPtr) (state : InstallState) (pkgFile : Option PkgFile)
    (ue : UpdateErr) : UaProg Rc := do
  let pkgInfo ← readComp uacc (·.updatePkg)
  let name ← orCrash pkgInfo.name
  let type ← orCrash pkgInfo.type
  let version ← orCrash pkgInfo.version
  let customMsg ← readIntl fun intl => getComponentCustomMessage intl.componentCtrl (some name)
  let versionList ← statusVersionList state pkgFile ue
  let sequence ← statusSequence name
  let replyId ← statusReplyId uacc state
  ext (.uaSendMessage (.updateStatus
    { name, type, version, sequence, versionList, replyId
      status := state
      rollbackVersion := if pkgFile.isSome then pkgInfo.rollbackVersion else none
      rollbackVersions :=
        if pkgInfo.rollbackVersion.isSome ∧ pkgFile.isSome then pkgInfo.rollbackVersions else none
      message := customMsg
      terminalFailure := state = .failed ∧ ue = .terminalFailure ∧ pkgFile.isSome
      updateIncapable := state = .failed ∧ ue = .updateIncapable ∧ pkgFile.isSome
      updateInProgress := statusInProgress pkgInfo state pkgFile ue }))

def transferFileAction (uacc : UaccPtr) (pkgInfo : PkgInfo) (pkgFile : PkgFile) :
    UaProg (Rc × PkgFile) := do
  let uar ← readComp uacc (·.uar)
  if uar.onTransferFile then
    let reply ← callback uacc .onTransferFile (uactl pkgInfo pkgFile.version pkgFile.file false)
    if reply.err = eUaOk ∧ isSet reply.newFilePath then
      pure (reply.err, { pkgFile with file := reply.newFilePath })
    else pure (reply.err, pkgFile)
  else pure (eUaOk, pkgFile)

/-- `patch_delta`. -/
def patchDelta (pkgManifest version diffFile newFile : Option String) : UaProg Rc := do
  if pkgManifest.isSome ∧ diffFile.isSome ∧ newFile.isSome then
    match ← ext (.getPkgFileManifest pkgManifest version) with
    | .found pkgFile => ext (.deltaReconstruct pkgFile.file diffFile newFile)
    | _ => pure eUaErr
  else pure eUaErr

/-- What `prepare_install_action` returns and leaves in its output parameters. -/
structure Prepared where
  state : InstallState
  pkgFile : PkgFile
  updateFile : PkgFile
  ue : UpdateErr

/-- The transfer and the digest check of `prepare_install_action`. -/
def prepareTransfer (uacc : UaccPtr) (pkgFile : PkgFile) (bck : Bool) : UaProg (Rc × PkgFile) := do
  let pkgInfo ← readComp uacc (·.updatePkg)
  let uar ← readComp uacc (·.uar)
  let (err, pkgFile) ←
    (if ¬bck ∧ uar.onTransferFile then transferFileAction uacc pkgInfo pkgFile
      else pure (eUaOk, pkgFile))
  let disabled ← readIntl (·.packageVerificationDisabled)
  if err = eUaOk ∧ ¬disabled then
    let sha :=
      if pkgFile.deltaSha256b64.val ≠ "" then pkgFile.deltaSha256b64 else pkgFile.sha256b64
    let err ← ext (.verifyFileHashB64 pkgFile.file sha)
    pure (err, pkgFile)
  else pure (err, pkgFile)

/-- The installed version, and the error the callback reports with a failure. -/
def prepareVersion (uacc : UaccPtr) (ue : UpdateErr) :
    UaProg (Rc × Option String × UpdateErr) := do
  let pkgInfo ← readComp uacc (·.updatePkg)
  let reply ← callback uacc .onGetVersion (uactl pkgInfo none none false)
  if reply.err = eUaOk then pure (reply.err, reply.version, ue)
  else pure (reply.err, none, reply.updateError)

/-- Whether the package is a delta to be applied here. -/
def isDeltaToPatch (pkgFile : PkgFile) : UaProg Bool := do
  if ← readIntl (·.delta) then
    if ← ext (.isDeltaPackage pkgFile.file) then
      let prepared ← ext (.isPreparedDeltaPackage pkgFile.file)
      pure (!prepared)
    else pure false
  else pure false

/-- The file to install: the package file, or the one reconstructed from a delta. -/
def prepareFile (uacc : UaccPtr) (err : Rc) (installedVer : Option String)
    (pkgFile updateFile : PkgFile) (ue : UpdateErr) :
    UaProg (Rc × InstallState × PkgFile × UpdateErr) := do
  let isDelta ← (if err = eUaOk then isDeltaToPatch pkgFile else pure false)
  if isDelta then
    let cacheDir ← readIntl (·.cacheDir)
    let updateFile := { updateFile with
      file := join cacheDir [some "delta", fBasename pkgFile.file] }
    let backupManifest ← readComp uacc (·.backupManifest)
    let err ←
      (if backupManifest.isSome then
        patchDelta backupManifest installedVer pkgFile.file updateFile.file
      else pure err)
    let failed := backupManifest.isNone ∨ err = eUaErr
    let sha ← (if err = eUaOk then ext (.calculateSha256B64 updateFile.file) else pure none)
    pure (err, if failed then .failed else .ready,
      { updateFile with sha256b64 := sha.getD updateFile.sha256b64, downloaded := 0 },
      if err = eUaErr then .incrementalFailed else ue)
  else
    let updateFile := { updateFile with file := pkgFile.file, sha256b64 := pkgFile.sha256b64 }
    pure (err, .ready, if err = eUaOk then { updateFile with downloaded := 1 } else updateFile, ue)

/-- The `on_prepare_install` callback, if there is one. -/
def prepareCallback (uacc : UaccPtr) (state : InstallState) (updateFile : PkgFile)
    (ue : UpdateErr) : UaProg (InstallState × PkgFile × UpdateErr) := do
  let uar ← readComp uacc (·.uar)
  if uar.onPrepareInstall then
    let pkgInfo ← readComp uacc (·.updatePkg)
    let isRollback ← readComp uacc (·.isRollbackInstallation)
    let reply ← callback uacc .onPrepareInstall
      (uactl pkgInfo updateFile.version updateFile.file isRollback)
    if reply.state = .ready then
      if isSet reply.newFilePath then
        pure (reply.state, { updateFile with file := reply.newFilePath }, ue)
      else pure (reply.state, updateFile, ue)
    else pure (reply.state, updateFile, reply.updateError)
  else pure (state, updateFile, ue)

/-- The entry in the update manifest that a package ready for installation gets. -/
def prepareManifest (uacc : UaccPtr) (updateFile : PkgFile) : UaProg (InstallState × PkgFile) := do
  let updateManifest ← readComp uacc (·.updateManifest)
  if updateManifest.isSome then
    match ← ext (.calcSha256X updateFile.file) with
    | some sha => do
        let updateFile := { updateFile with shaOfSha := sha }
        ignoring (ext (.addPkgFileManifest updateManifest updateFile))
        pure (.ready, updateFile)
    | none => pure (.failed, updateFile)
  else pure (.ready, updateFile)

/-- `updateFile` and `ue` are the contents of the output parameters before the call. -/
def prepareInstallAction (uacc : UaccPtr) (pkgFile : PkgFile) (bck : Bool) (updateFile : PkgFile)
    (ue : UpdateErr) : UaProg Prepared := do
  let updateFile := { updateFile with version := pkgFile.version }
  let (err, pkgFile) ← prepareTransfer uacc pkgFile bck
  let (err, installedVer, ue) ←
    (if err = eUaOk then prepareVersion uacc ue else pure (err, none, ue))
  let (err, state, updateFile, ue) ← prepareFile uacc err installedVer pkgFile updateFile ue
  let (state, updateFile, ue) ←
    (if err = eUaOk then prepareCallback uacc state updateFile ue
      else pure (.failed, updateFile, ue))
  let (state, updateFile) ←
    (if state = .ready then prepareManifest uacc updateFile else pure (state, updateFile))
  pure ⟨state, pkgFile, updateFile, ue⟩

/-- Whether the reply granted the request; the flag is taken back. -/
def takeSuccessful (uacc : UaccPtr) : UaProg InstallState := do
  if ← readComp uacc (·.updateStatusInfo.successful) then
    assign uacc (.successful false)
    pure .inProgress
  else pure .failed

/-- The wait for the reply to an update status, and the reply's verdict. -/
def awaitConsent (uacc : UaccPtr) : UaProg InstallState := do
  op (.mutexLock (.updateStatus uacc))
  op (.condTimedwait uacc)
  let rc ← op (.condWakeup uacc)
  doIf (rc = .timedOut) (assign uacc (.replyId none))
  let state ← takeSuccessful uacc
  op (.mutexUnlock (.updateStatus uacc))
  pure state

/-- The `on_pre_install` callback, if there is one. -/
def preInstall (uacc : UaccPtr) : UaProg InstallState := do
  let uar ← readComp uacc (·.uar)
  let pkgInfo ← readComp uacc (·.updatePkg)
  let pkgFile ← readComp uacc (·.updateFileInfo)
  if uar.onPreInstall then
    callback uacc .onPreInstall (uactl pkgInfo pkgFile.version pkgFile.file false)
  else pure .inProgress

def preUpdateAction (uacc : UaccPtr) : UaProg InstallState := do
  let state ← preInstall uacc
  if state = .inProgress then
    let pkgFile ← readComp uacc (·.updateFileInfo)
    let err ← sendInstallStatus uacc state (some pkgFile) .none
    if err = eUaOk then awaitConsent uacc else pure state
  else pure state

/-- A string as the `%s` of a format prints it. -/
def formatted (s : Option String) : String := s.getD "(null)"

/-- The report of an installation; before a successful rollback is reported the message says
so. -/
def reportInstall (uacc : UaccPtr) (state : InstallState) : UaProg Unit := do
  let isRollback ← readComp uacc (·.isRollbackInstallation)
  let pkgName ← readComp uacc (·.updatePkg.name)
  let version ← readComp uacc (·.updateFileInfo.version)
  doIf isRollback (assignIntl (.customMessage pkgName
    (some ("Rollback to version " ++ formatted version ++ " has succeeded"))))
  let pkgFile ← readComp uacc (·.updateFileInfo)
  ignoring (sendInstallStatus uacc state (some pkgFile) .none)

def updateAction (uacc : UaccPtr) : UaProg InstallState := do
  let uar ← readComp uacc (·.uar)
  let pkgInfo ← readComp uacc (·.updatePkg)
  let pkgFile ← readComp uacc (·.updateFileInfo)
  if uar.onInstall then
    let isRollback ← readComp uacc (·.isRollbackInstallation)
    let state ← callback uacc .onInstall (uactl pkgInfo pkgFile.version pkgFile.file isRollback)
    doIf (state = .completed ∧ uar.onSetVersion)
      (ignoring (callback uacc .onSetVersion (uactl pkgInfo pkgFile.version pkgFile.file false)))
    let versions ← readComp uacc (·.updatePkg.rollbackVersions)
    doIf (¬(versions.isSome ∧ state = .failed)) (reportInstall uacc state)
    pure state
  else pure .failed

def postUpdateAction (uacc : UaccPtr) : UaProg Unit := do
  let uar ← readComp uacc (·.uar)
  if uar.onPostInstall then
    let pkgInfo ← readComp uacc (·.updatePkg)
    callback uacc .onPostInstall (uactl pkgInfo pkgInfo.version none false)

/-- The file that `backup_package` copies, and whether it is the reconstructed one, which with a
delta is kept apart until the backup. -/
def backupSourceFile (pkgFile : PkgFile) : UaProg (Option String × Bool) := do
  let delta ← readIntl (·.delta)
  let backupSource ← readIntl (·.backupSource)
  if delta ∧ backupSource = 1 then
    let cacheDir ← readIntl (·.cacheDir)
    let srcFile := join cacheDir [some "delta", fBasename pkgFile.file]
    if srcFile.isSome then
      if ← access srcFile then pure (srcFile, true) else pure (pkgFile.file, false)
    else pure (pkgFile.file, false)
  else pure (pkgFile.file, false)

/-- The copy of a package file into the backup, by a link if possible. -/
def copyToBackup (uacc : UaccPtr) (pkgFile backupFile : PkgFile) : UaProg Rc := do
  let (srcFile, reconstructed) ← backupSourceFile pkgFile
  let linked ← ext (.makeFileHardLink srcFile backupFile.file)
  let err ←
    (if linked = eUaOk then pure eUaOk else ext (.copyFile srcFile backupFile.file))
  let backupManifest ← readComp uacc (·.backupManifest)
  doIf (err = eUaOk) (ignoring (ext (.addPkgFileManifest backupManifest backupFile)))
  doIf reconstructed (ext (.unlink srcFile))
  pure err

/-- Whether the file is the backup itself, or has the digest of the backup. -/
def isBackedUp (pkgFile backupFile : PkgFile) : UaProg Bool := do
  if pkgFile.file = backupFile.file then pure true
  else
    let cmp ← ext (.sha256xcmp backupFile.file backupFile.sha256b64)
    pure (decide (cmp = 0))

def backupPackage (uacc : UaccPtr) (pkgName : Option String) (pkgFile : PkgFile) : UaProg Rc := do
  let bname := fBasename pkgFile.file
  let backupManifest ← readComp uacc (·.backupManifest)
  if bname.isSome ∧ backupManifest.isSome then
    let backupDir ← readIntl (·.backupDir)
    let backupFile : PkgFile := { PkgFile.zero with
      file := join backupDir [some "backup", pkgName, pkgFile.version, bname]
      version := pkgFile.version, downloaded := 1
      sha256b64 := pkgFile.sha256b64, shaOfSha := pkgFile.shaOfSha }
    if backupFile.file.isSome ∧ backupFile.version.isSome then
      let done ← isBackedUp pkgFile backupFile
      if done then pure eUaOk else copyToBackup uacc pkgFile backupFile
    else pure eUaOk
  else pure eUaErr

/-- The backup of the version that the update manifest has an entry for. -/
def backupFromManifest (uacc : UaccPtr) (updateManifest pkgName version : Option String) :
    UaProg Unit := do
  match ← ext (.getPkgFileManifest updateManifest version) with
  | .found updateFile => do
      let isDelta ← ext (.isDeltaPackage updateFile.file)
      doIf (¬isDelta) (ignoring (backupPackage uacc pkgName updateFile))
  | _ => pure ()

def handlerBackupActions (uacc : UaccPtr) (pkgName version : Option String) : UaProg Rc := do
  op (.mutexLock .backup)
  let updateManifest ← readComp uacc (·.updateManifest)
  doIf updateManifest.isSome (backupFromManifest uacc updateManifest pkgName version)
  op (.mutexUnlock .backup)
  pure (if updateManifest.isSome then eUaOk else eUaErr)

end EsyncUa.Installation
