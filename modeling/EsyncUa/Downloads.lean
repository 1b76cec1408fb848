import EsyncUa.DownloadRecords
import EsyncUa.JsonProperties
import EsyncUa.Machines

/-!
The resumable download of one package by the agent itself, `ua_download.c`.
The download thread runs the step machine over three files: the record, the data received
so far, and the copy that is decrypted and verified. Message threads set the flag that ends
the completed reports and the flag that postpones the download. The download library, the
checks of the decrypted file and the outcomes of the file operations are answers from outside;
an interrupted write leaves a front part of its bytes.
-/
namespace EsyncUa.Downloads

open EsyncUa.JsonProperties EsyncUa.Programs EsyncUa.Machines EsyncUa.Checksums
open EsyncUa.DownloadRecords

/-- Results of the download library, of which the agent itself uses three. -/
inductive DmeCode
  | ok | sys | stop | other (code : Int)
  deriving DecidableEq

/-- The part of pkg_info_t that the download uses. -/
structure PkgInfo where
  name : String
  version : String
  type : String
  length : UInt64
  deriving DecidableEq

/-- ua_dl_info_t. -/
structure DlInfo where
  totalBytes : UInt64
  downloadedBytes : UInt64
  expectedBytes : UInt64
  noDownload : UInt64
  completedDownload : UInt64
  error : Option String
  deriving DecidableEq

/-- ua_dl_context_t as the download thread uses it; the flag stop_completed_status is shared. -/
structure UaDlContext where
  pkgInfo : PkgInfo
  dlRec : DlRecord
  dlInfo : DlInfo
  bytesToReport : Int32

/-- The download report of send_dl_report. -/
structure DlReport where
  pkgInfo : PkgInfo
  totalBytes : UInt64
  downloadedBytes : UInt64
  expectedBytes : UInt64
  noDownload : Bool
  completedDownload : Bool
  error : Option String
  deriving DecidableEq

/-- One call of dmc_recv_cb by the library. -/
structure Delivery where
  contentByteOffset : UInt64
  eTag : Option Bytes
  result : DmeCode
  data : Option Bytes

structure DownloadResult where
  rc : DmeCode
  result : DmeCode
  httpCode : Int32

/-- What the download thread reads of the memory it shares. -/
structure Flags where
  stopCompletedStatus : Option Bool
  downloadPostponed : Bool

inductive DlOp
  | makeDirs
  | accessRecord
  | openRecordNew
  | openRecordAppend
  | readRecord
  | writeRecord (bytes : Bytes)
  | openData
  | appendData (bytes : Bytes)
  | truncateData (len : UInt64)
  | removeData
  | setContext (dlRec : DlRecord)
  | releaseContext
  | setStopCompletedStatus
  | setDownloadPostponed (postponed : Bool)
  | sendQueryTrust
  | dmclientDownload
  | receive (requested : UInt64) (received : Nat) (rc : DmeCode)
  | downloadResult
  | sessionRequest
  | copyToEncrypted
  | sizeEncrypted
  | decryptBinary
  | truncateEncrypted (len : UInt64)
  | removeEncrypted
  | verifyCaFile (i : Nat)
  | verifyBinary (i : Nat)
  | removeZipFolder
  | sendReport (report : DlReport)
  | begin (pkgInfo : PkgInfo)
  | returned (pkgInfo : PkgInfo) (rc : Rc)
  | crash
  deriving DecidableEq

/-- The answer to an operation. `openData` answers what can be read of the data file,
`writeRecord` and `appendData` how many bytes reach the file, `dmclientDownload` a bound on
the calls of dmc_recv_cb, and nothing answers the use of a null pointer. -/
@[reducible] def DlOp.Ans : DlOp → Type
  | makeDirs | accessRecord | openRecordNew | openRecordAppend => Bool
  | readRecord => Bytes
  | writeRecord _ => Nat
  | openData => Option Bytes
  | appendData _ => Option Nat
  | dmclientDownload => Nat
  | receive _ _ _ => Option Delivery
  | downloadResult => DownloadResult
  | copyToEncrypted | sizeEncrypted | decryptBinary | verifyCaFile _ | verifyBinary _ => Bool
  | sendReport _ => Rc
  | crash => Empty
  | truncateData _ | removeData | setContext _ | releaseContext | setStopCompletedStatus
  | setDownloadPostponed _ | sendQueryTrust | sessionRequest | truncateEncrypted _
  | removeEncrypted | removeZipFolder | begin _ | returned _ _ => Unit

abbrev DlProg := Prog Flags DlOp.Ans

/-- One operation. -/
def op (o : DlOp) : DlProg o.Ans := Prog.perform o

def eUaArg : Rc := -3

/-- send_dl_report. -/
def sendDlReport (pkgInfo : PkgInfo) (dlInfo : DlInfo) (isDone : Bool) : DlProg Rc :=
  if pkgInfo.name = "" ∨ pkgInfo.version = "" ∨ pkgInfo.type = "" then pure eUaArg
  else op (.sendReport {
    pkgInfo := pkgInfo
    totalBytes := dlInfo.totalBytes
    downloadedBytes := dlInfo.downloadedBytes
    expectedBytes := dlInfo.expectedBytes
    noDownload := dlInfo.noDownload ≠ 0
    completedDownload := dlInfo.completedDownload ≠ 0 && isDone
    error := dlInfo.error })

/-- ua_dl_save_dl_rc. -/
def uaDlSaveDlRc (dlRec : DlRecord) : DlProg Rc := do
  let opened : Bool ← op .openRecordNew
  if opened = true then
    let _ ← op (.writeRecord dlRec.encode)
    pure eUaOk
  else pure eUaErr

/-- A uint64_t passed as an int. -/
def asInt (n : UInt64) : Int32 := n.toUInt32.toInt32

/-- The branches of ua_dl_init that start over with an existing record file. -/
def startOver (dlRec : DlRecord) : DlProg DlRecord := do
  let dlRec := uaDlInitDlRec dlRec
  let _ ← op (.writeRecord dlRec.encode)
  let _ ← op .removeData
  pure dlRec

/-- The record that is zeroed with the context. -/
def zeroRecord : DlRecord := DlRecord.decode []

/-- Drop the last package, when the record tells of one that may not be complete. -/
def dropLastPackage (dlRec : DlRecord) : DlProg DlRecord :=
  if dlRec.lastBytesWritten ≠ dlRec.bytesWritten ∨ dlRec.crc32 ≠ dlRec.lastCrc32 then do
    let dlRec := { dlRec with bytesWritten := dlRec.lastBytesWritten, crc32 := dlRec.lastCrc32 }
    let _ ← uaDlSaveDlRc dlRec
    pure dlRec
  else pure dlRec

/-- The branch of ua_dl_init that continues with the data file. -/
def continueDownload (dlRec : DlRecord) (file : Bytes) : DlProg DlRecord := do
  let dlRec ← dropLastPackage dlRec
  if uaDlCalcFileCrc32 file (asInt dlRec.bytesWritten) = some dlRec.crc32 then
    let dlRec :=
      if stepDownloaded < dlRec.step then { dlRec with step := stepDownloaded } else dlRec
    let _ ← op (.writeRecord dlRec.encode)
    let _ ← op (.truncateData dlRec.bytesWritten)
    pure dlRec
  else startOver dlRec

/-- The part of ua_dl_init that settles the record and the data file. -/
def settleRecord : DlProg (Option DlRecord) := do
  let exists_ : Bool ← op .accessRecord
  if exists_ = true then
    let opened : Bool ← op .openRecordAppend
    if opened = true then
      let bytes : Bytes ← op .readRecord
      if bytes.length ≠ DlRecord.size then some <$> startOver (DlRecord.decode bytes)
      else
        let file : Option Bytes ← op .openData
        match file with
        | none => some <$> startOver (DlRecord.decode bytes)
        | some file => some <$> continueDownload (DlRecord.decode bytes) file
    else pure none
  else
    let opened : Bool ← op .openRecordNew
    if opened = true then some <$> startOver zeroRecord
    else pure none

/-- ua_dl_init. -/
def uaDlInit (pkgInfo : PkgInfo) : DlProg (Option UaDlContext) := do
  let made : Bool ← op .makeDirs
  if made = true then
    let dlRec ← settleRecord
    match dlRec with
    | none => pure none
    | some dlRec =>
        let _ ← op (.setContext dlRec)
        pure (some {
          pkgInfo := pkgInfo
          dlRec := dlRec
          dlInfo := {
            totalBytes := pkgInfo.length
            downloadedBytes := dlRec.bytesWritten
            expectedBytes := pkgInfo.length
            noDownload := 0
            completedDownload := 0
            error := none }
          bytesToReport := 0 })
  else pure none

/-- ua_dl_save_data. -/
def uaDlSaveData (data : Bytes) : DlProg Rc := do
  let written : Option Nat ← op (.appendData data)
  if written = some data.length then pure eUaOk else pure eUaErr

def uaDlReportBlkSize : Int32 := 512 * 1024

def dleDownload : String := "DLE_DOWNLOAD"
def dleVerify : String := "DLE_VERIFY"

/-- strcpy_s into the zeroed e_tag. -/
def copyETag (eTag : Option Bytes) : Bytes :=
  match eTag with
  | none => DlRecord.padded eTagMaxSize []
  | some tag => DlRecord.padded eTagMaxSize (tag.take (eTagMaxSize - 1))

/-- The context after a chunk of dmc_recv_cb has been saved. -/
def afterChunk (dlc : UaDlContext) (eTag : Option Bytes) (data : Bytes) : UaDlContext :=
  let downloaded := dlc.dlInfo.downloadedBytes + .ofNat data.length
  { dlc with
    dlInfo := { dlc.dlInfo with
      downloadedBytes := downloaded
      noDownload := 0
      completedDownload := if dlc.dlInfo.totalBytes ≤ downloaded then 1 else 0
      error := none }
    bytesToReport := dlc.bytesToReport + .ofNat data.length
    dlRec := { dlc.dlRec with
      lastBytesWritten := dlc.dlRec.bytesWritten
      bytesWritten := downloaded
      eTag := copyETag eTag
      eTagValid := if eTag.isSome then 1 else 0
      lastCrc32 := dlc.dlRec.crc32
      crc32 := bufCrc32 data dlc.dlRec.crc32 } }

/-- The branch of dmc_recv_cb for an answer that starts at another offset. -/
def moveOffset (dlc : UaDlContext) (requested : UInt64) (ddc : Delivery) :
    DlProg (UaDlContext × DmeCode) := do
  let offset := ddc.contentByteOffset
  let dlInfo := { dlc.dlInfo with
    downloadedBytes := dlc.dlInfo.downloadedBytes - (requested - offset) }
  let _ ← op (.truncateData offset)
  let file : Option Bytes ← op .openData
  let crc := file.bind fun file => uaDlCalcFileCrc32 file (asInt offset)
  let dlRec := { dlc.dlRec with
    bytesWritten := offset
    lastBytesWritten := offset
    crc32 := crc.getD 0
    lastCrc32 := crc.getD 0 }
  let _ ← uaDlSaveDlRc dlRec
  pure ({ dlc with dlInfo := dlInfo, dlRec := dlRec }, if crc.isSome then .ok else .sys)

/-- The part of dmc_recv_cb after the offset has been compared. -/
def recvData (dlc : UaDlContext) (ddc : Delivery) (data : Bytes) :
    DlProg (UaDlContext × DmeCode) := do
  if ddc.result = .ok then
    let saved ← (if data = [] then pure eUaErr else uaDlSaveData data)
    if saved = eUaOk then
      let dlc := afterChunk dlc ddc.eTag data
      let _ ← uaDlSaveDlRc dlc.dlRec
      if uaDlReportBlkSize ≤ dlc.bytesToReport ∨ dlc.dlInfo.completedDownload ≠ 0 then
        let _ ← sendDlReport dlc.pkgInfo dlc.dlInfo false
        pure ({ dlc with bytesToReport := 0 }, .ok)
      else pure (dlc, .ok)
    else pure (dlc, .sys)
  else
    let dlc := { dlc with dlInfo := { dlc.dlInfo with error := some dleDownload } }
    let _ ← sendDlReport dlc.pkgInfo dlc.dlInfo false
    pure (dlc, ddc.result)

/-- dmc_recv_cb; the result also has the offset of the request afterwards. -/
def dmcRecvCb (dlc : UaDlContext) (requested : UInt64) (ddc : Delivery) :
    DlProg (UaDlContext × UInt64 × DmeCode) := do
  match ddc.data with
  | none => pure (dlc, requested, .sys)
  | some data =>
      let (dlc, rc) ← (if requested ≠ ddc.contentByteOffset then moveOffset dlc requested ddc
        else pure (dlc, .ok))
      if rc ≠ .ok then pure (dlc, ddc.contentByteOffset, rc)
      else
        let (dlc, rc) ← recvData dlc ddc data
        let postponed ← Prog.read fun m : Flags => m.downloadPostponed
        pure (dlc, ddc.contentByteOffset, if postponed then .stop else rc)

/-- The library's calls of dmc_recv_cb; `received` counts the bytes it has handed over. -/
def receiveAll : Nat → UaDlContext → UInt64 → Nat → DmeCode → DlProg UaDlContext
  | 0, dlc, _, _, _ => pure dlc
  | n + 1, dlc, requested, received, rc => do
      let ddc : Option Delivery ← op (.receive requested received rc)
      match ddc with
      | none => pure dlc
      | some ddc =>
          let (dlc, requested, rc) ← dmcRecvCb dlc requested ddc
          receiveAll n dlc requested (received + (ddc.data.getD []).length) rc

/-- ua_dl_step_download. -/
def uaDlStepDownload (dlc : UaDlContext) : DlProg (UaDlContext × Rc) := do
  let calls : Nat ← op .dmclientDownload
  let dlc ← receiveAll calls dlc dlc.dlRec.bytesWritten 0 .ok
  let ddc : DownloadResult ← op .downloadResult
  if ddc.rc = .ok ∧ ddc.result = .ok ∧ (ddc.httpCode = 200 ∨ ddc.httpCode = 206) then
    let dlRec := { dlc.dlRec with
      lastBytesWritten := dlc.dlRec.bytesWritten
      lastCrc32 := dlc.dlRec.crc32
      step := stepDownloaded }
    let rc ← uaDlSaveDlRc dlRec
    pure ({ dlc with dlRec := dlRec }, rc)
  else
    let dlRec := { dlc.dlRec with
      bytesWritten := dlc.dlRec.lastBytesWritten
      crc32 := dlc.dlRec.lastCrc32 }
    let dlInfo := { dlc.dlInfo with downloadedBytes := dlc.dlRec.lastBytesWritten }
    let _ ← uaDlSaveDlRc dlRec
    let _ ← op (.truncateEncrypted dlRec.bytesWritten)
    let _ ← op .sessionRequest
    pure ({ dlc with dlRec := dlRec, dlInfo := dlInfo }, eUaErr)

def withError (dlc : UaDlContext) (error : String) : UaDlContext :=
  { dlc with dlInfo := { dlc.dlInfo with error := some error } }

/-- ua_dl_step_encrypt. -/
def uaDlStepEncrypt (dlc : UaDlContext) : DlProg (UaDlContext × Rc) := do
  let copied : Bool ← op .copyToEncrypted
  if copied ≠ true then pure (dlc, eUaErr)
  else
    let sized : Bool ← op .sizeEncrypted
    if sized ≠ true then pure (dlc, eUaErr)
    else
      let decrypted : Bool ← op .decryptBinary
      if decrypted ≠ true then
        let dlc := withError dlc dleVerify
        let _ ← sendDlReport dlc.pkgInfo dlc.dlInfo false
        let _ ← op .removeEncrypted
        pure (dlc, eUaErr)
      else
        let dlc := { dlc with dlRec := { dlc.dlRec with step := stepEncrypted } }
        let ret ← uaDlSaveDlRc dlc.dlRec
        if ret = eUaOk then
          let _ ← op (.truncateEncrypted dlc.pkgInfo.length)
          pure (dlc, ret)
        else pure (dlc, ret)

/-- MAX_VERIFY_CA_COUNT. -/
def maxVerifyCaCount : Nat := 1

/-- The loop of ua_dl_step_verify over the files of trusted certificates. -/
def verifyLoop : Nat → Nat → UaDlContext → DlProg (UaDlContext × Rc)
  | 0, _, dlc => pure (dlc, eUaErr)
  | n + 1, i, dlc => do
      let caFile : Bool ← op (.verifyCaFile i)
      if caFile ≠ true then pure (dlc, eUaErr)
      else
        let verified : Bool ← op (.verifyBinary i)
        if verified = true then
          let dlc := { dlc with dlRec := { dlc.dlRec with step := stepVerified } }
          let ret ← uaDlSaveDlRc dlc.dlRec
          pure (dlc, ret)
        else verifyLoop n (i + 1) dlc

/-- ua_dl_step_verify. -/
def uaDlStepVerify (dlc : UaDlContext) : DlProg (UaDlContext × Rc) := do
  let (dlc, ret) ← verifyLoop maxVerifyCaCount 0 dlc
  if ret = eUaOk then
    let _ ← op .removeZipFolder
    let _ ← op .removeData
    pure (dlc, ret)
  else
    let dlc := withError dlc dleVerify
    let _ ← sendDlReport dlc.pkgInfo dlc.dlInfo false
    let _ ← op .removeEncrypted
    let _ ← op .removeData
    pure (dlc, ret)

/-- ua_dl_step_done. -/
def uaDlStepDone (dlc : UaDlContext) : DlProg (UaDlContext × Rc) := do
  let dlInfo := { dlc.dlInfo with
    totalBytes := dlc.dlRec.bytesWritten
    downloadedBytes := dlc.dlRec.bytesWritten
    noDownload := 0
    completedDownload := 1
    error := none }
  let rc ← sendDlReport dlc.pkgInfo dlInfo true
  pure ({ dlc with dlInfo := dlInfo }, rc)

/-- ua_dl_step_action, which calls itself after each step; without fuel it is still running. -/
def uaDlStepAction : Nat → UaDlContext → DlProg (Option Rc)
  | 0, _ => pure none
  | fuel + 1, dlc =>
      if dlc.dlRec.step = stepNone then do
        let (dlc, rc) ← uaDlStepDownload dlc
        if rc ≠ eUaOk then pure (some eUaErr) else uaDlStepAction fuel dlc
      else if dlc.dlRec.step = stepDownloaded then do
        let (dlc, rc) ← uaDlStepEncrypt dlc
        if rc ≠ eUaOk then pure (some eUaErr) else uaDlStepAction fuel dlc
      else if dlc.dlRec.step = stepEncrypted then do
        let (dlc, rc) ← uaDlStepVerify dlc
        if rc ≠ eUaOk then pure (some eUaErr) else uaDlStepAction fuel dlc
      else if dlc.dlRec.step = stepVerified ∨ dlc.dlRec.step = stepDone then do
        let stop ← Prog.read fun m : Flags => m.stopCompletedStatus
        if stop = some true then pure (some eUaOk)
        else
          let (dlc, _) ← uaDlStepDone dlc
          uaDlStepAction fuel dlc
      else pure (some eUaErr)

/-- ua_dl_start_download. The name and version of a context are never set, so that a second
call while a download is running compares a null pointer. -/
def uaDlStartDownload (fuel : Nat) (pkgInfo : PkgInfo) : DlProg Unit := do
  let running ← Prog.read fun m : Flags => m.stopCompletedStatus
  if running.isSome then
    let _ ← op .crash
    pure ()
  else
    let _ ← op (.begin pkgInfo)
    let dlc ← uaDlInit pkgInfo
    match dlc with
    | none =>
        let _ ← op (.returned pkgInfo eUaErr)
        pure ()
    | some dlc =>
        let _ ← op .sendQueryTrust
        let ret ← uaDlStepAction fuel dlc
        match ret with
        | none => pure ()
        | some ret =>
            let _ ← op .releaseContext
            let _ ← op (.returned pkgInfo ret)
            pure ()

/-- ua_dl_stop_sending_completed_status, which a prepare-update message calls. -/
def uaDlStopSendingCompletedStatus : DlProg Unit := do
  let stop ← Prog.read fun m : Flags => m.stopCompletedStatus
  if stop = some false then
    let _ ← op .setStopCompletedStatus
    pure ()
  else pure ()

/-- process_start_download once the message is to be processed. -/
def processStartDownload (fuel : Nat) (pkgInfo : PkgInfo) : DlProg Unit := do
  let _ ← op (.setDownloadPostponed false)
  uaDlStartDownload fuel pkgInfo

/-- process_download_postpone. -/
def processDownloadPostpone : DlProg Unit := do
  let _ ← op (.setDownloadPostponed true)
  pure ()

end EsyncUa.Downloads
