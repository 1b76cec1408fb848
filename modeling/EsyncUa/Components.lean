import EsyncUa.JsonProperties
import Mathlib.Logic.Function.Basic

/-!
The state of the update agent: the context of each registered component, the agent-wide
data `ua_intl`, and the small functions of `component.c` and `misc.h` on them.
A `char*` is an optional string, a hash table keyed by package name is a function to
optional entries, and C integers have their width. The thread that a lock belongs to is
part of the lock, so that the locks can be taken and released in the model.
-/
namespace EsyncUa.Components

open EsyncUa.JsonProperties

inductive InstallState
  | ready | inProgress | completed | failed | aborted | rollback
  deriving DecidableEq

inductive DownloadState
  | postponed | consent | denied
  deriving DecidableEq

inductive UaStage
  | unknown | idleInit | readyDownloadStarted | readyDownloadDone
  | prepareUpdateStarted | prepareUpdateDone | readyUpdateStarted | readyUpdateDone
  | confirmUpdateStarted | confirmUpdateDone
  deriving DecidableEq

inductive UpdateErr
  | none | incrementalFailed | updateIncapable | terminalFailure
  deriving DecidableEq

inductive UpdateRollback
  | none | dmcInitiatedWithUaIntent | dmcInitiatedNoUaIntent | uaInitiated
  deriving DecidableEq

inductive UaInternalState
  | notKnown | initialized | handlerRegistered | resumeStarted | resumeDone
  deriving DecidableEq

/-- The number an enumerator has in C. -/
def UaStage.code : UaStage → Int64
  | unknown => 0 | idleInit => 1 | readyDownloadStarted => 2 | readyDownloadDone => 3
  | prepareUpdateStarted => 4 | prepareUpdateDone => 5 | readyUpdateStarted => 6
  | readyUpdateDone => 7 | confirmUpdateStarted => 8 | confirmUpdateDone => 9

/-- The enumerator with a number; a number that no enumerator has is in no record that the
agent writes, and is read as the first one. -/
def UaStage.ofCode (n : Int64) : UaStage :=
  if n = 1 then idleInit else if n = 2 then readyDownloadStarted
  else if n = 3 then readyDownloadDone else if n = 4 then prepareUpdateStarted
  else if n = 5 then prepareUpdateDone else if n = 6 then readyUpdateStarted
  else if n = 7 then readyUpdateDone else if n = 8 then confirmUpdateStarted
  else if n = 9 then confirmUpdateDone else unknown

@[simp] theorem UaStage.ofCode_code (st : UaStage) : ofCode st.code = st := by
  cases st <;> decide

def UpdateErr.code : UpdateErr → Int64
  | none => 0 | incrementalFailed => 1 | updateIncapable => 2 | terminalFailure => 3

def UpdateErr.ofCode (n : Int64) : UpdateErr :=
  if n = 1 then incrementalFailed else if n = 2 then updateIncapable
  else if n = 3 then terminalFailure else none

@[simp] theorem UpdateErr.ofCode_code (ue : UpdateErr) : ofCode ue.code = ue := by
  cases ue <;> decide

def UpdateRollback.code : UpdateRollback → Int64
  | none => 0 | dmcInitiatedWithUaIntent => 1 | dmcInitiatedNoUaIntent => 2 | uaInitiated => 3

def UpdateRollback.ofCode (n : Int64) : UpdateRollback :=
  if n = 1 then dmcInitiatedWithUaIntent else if n = 2 then dmcInitiatedNoUaIntent
  else if n = 3 then uaInitiated else none

@[simp] theorem UpdateRollback.ofCode_code (rb : UpdateRollback) : ofCode rb.code = rb := by
  cases rb <;> decide

/-- As many leading characters as fit into `room` bytes. -/
def prefixWithin : List Char → Nat → String
  | [], _ => ""
  | c :: cs, room =>
      if c.utf8Size ≤ room then c.toString ++ prefixWithin cs (room - c.utf8Size) else ""

theorem prefixWithin_size (cs : List Char) (room : Nat) :
    (prefixWithin cs room).utf8ByteSize ≤ room := by
  induction cs generalizing room with
  | nil => simp [prefixWithin]
  | cons c cs ih =>
      rw [prefixWithin]
      split
      · have h := ih (room - c.utf8Size)
        simp only [String.utf8ByteSize_append, Char.toString, String.utf8ByteSize_singleton]
        omega
      · simp

/-- A boolean as the C integer it is stored in. -/
def intOfBool (b : Bool) : Int32 := if b then 1 else 0

/-- `S(s)`: present and not empty. -/
def isSet : Option String → Bool
  | some s => s ≠ ""
  | none => false

/-- `NULL_STR(s)`. -/
def nullStr (s : Option String) : String :=
  match s with
  | some s => if s = "" then "null" else s
  | none => "null"

/-- The loop of `join_path`, which ends at the first NULL. -/
def joinParts : String → List (Option String) → String
  | ret, some aux :: parts =>
      let sep := if ret.toList.getLast?.all (· = '/') then "" else "/"
      joinParts (ret ++ sep ++ aux) parts
  | ret, _ => ret

/-- `JOIN(a, b ...)`. -/
def join (path : Option String) (parts : List (Option String)) : Option String :=
  path.map fun path => joinParts path parts

/-- `basename(3)`: the last component, without trailing slashes. -/
def baseName (path : String) : String :=
  let chars := path.toList.reverse
  match chars, chars.dropWhile (· = '/') with
  | [], _ => "."
  | _, [] => "/"
  | _, rest => String.ofList (rest.takeWhile (· ≠ '/')).reverse

/-- `f_basename`. -/
def fBasename (path : Option String) : Option String := path.map baseName

def manifestPkg : String := "manifest_pkg.xml"

/-- The digest buffers of `pkg_file_t`. -/
abbrev Sha256B64 : Type := { s : String // s.utf8ByteSize < sha256B64Length }

namespace Sha256B64

def empty : Sha256B64 := ⟨"", by decide⟩

/-- `strcpy_s` into a digest buffer. -/
def copy (src : String) : Sha256B64 :=
  if h : src.utf8ByteSize < sha256B64Length then ⟨src, h⟩
  else ⟨prefixWithin src.toList (sha256B64Length - 1),
    Nat.lt_of_le_of_lt (prefixWithin_size _ _) (by decide)⟩

@[simp] theorem copy_val (sha : Sha256B64) : copy sha.val = sha := by
  rw [copy, dif_pos sha.property]

end Sha256B64

structure PkgInfo where
  type : Option String
  name : Option String
  version : Option String
  rollbackVersion : Option String
  rollbackVersions : Option (List Json)

def PkgInfo.zero : PkgInfo := ⟨none, none, none, none, none⟩

structure PkgFile where
  downloaded : Int32
  rollbackOrder : Int32
  version : Option String
  file : Option String
  sha256b64 : Sha256B64
  deltaSha256b64 : Sha256B64
  shaOfSha : Sha256B64

def PkgFile.zero : PkgFile := ⟨0, 0, none, none, .empty, .empty, .empty⟩

/-- A hash table keyed by package name. -/
abbrev Table (α : Type) : Type := String → Option α

def Table.empty {α : Type} : Table α := fun _ => none

def Table.set {α : Type} (table : Table α) (name : String) (entry : α) : Table α :=
  Function.update table name (some entry)

@[simp] theorem Table.set_self {α : Type} (table : Table α) (name : String) (entry : α) :
    table.set name entry name = some entry := Function.update_self ..

@[simp] theorem Table.set_of_ne {α : Type} (table : Table α) {name name' : String} (entry : α)
    (h : name' ≠ name) : table.set name entry name' = table name' :=
  Function.update_of_ne h ..

theorem Table.set_apply {α : Type} (table : Table α) (name name' : String) (entry : α) :
    table.set name entry name' = if name' = name then some entry else table name' :=
  Function.update_apply ..

def Table.delete {α : Type} (table : Table α) (name : String) : Table α :=
  Function.update table name none

theorem Table.delete_apply {α : Type} (table : Table α) (name name' : String) :
    table.delete name name' = if name' = name then none else table name' :=
  Function.update_apply ..

structure CompStateInfo where
  preparedVer : Option String
  stage : UaStage
  campaignId : Option String

@[ext]
structure CompCtrl where
  rbDisable : Int32
  rbType : UpdateRollback
  enableFakeRbVersion : Int32
  rbDownloadRequired : Int32
  customMsg : Option String
  deriving DecidableEq

def CompCtrl.zero : CompCtrl := ⟨0, .none, 0, 0, none⟩

/-- A component is known by its index in the list of registered handlers. -/
abbrev UaccPtr := Nat

/-- The threads of the agent: for each component its message runner, the workers spawned one
after the other and the thread that resumes after a reboot; the thread of the bus client, the
threads it spawns for presence events, and the one that asks for the sequence numbers. -/
inductive Tid
  | runner (uacc : UaccPtr)
  | worker (uacc : UaccPtr) (n : Nat)
  | resume (uacc : UaccPtr)
  | bus
  | presence (n : Nat)
  | sequence (n : Nat)
  deriving DecidableEq

/-- The message handlers that `process_run` can be given. -/
inductive ProcessF
  | queryPackage | readyDownload | readyUpdate | prepareUpdate | confirmUpdate
  | downloadReport | sotaReport | logReport | sequenceInfo | updateStatus | queryUpdates
  deriving DecidableEq

structure WorkerInfo where
  workerRunning : Bool
  workerFunc : ProcessF
  workerJobj : Option Json

/-- `lock` is owned by at most one thread and `cond` has the threads that wait for a signal. -/
structure AsyncUpdateStatus where
  lock : Option Tid
  cond : List Tid
  replyId : Option String
  successful : Bool

/-- Which callbacks the component has registered. -/
structure UaRoutine where
  onGetVersion : Bool
  onSetVersion : Bool
  onPreInstall : Bool
  onInstall : Bool
  onPostInstall : Bool
  onTransferFile : Bool
  onPrepareInstall : Bool
  onPrepareDownload : Bool
  onMessage : Bool
  onConfirmUpdate : Bool

structure UaComponentContext where
  type : String
  curMsg : Option Json
  uar : UaRoutine
  worker : WorkerInfo
  updateStatusInfo : AsyncUpdateStatus
  updateFileInfo : PkgFile
  updatePkg : PkgInfo
  updateError : UpdateErr
  updateManifest : Option String
  backupManifest : Option String
  recordFile : Option String
  seqIn : Table Int32
  stInfo : Table CompStateInfo
  isRollbackInstallation : Bool
  cleanupOkAfterUpdate : Bool
  maxRetry : Int32
  retryCnt : Int32

/-- The context that `ua_register` builds. -/
def UaComponentContext.registered (type : String) (uar : UaRoutine) (recordFile : Option String)
    (maxRetry : Int32) : UaComponentContext where
  type := type
  curMsg := none
  uar := uar
  worker := ⟨false, .queryPackage, none⟩
  updateStatusInfo := ⟨none, [], none, false⟩
  updateFileInfo := .zero
  updatePkg := .zero
  updateError := .none
  updateManifest := none
  backupManifest := none
  recordFile := recordFile
  seqIn := .empty
  stInfo := .empty
  isRollbackInstallation := false
  cleanupOkAfterUpdate := false
  maxRetry := maxRetry
  retryCnt := 0

structure UaInternal where
  delta : Bool
  cacheDir : Option String
  backupDir : Option String
  recordFile : Option String
  state : UaInternalState
  rebootSupport : Bool
  packageVerificationDisabled : Bool
  backupSource : Nat
  lock : Option Tid
  backupLock : Option Tid
  componentCtrl : Table CompCtrl
  queryReplyId : Option String
  seqInfoValid : Bool
  seqOut : Table Int32
  queryUpdates : Option Json
  curCampaignId : Option String
  maxRetry : Int32
  dmcHandlerDone : Bool
  asyncQueryPackage : Bool
  qpFailureResponse : Bool

def compGetUpdateStage (csHead : Table CompStateInfo) (pkgName : Option String) : UaStage :=
  match pkgName.bind csHead with
  | some cs => cs.stage
  | none => .unknown

def compSetUpdateStage (csHead : Table CompStateInfo) (pkgName : Option String)
    (stage : UaStage) : Table CompStateInfo :=
  match pkgName with
  | none => csHead
  | some pkgName =>
      match csHead pkgName with
      | some cs => csHead.set pkgName { cs with stage := stage }
      | none => csHead.set pkgName ⟨none, stage, none⟩

def compGetRbType (csHead : Table CompCtrl) (pkgName : Option String) : UpdateRollback :=
  match pkgName.bind csHead with
  | some cs => cs.rbType
  | none => .none

def compSetRbType (csHead : Table CompCtrl) (pkgName : Option String)
    (rbType : UpdateRollback) : Table CompCtrl :=
  match pkgName with
  | none => csHead
  | some pkgName =>
      match csHead pkgName with
      | some cs => csHead.set pkgName { cs with rbType := rbType }
      | none => csHead.set pkgName { CompCtrl.zero with rbType := rbType }

/-- `none` is the comparison of an entry that has no campaign id. -/
def compGetPreparedVersion (csHead : Table CompStateInfo) (pkgName cid : Option String) :
    Option (Option String) :=
  match pkgName, cid with
  | some pkgName, some cid =>
      match csHead pkgName with
      | some cs =>
          cs.campaignId.map fun campaignId => if campaignId = cid then cs.preparedVer else none
      | none => some none
  | _, _ => some none

def compSetPreparedVersion (csHead : Table CompStateInfo)
    (pkgName preparedVer cid : Option String) : Table CompStateInfo :=
  match pkgName, cid with
  | some pkgName, some cid =>
      match csHead pkgName with
      | some cs => csHead.set pkgName { cs with preparedVer := preparedVer, campaignId := some cid }
      | none =>
          match preparedVer with
          | some preparedVer => csHead.set pkgName ⟨some preparedVer, .unknown, some cid⟩
          | none => csHead
  | _, _ => csHead

/-- `get_component_custom_message`. -/
def getComponentCustomMessage (ctrl : Table CompCtrl) (pkgName : Option String) : Option String :=
  (pkgName.bind ctrl).bind CompCtrl.customMsg

/-- `ua_set_custom_message`. -/
def uaSetCustomMessage (ctrl : Table CompCtrl) (pkgName message : Option String) :
    Table CompCtrl :=
  match pkgName with
  | none => ctrl
  | some pkgName =>
      match ctrl pkgName, message with
      | some cs, message => ctrl.set pkgName { cs with customMsg := message }
      | none, some message => ctrl.set pkgName { CompCtrl.zero with customMsg := some message }
      | none, none => ctrl

/-- `ua_rollback_disabled`. -/
def uaRollbackDisabled (ctrl : Table CompCtrl) (pkgName : Option String) : Int32 :=
  match pkgName.bind ctrl with
  | some rbc => rbc.rbDisable
  | none => 0

/-- `handler_chk_incoming_seq_outdated`: the new table and whether the number is outdated. -/
def handlerChkIncomingSeqOutdated (seq : Table Int32) (name : String) (num : Int32) :
    Table Int32 × Bool :=
  match seq name with
  | some s => if s ≥ num then (seq, true) else (seq.set name num, false)
  | none => (seq.set name num, false)

/-- `handler_update_outgoing_seq_num`: the new table and the number to send. -/
def handlerUpdateOutgoingSeqNum (seq : Table Int32) (name : String) (updateNum : Int32) :
    Table Int32 × Int32 :=
  let num :=
    match seq name with
    | some s => if updateNum > 0 then updateNum else s + 1
    | none => if updateNum > 0 then updateNum else 0
  (seq.set name num, num)

/-- `reply_id_matched`. -/
def replyIdMatched : Option String → Option String → Bool
  | some s1, some s2 => s1 = s2
  | _, _ => false

theorem compGetUpdateStage_set (csHead : Table CompStateInfo) (name name' : String)
    (stage : UaStage) :
    compGetUpdateStage (compSetUpdateStage csHead (some name) stage) (some name') =
      if name' = name then stage else compGetUpdateStage csHead (some name') := by
  simp only [compSetUpdateStage, compGetUpdateStage, Option.bind_some]
  cases h : csHead name <;> by_cases hn : name' = name <;> simp [hn]

theorem compGetUpdateStage_setPrepared (csHead : Table CompStateInfo)
    (pkgName preparedVer cid : Option String) (name' : String) :
    compGetUpdateStage (compSetPreparedVersion csHead pkgName preparedVer cid) (some name') =
      compGetUpdateStage csHead (some name') := by
  rcases pkgName with _ | name
  · rfl
  rcases cid with _ | cid
  · rfl
  simp only [compSetPreparedVersion, compGetUpdateStage, Option.bind_some]
  cases h : csHead name with
  | some cs => by_cases hn : name' = name <;> simp [hn, h]
  | none =>
      cases preparedVer with
      | none => rfl
      | some v => by_cases hn : name' = name <;> simp [hn, h]

end EsyncUa.Components
