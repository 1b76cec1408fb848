import EsyncUa.Downloads
import EsyncUa.Outlines
import EsyncUa.Schedules

/-!
The runs of the download of one package: the download thread and the message threads in
every interleaving, with any answers and with crashes between any two operations. The
state has the record and the data file of the package, the flags, and the history of what
the thread did, newest first. The decrypted copy is only handed to the library, so its bytes
are not part of the state. A crash keeps the files and the history; `recordTorn` tells that
the last write of the record was cut short since the last crash.
-/
namespace EsyncUa.DownloadRuns

open EsyncUa.JsonProperties EsyncUa.Programs EsyncUa.Machines EsyncUa.Outlines EsyncUa.Schedules
open EsyncUa.Checksums EsyncUa.DownloadRecords EsyncUa.Downloads

/-- The start of a download, the record and the data file when ua_dl_init ends, a check of the
decrypted file that succeeded, a report with the result of sending it, and the result. -/
inductive DlEvent
  | began (pkgInfo : PkgInfo)
  | initialised (dlRec : DlRecord) (data : Option Bytes)
  | verified
  | reported (report : DlReport) (err : Rc)
  | returned (pkgInfo : PkgInfo) (rc : Rc)
  deriving DecidableEq

structure DlState where
  record : Option Bytes
  recordTorn : Bool
  data : Option Bytes
  stopCompletedStatus : Option Bool
  downloadPostponed : Bool
  history : List DlEvent

/-- The bytes of a file that has the length afterwards. -/
def resize (len : Nat) (file : Bytes) : Bytes :=
  file.take len ++ List.replicate (len - file.length) 0

def did (s : DlState) (e : DlEvent) : DlState := { s with history := e :: s.history }

/-- The state after an operation with an answer; `none` if the answer is not possible. -/
def effect : (o : DlOp) → o.Ans → DlState → Option DlState
  | .accessRecord, (b : Bool), s => if b = true ∧ s.record = none then none else some s
  | .openRecordNew, (b : Bool), s => if b = true then some { s with record := some [] } else some s
  | .openRecordAppend, (b : Bool), s =>
      if b = true then some { s with record := some (s.record.getD []) } else some s
  | .readRecord, (b : Bytes), s =>
      if b <+: (s.record.getD []).take DlRecord.size then some s else none
  | .writeRecord bytes, (n : Nat), s => some { s with
      record := some (s.record.getD [] ++ bytes.take n)
      recordTorn := n < bytes.length }
  | .openData, none, s => some s
  | .openData, some file, s =>
      match s.data with
      | none => none
      | some data => if file <+: data then some s else none
  | .appendData _, none, s => some s
  | .appendData bytes, some n, s =>
      if n ≤ bytes.length then some { s with data := some (s.data.getD [] ++ bytes.take n) }
      else none
  | .truncateData len, _, s => some { s with data := s.data.map (resize len.toNat) }
  | .removeData, _, s => some { s with data := none }
  | .setContext dlRec, _, s =>
      some (did { s with stopCompletedStatus := some false } (.initialised dlRec s.data))
  | .releaseContext, _, s => some { s with stopCompletedStatus := none }
  | .setStopCompletedStatus, _, s =>
      some { s with stopCompletedStatus := s.stopCompletedStatus.map fun _ => true }
  | .setDownloadPostponed postponed, _, s => some { s with downloadPostponed := postponed }
  | .verifyBinary _, (b : Bool), s => if b = true then some (did s .verified) else some s
  | .sendReport report, err, s => some (did s (.reported report err))
  | .begin pkgInfo, _, s => some (did s (.began pkgInfo))
  | .returned pkgInfo rc, _, s => some (did s (.returned pkgInfo rc))
  | .makeDirs, _, s | .sendQueryTrust, _, s | .dmclientDownload, _, s | .receive _ _ _, _, s
  | .downloadResult, _, s | .sessionRequest, _, s | .copyToEncrypted, _, s
  | .sizeEncrypted, _, s | .decryptBinary, _, s | .truncateEncrypted _, _, s
  | .removeEncrypted, _, s | .verifyCaFile _, _, s | .removeZipFolder, _, s => some s

/-- What the server and the library may deliver: to the requested offset, the number of bytes
handed over so far and the last result of dmc_recv_cb. -/
abbrev Server := UInt64 → Nat → DmeCode → Delivery → Prop

def Offers (server : Server) : (o : DlOp) → o.Ans → Prop
  | .receive requested received rc, some ddc => server requested received rc ddc
  | _, _ => True

inductive Tid
  | download
  | message (n : Nat)
  deriving DecidableEq

/-- What the messages of the bus make a thread run. -/
def Arrives (pkgInfo : PkgInfo) : Tid → DlProg Unit → Prop
  | .download, p => ∃ fuel, p = processStartDownload fuel pkgInfo
  | .message _, p => p = uaDlStopSendingCompletedStatus ∨ p = processDownloadPostpone

/-- The runs of the download of one package from states with the given files. -/
def machine (files : DlState → Prop) (server : Server) (pkgInfo : PkgInfo) :
    Machine Tid Flags DlState DlOp.Ans where
  mem := fun s => ⟨s.stopCompletedStatus, s.downloadPostponed⟩
  init := fun s => files s ∧ s.stopCompletedStatus = none ∧ s.history = []
  act := fun _ o b s s' => effect o b s = some s' ∧ Offers server o b
  fork := fun _ _ _ => none
  arrive := fun t p s s' => Arrives pkgInfo t p ∧ s' = s
  restart := fun s s' => s' =
    { s with recordTorn := false, stopCompletedStatus := none, downloadPostponed := false }

/-- The events since the download was started last. -/
def currentRun (h : List DlEvent) : List DlEvent :=
  h.takeWhile fun e => match e with
    | .began _ => false
    | _ => true

/-- The events that an operation with an answer adds to the history. -/
def eventsOf : (o : DlOp) → o.Ans → DlState → List DlEvent
  | .setContext dlRec, _, s => [.initialised dlRec s.data]
  | .verifyBinary _, (b : Bool), _ => if b = true then [.verified] else []
  | .sendReport report, err, _ => [.reported report err]
  | .begin pkgInfo, _, _ => [.began pkgInfo]
  | .returned pkgInfo rc, _, _ => [.returned pkgInfo rc]
  | _, _, _ => []

/-- The stop flag after an operation. -/
def stopAfter : DlOp → Option Bool → Option Bool
  | .setContext _, _ => some false
  | .releaseContext, _ => none
  | .setStopCompletedStatus, stop => stop.map fun _ => true
  | _, stop => stop

/-- An operation adds its events and changes the stop flag in its own way. -/
theorem effect_cases {o : DlOp} {b : o.Ans} {s s' : DlState} (h : effect o b s = some s') :
    s'.history = eventsOf o b s ++ s.history ∧
      s'.stopCompletedStatus = stopAfter o s.stopCompletedStatus := by
  cases o with
  | openData =>
      cases b with
      | none =>
          cases h
          exact ⟨rfl, rfl⟩
      | some file =>
          simp only [effect] at h
          split at h
          · cases h
          · split at h
            · cases h
              exact ⟨rfl, rfl⟩
            · cases h
  | appendData bytes =>
      cases b with
      | none =>
          cases h
          exact ⟨rfl, rfl⟩
      | some n =>
          simp only [effect] at h
          split at h
          · cases h
            exact ⟨rfl, rfl⟩
          · cases h
  | accessRecord | openRecordNew | openRecordAppend | readRecord | verifyBinary i =>
      simp only [effect] at h
      split at h
      all_goals
        cases h
        try simp [eventsOf, stopAfter, did, *]
  | crash => exact b.elim
  | _ =>
      cases h
      exact ⟨rfl, rfl⟩

theorem effect_history {o : DlOp} {b : o.Ans} {s s' : DlState} (h : effect o b s = some s') :
    s'.history = eventsOf o b s ++ s.history := (effect_cases h).1

theorem effect_stop {o : DlOp} {b : o.Ans} {s s' : DlState} (h : effect o b s = some s') :
    s'.stopCompletedStatus = stopAfter o s.stopCompletedStatus := (effect_cases h).2

@[simp] theorem currentRun_began (pkgInfo : PkgInfo) (h : List DlEvent) :
    currentRun (.began pkgInfo :: h) = [] := rfl

theorem currentRun_cons {e : DlEvent} (he : ∀ pkgInfo, e ≠ .began pkgInfo) (h : List DlEvent) :
    currentRun (e :: h) = e :: currentRun h := by
  cases e with
  | began pkgInfo => exact absurd rfl (he pkgInfo)
  | _ => rfl

/-- The answers of a download that succeeds without receiving anything. -/
def succeeding : (o : DlOp) → Option o.Ans
  | .makeDirs | .openRecordNew | .openRecordAppend | .copyToEncrypted | .sizeEncrypted
  | .decryptBinary | .verifyCaFile _ | .verifyBinary _ => some true
  | .accessRecord => some false
  | .readRecord => some []
  | .writeRecord bytes => some bytes.length
  | .openData | .receive _ _ _ => some none
  | .appendData bytes => some (some bytes.length)
  | .dmclientDownload => some 0
  | .downloadResult => some ⟨.ok, .ok, 200⟩
  | .sendReport _ => some eUaOk
  | .crash => none
  | .truncateData _ | .removeData | .setContext _ | .releaseContext | .setStopCompletedStatus
  | .setDownloadPostponed _ | .sendQueryTrust | .sessionRequest | .truncateEncrypted _
  | .removeEncrypted | .removeZipFolder | .begin _ | .returned _ _ => some ()

theorem succeeding_offers (server : Server) (o : DlOp) (b : o.Ans) (h : succeeding o = some b) :
    Offers server o b := by
  cases o with
  | receive requested received rc =>
      cases h
      trivial
  | _ => trivial

/-- The player that gives these answers. -/
def player (files : DlState → Prop) (server : Server) (pkgInfo : PkgInfo) :
    Player (machine files server pkgInfo) where
  answer := fun _ s o => (succeeding o).bind fun b => (effect o b s).map fun s' => (b, s')
  sound := by
    intro t s o b s' h
    obtain ⟨hanswer, heffect⟩ := answered h
    exact ⟨heffect, succeeding_offers server o b hanswer⟩

/-- No file yet and no download. -/
def freshState : DlState := ⟨none, false, none, none, false, []⟩

def arriveMove (files : DlState → Prop) (server : Server) (pkgInfo : PkgInfo) (t : Tid)
    (p : DlProg Unit) (h : Arrives pkgInfo t p) : Move (machine files server pkgInfo) :=
  .arrive t p some fun _ _ hs => ⟨h, (Option.some.inj hs).symm⟩

def samplePkg : PkgInfo := ⟨"pkg", "1", "type", 0⟩

end EsyncUa.DownloadRuns
