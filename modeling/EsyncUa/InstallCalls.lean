import EsyncUa.Callbacks
import EsyncUa.Phases

/-!
The callbacks of an installation. A thread that takes up a ready-update asks the application
before it installs, installs, sets the version and calls afterwards; after a reboot, and where
there is nothing to install, only the last of these calls is made.
-/
namespace EsyncUa.InstallCalls

open EsyncUa.JsonProperties EsyncUa.Components EsyncUa.Programs EsyncUa.Operations
open EsyncUa.Installation EsyncUa.Updater EsyncUa.Messages EsyncUa.Agents EsyncUa.Footprints
open EsyncUa.Frames EsyncUa.Phases EsyncUa.Callbacks

/-- A call of a callback with its answer. -/
abbrev Call : Type := Σ f : Callback, f.Ans

def installCallbacks : List Callback := [.onPreInstall, .onInstall, .onSetVersion, .onPostInstall]

/-- The call before an installation. -/
def asked (uar : UaRoutine) (pre : InstallState) : List Call :=
  if uar.onPreInstall then [⟨.onPreInstall, pre⟩] else []

/-- The installation, and the new version if it is completed. -/
def installed (uar : UaRoutine) (state : InstallState) (rc : Rc) : List Call :=
  if uar.onInstall then
    ⟨.onInstall, state⟩ ::
      if state = .completed ∧ uar.onSetVersion then [⟨.onSetVersion, rc⟩] else []
  else []

/-- The call after an installation. -/
def posted (uar : UaRoutine) : List Call :=
  if uar.onPostInstall then [⟨.onPostInstall, ()⟩] else []

/-- The calls of one installation by an application with these handlers, which answers `pre` to
the first one, `state` to the installation and `rc` to the new version. -/
def installation (uar : UaRoutine) (pre state : InstallState) (rc : Rc) : List Call :=
  asked uar pre ++ if pre = .inProgress then installed uar state rc ++ posted uar else []

/-- What a thread has done since its start or its last ready-update, whichever is later: whether
it has taken up a ready-update, and its calls. -/
structure Talk where
  parsed : Bool
  calls : List Call

namespace Talk

def start : Talk := ⟨false, []⟩

def add (x : Talk) (call : Call) : Talk := { x with calls := x.calls ++ [call] }

def after (x : Talk) : (o : Op) → o.Ans → Talk
  | .mark (.readyUpdateParsed _ _ _), _ => ⟨true, []⟩
  | .ext (.callback _ f _), b => if f ∈ installCallbacks then x.add ⟨f, b⟩ else x
  | _, _ => x

/-- A thread begins anew when it is started; its own operations count, those of others do not. -/
def next (t : Tid) (x : Talk) : Event → Talk
  | .did t' o b =>
      if t' = t then x.after o b
      else if (fork t' o b).map Prod.fst = some t then start else x
  | .rebooted => start
  | _ => x

/-- The calls so far are the first ones of an installation that a ready-update has asked for, or
just the one at the end. -/
def InOrder (uar : UaRoutine) (x : Talk) : Prop :=
  x.calls <+: [⟨.onPostInstall, ()⟩] ∨
  x.parsed ∧ ∃ pre state rc, x.calls <+: installation uar pre state rc

/-- If something has been installed, the installation has come to its end. -/
def Ended (uar : UaRoutine) (x : Talk) : Prop :=
  ∀ state, ⟨.onInstall, state⟩ ∈ x.calls → ∃ rc, x.calls = installation uar .inProgress state rc

theorem ended_silent (uar : UaRoutine) (parsed : Bool) : Ended uar ⟨parsed, []⟩ :=
  fun _ h => absurd h List.not_mem_nil

end Talk

/-- What a thread has done in a history, which is newest first. -/
def talk (t : Tid) : List Event → Talk
  | [] => .start
  | e :: es => (talk t es).next t e

/-! The programs without such a call. -/

/-- An operation that is no callback of an installation and takes up no ready-update. -/
def Quiet : Op → Prop
  | .ext (.callback _ f _) => f ∉ installCallbacks
  | .mark (.readyUpdateParsed _ _ _) => False
  | _ => True

attribute [local simp] Quiet installCallbacks

section Quiets

variable (u : UaccPtr)

@[simp] theorem quiet_sendInstallStatus (state : InstallState) (pkgFile : Option PkgFile)
    (ue : UpdateErr) : (sendInstallStatus u state pkgFile ue).All Quiet := by
  have hlist : (statusVersionList state pkgFile ue).All Quiet := by
    cases pkgFile <;> simp [statusVersionList]
  simp [sendInstallStatus, hlist, statusSequence, statusReplyId]

theorem quiet_prepareInstallAction (pkgFile : PkgFile) (bck : Bool) (updateFile : PkgFile)
    (ue : UpdateErr) : (prepareInstallAction u pkgFile bck updateFile ue).All Quiet := by
  have hpatch : ∀ pkgManifest version diffFile newFile,
      (patchDelta pkgManifest version diffFile newFile).All Quiet := by
    intro pkgManifest version diffFile newFile
    simp only [patchDelta, Prog.all_ite, Prog.all_bind, all_ext]
    refine ⟨fun _ => ⟨trivial, fun reply _ => ?_⟩, by simp⟩
    cases reply <;> simp
  have hmanifest : ∀ updateFile, (prepareManifest u updateFile).All Quiet := by
    intro updateFile
    simp only [prepareManifest, Prog.all_ite, Prog.all_bind, all_readComp, all_ext, true_and]
    refine fun manifest _ => ⟨fun _ => ⟨trivial, fun sha _ => ?_⟩, by simp⟩
    cases sha <;> simp
  simp [prepareInstallAction, prepareTransfer, transferFileAction, prepareVersion, prepareFile,
    isDeltaToPatch, hpatch, prepareCallback, hmanifest]

theorem quiet_handlerBackupActions (pkgName version : Option String) :
    (handlerBackupActions u pkgName version).All Quiet := by
  have hbackup : ∀ manifest, (backupFromManifest u manifest pkgName version).All Quiet := by
    intro manifest
    simp only [backupFromManifest, Prog.all_bind, all_ext]
    refine ⟨trivial, fun reply _ => ?_⟩
    cases reply <;> simp [backupPackage, isBackedUp, copyToBackup, backupSourceFile]
  simp [handlerBackupActions, hbackup]

theorem quiet_updateInstalledVersionSame (version : Option String) :
    (updateInstalledVersionSame u version).All Quiet := by
  simp [updateInstalledVersionSame]

theorem quiet_saveRecord : (saveRecord u).All Quiet := by
  simp only [saveRecord, updateRecordSave, Prog.all_bind, all_ignoring, all_readComp, true_and]
  refine ⟨fun path _ => ?_, by simp⟩
  cases path <;> simp

theorem quiet_updateGetNextRollbackVersion (version : Option String) :
    (updateGetNextRollbackVersion u version).All Quiet := by
  simp only [updateGetNextRollbackVersion, Prog.all_bind, all_readComp, true_and]
  intro versions _
  cases versions <;> simp

theorem quiet_updateGetRollbackPackage (rbFileInfo : PkgFile) (rbVersion : Option String) :
    (updateGetRollbackPackage u rbFileInfo rbVersion).All Quiet := by
  simp only [updateGetRollbackPackage, Prog.all_ite, Prog.all_bind, all_readComp, all_orCrash,
    true_and]
  refine ⟨by simp, fun _ msg _ => ⟨fun _ => trivial, fun info _ => ?_⟩⟩
  obtain ⟨filepath, rbFileInfo⟩ := info
  cases filepath with
  | some filepath => simp [rollbackPackage, updatePackageAvailable]
  | none =>
    simp only [Prog.all_bind, all_readComp, all_ext, true_and]
    refine fun manifest _ => ⟨trivial, fun reply _ => ?_⟩
    cases reply <;> simp [rollbackPackage, updatePackageAvailable]

theorem quiet_updateSendRollbackIntent (next : Option String) :
    (updateSendRollbackIntent u next).All Quiet := by
  have hintent : ∀ rbType info, (sendIntent u rbType info).All Quiet := by
    intro rbType info
    cases rbType <;> simp [sendIntent]
  simp [updateSendRollbackIntent, quiet_updateGetRollbackPackage, readRbType, hintent]

theorem quiet_rollbackToNext (updateSts : InstallState) (next : String) :
    (rollbackToNext u updateSts next).All Quiet := by
  simp only [rollbackToNext, Prog.all_bind, quiet_updateGetNextRollbackVersion, true_and]
  intro next' _
  cases next' <;> simp [quiet_updateSendRollbackIntent]

theorem quiet_removeUpdateManifest : (removeUpdateManifest u).All Quiet := by
  simp [removeUpdateManifest]

theorem quiet_rollbackFailed : (rollbackFailed u).All Quiet := by
  simp [rollbackFailed, readRbType]

theorem quiet_updateReleaseCompContext : (updateReleaseCompContext u).All Quiet := by
  simp [updateReleaseCompContext]

theorem quiet_updateParseJsonReadyUpdate (jsonObj : Json) (cacheDir backupDir : Option String) :
    (updateParseJsonReadyUpdate u jsonObj cacheDir backupDir).All Quiet := by
  have hdigest : ∀ err, (parseDigest u err).All Quiet := by
    intro err
    simp only [parseDigest, Prog.all_bind, all_readComp, all_ext, true_and]
    refine fun file _ => ⟨trivial, fun sha _ => ?_⟩
    cases sha <;> simp
  have hbackup : ∀ version, (parseFromBackup u version).All Quiet := by
    intro version
    simp only [parseFromBackup, Prog.all_bind, all_readComp, all_ext, true_and]
    refine fun manifest _ => ⟨trivial, fun reply _ => ?_⟩
    cases reply <;> simp
  have hmsg : (parseInfoFromMsg u jsonObj).All Quiet := by
    simp [parseInfoFromMsg, parseFileFromMsg, parseTransfer, hdigest, hbackup]
  have hfile : (parseFileInfo u jsonObj).All Quiet := by
    simp only [parseFileInfo, Prog.all_bind, all_readComp, all_assign, all_ext, true_and]
    refine fun _ _ => ⟨trivial, fun _ _ _ _ => ⟨trivial, fun _ _ _ _ _ _ =>
      ⟨trivial, fun reply _ => ?_⟩⟩⟩
    cases reply <;> simp [hmsg]
  simp [updateParseJsonReadyUpdate, parseIdentity, parseName, parseVersions, assignManifests,
    parseFailed, hfile]

theorem quiet_processQueryPackage (jsonObj : Json) :
    (processQueryPackage u jsonObj).All Quiet := by
  have hlist : ∀ name version, (queryVersionList name version).All Quiet := by
    intro name version
    simp only [queryVersionList, Prog.all_bind, all_readIntl, all_ext, true_and]
    refine fun intl _ => ⟨trivial, fun _ _ => ⟨by simp [versionListFromBackup], fun list _ => ?_⟩⟩
    split <;> simp
  simp [processQueryPackage, answerQuery, doNotDisturbBody, queryPackageBody, queryDeltaCap, hlist,
    sendJson]

theorem quiet_processReadyDownload (jsonObj : Json) :
    (processReadyDownload u jsonObj).All Quiet := by
  simp [processReadyDownload, prepareDownloadAction, sendDownloadStatus, statusSequence, sendJson]

theorem quiet_sendQuery (fields : List (String × Json)) : (sendQuery fields).All Quiet := by
  simp only [sendQuery, Prog.all_ite, Prog.all_bind, all_readIntl, all_ext, true_and]
  refine fun _ _ => ⟨fun _ => ⟨trivial, fun replyId _ => ⟨by simp, fun _ _ => ?_⟩⟩, by simp⟩
  cases replyId <;> simp [sendJson]

theorem quiet_processPrepareUpdate (jsonObj : Json) :
    (processPrepareUpdate u jsonObj).All Quiet := by
  have hsource : ∀ version, (prepareSource u jsonObj version).All Quiet := by
    intro version
    simp only [prepareSource, Prog.all_ite, Prog.all_bind, all_readComp, all_ext, true_and]
    refine ⟨by simp, fun _ manifest _ => ⟨trivial, fun reply _ => ?_⟩⟩
    cases reply <;> simp
  have hprepare : ∀ version, (prepareFromSource u jsonObj version).All Quiet := by
    intro version
    simp only [prepareFromSource, Prog.all_bind]
    refine ⟨hsource version, fun source _ => ?_⟩
    cases source <;>
      simp [prepareAndReport, quiet_prepareInstallAction, sendQueryUpdates, quiet_sendQuery,
        prepareWithoutFile]
  have hmarked : ∀ st, (isMarkedPrepared u st).All Quiet := by
    intro st
    simp only [isMarkedPrepared, Prog.all_ite, Prog.all_bind, all_readComp, all_readIntl,
      all_orCrash, true_and]
    refine ⟨fun _ _ _ _ _ _ _ _ _ => ⟨fun _ => trivial, fun preparedVer _ => ?_⟩, by simp⟩
    cases preparedVer <;> simp
  simp [processPrepareUpdate, parsePrepareUpdate, parsePrepareName, prepareParsed, prepareInStage,
    hmarked, prepareFastPath, prepareUpdate, hprepare, prepareDone, prepareUndone]

theorem quiet_processConfirmUpdate (jsonObj : Json) :
    (processConfirmUpdate u jsonObj).All Quiet := by
  have hcleanup : ∀ info cacheDir backupDir,
      (confirmCleanup u info cacheDir backupDir).All Quiet := by
    intro info cacheDir backupDir
    unfold confirmCleanup
    split
    · simp [cleanupBackups, readRbType]
    · exact trivial
  simp [processConfirmUpdate, confirmInStage, confirmUpdate, hcleanup, confirmDeltaCleanup,
    removeIfFound]

theorem quiet_afterInstall (updateSts : InstallState) : (afterInstall u updateSts).All Quiet := by
  have hrollback : (installRollback u).All Quiet := by
    simp only [installRollback, Prog.all_bind, all_readComp, quiet_updateGetNextRollbackVersion,
      true_and]
    intro version _ next _
    cases next <;> simp [quiet_updateSendRollbackIntent, installTerminalFailure]
  simp [afterInstall, installFailed, installRetry, hrollback, removeUpdateManifest]

theorem quiet_readyUpdateBackup (updateSts : InstallState) :
    (readyUpdateBackup u updateSts).All Quiet := by
  simp [readyUpdateBackup, backupInstalled, quiet_handlerBackupActions]

theorem quiet_processSequenceInfo (jsonObj : Json) :
    (processSequenceInfo u jsonObj).All Quiet := by
  have hsequences : ∀ fields, (updateSequences fields).All Quiet :=
    updateSequences_all fun _ _ => trivial
  simp only [processSequenceInfo, Prog.all_bind, all_op, all_readIntl, true_and]
  refine ⟨trivial, fun _ _ queryReplyId _ => ⟨?_, fun _ _ => trivial⟩⟩
  cases queryReplyId <;> simp [answerSequence, takeSequences, hsequences]

theorem quiet_processUpdateStatus (jsonObj : Json) :
    (processUpdateStatus u jsonObj).All Quiet := by
  have hstore : ∀ verdict, (storeVerdict u verdict).All Quiet := by
    intro verdict
    cases verdict <;> simp [storeVerdict]
  simp [processUpdateStatus, matchReply, acceptReply, hstore]

theorem quiet_processQueryUpdates (jsonObj : Json) :
    (processQueryUpdates u jsonObj).All Quiet := by
  simp [processQueryUpdates]

end Quiets

theorem quiet_handlePresence (n : Nat) (connected : Bool) :
    (handlePresence n connected).All Quiet := by
  have hcomponent : ∀ u joRec, (resumeComponent u joRec).All Quiet := by
    simp [resumeComponent, resumeAbandoned]
  have hrecord : ∀ joRec, (resumeRecord joRec).All Quiet := by
    intro joRec
    unfold resumeRecord
    split
    · simp only [Prog.all_bind, all_op]
      refine ⟨trivial, fun uacc _ => ?_⟩
      cases uacc <;> simp [hcomponent]
    · trivial
  have hcontent : ∀ content, (resumeContent content).All Quiet := by
    intro content
    unfold resumeContent
    split
    · exact hrecord _
    · trivial
  have hpresence : (spawnPresence n).All Quiet := spawnPresence_all trivial n
  simp [handlePresence, updateHandleResumeFromReboot, hcontent, hpresence]

theorem quiet_updateSequenceInfo (passes : Nat) : (updateSequenceInfo passes).All Quiet := by
  refine updateSequenceInfo_all (fun o hon _ => ?_) passes
  cases o with
  | ext o => cases o <;> simp [Op.on] at hon ⊢
  | mark m => cases m <;> simp [Op.on] at hon ⊢
  | _ => trivial

/-! What a thread has said so far, and what it may say next. -/

/-- The component whose messages and installations a thread is for. -/
def component : Tid → Option UaccPtr
  | .runner u | .worker u _ | .resume u => some u
  | _ => none

/-- Where a thread is: in no installation, in one with these calls so far, or nowhere, because
it has read handlers that are not the registered ones. -/
inductive Stage
  | rest
  | busy (x : Talk)
  | never

namespace Stage

def after : Stage → (o : Op) → o.Ans → Stage
  | .never, _, _ => .never
  | .rest, .mark (.readyUpdateParsed _ _ _), _ => .busy ⟨true, []⟩
  | .rest, _, _ => .rest
  | .busy x, o, b => .busy (x.after o b)

/-- Whether nothing is missing from an installation that has been begun. -/
def CanRest (uar : UaRoutine) : Stage → Prop
  | .busy x => x.Ended uar
  | _ => True

end Stage

variable (cfg : AgentConfig)

/-- What a thread may do: installation callbacks only for its own component and in order. A
resume thread takes up no ready-update. -/
def Stage.May (t : Tid) (s : Stage) : Op → Prop
  | .ext (.callback u f _) => f ∈ installCallbacks → component t = some u ∧
      ∃ x, s = .busy x ∧ ∀ b, (x.add ⟨f, b⟩).InOrder (cfg.getRoutine u)
  | .mark (.readyUpdateParsed u _ _) => component t = some u ∧ t ≠ .resume u
  | _ => True

/-- A thread may come to rest with every operation after which nothing is missing. -/
def talking : Protocol Tid Shared Stage Op.Ans where
  reads := fun _ _ => True
  sees := fun t s m s' => s' = s ∨
    s' = .never ∧ ∃ u, component t = some u ∧ (m.comp u).uar ≠ cfg.getRoutine u
  may := fun t s o => s = .never ∨ s.May cfg t o
  does := fun t s o b s' => (s = .never ∨ s.May cfg t o) ∧ (s' = s.after o b ∨
    s' = .rest ∧ ∀ u, component t = some u → (s.after o b).CanRest (cfg.getRoutine u))

theorem Talk.after_quiet {o : Op} (ho : Quiet o) (x : Talk) (b : o.Ans) : x.after o b = x := by
  cases o with
  | ext o =>
    cases o with
    | callback u f ctl => exact if_neg ho
    | _ => rfl
  | mark m =>
    cases m with
    | readyUpdateParsed u name jsonObj => exact ho.elim
    | _ => rfl
  | _ => rfl

theorem Stage.after_quiet {o : Op} (ho : Quiet o) (s : Stage) (b : o.Ans) : s.after o b = s := by
  cases s with
  | never => rfl
  | busy x => exact congrArg Stage.busy (Talk.after_quiet ho x b)
  | rest =>
    cases o with
    | mark m =>
      cases m with
      | readyUpdateParsed u name jsonObj => exact ho.elim
      | _ => rfl
    | _ => rfl

theorem Stage.may_quiet {o : Op} (ho : Quiet o) (t : Tid) (s : Stage) : s.May cfg t o := by
  cases o with
  | ext o =>
    cases o with
    | callback u f ctl => exact fun hf => absurd hf ho
    | _ => trivial
  | mark m =>
    cases m with
    | readyUpdateParsed u name jsonObj => exact ho.elim
    | _ => trivial
  | _ => trivial

variable {cfg} {t : Tid} {α β : Type}

theorem follows_quiet {p : UaProg α} (hp : p.All Quiet) (s : Stage) :
    (talking cfg).Follows t p s fun _ s' => s' = s :=
  .within hp trivial (fun _ => .inl rfl) fun _ ho =>
    ⟨.inr (s.may_quiet cfg ho t), fun b =>
      ⟨.inr (s.may_quiet cfg ho t), .inl (s.after_quiet ho b).symm⟩⟩

theorem follows_never (p : UaProg α) :
    (talking cfg).Follows t p .never fun _ s' => s' = .never := by
  induction p with
  | pure a => rfl
  | get k ih => exact ⟨trivial, fun m => ⟨_, .inl rfl, ih m⟩⟩
  | call o k ih => exact ⟨.inl rfl, fun b => ⟨_, ⟨.inl rfl, .inl rfl⟩, ih b⟩⟩

theorem quiet_then {p : UaProg α} {f : α → UaProg β} {s : Stage} {Q : β → Stage → Prop}
    (hp : p.All Quiet) (hf : ∀ a, (talking cfg).Follows t (f a) s Q) :
    (talking cfg).Follows t (p >>= f) s Q := by
  refine .bind ((follows_quiet hp s).mono fun a s' hs => ?_)
  subst hs
  exact hf a

/-- One program after the other, where the first may have read other handlers. -/
theorem follows_then {p : UaProg α} {f : α → UaProg β} {s : Stage} {R : α → Stage → Prop}
    {Q : β → Stage → Prop} (hp : (talking cfg).Follows t p s fun a s' => s' = .never ∨ R a s')
    (hf : ∀ a s', R a s' → (talking cfg).Follows t (f a) s' Q) (hQ : ∀ b, Q b .never) :
    (talking cfg).Follows t (p >>= f) s Q := by
  refine .bind (hp.mono fun a s' hs => ?_)
  obtain rfl | hs := hs
  · refine (follows_never (f a)).mono fun b s' hs => ?_
    subst hs
    exact hQ b
  · exact hf a s' hs

section Component

variable {u : UaccPtr} (ht : component t = some u)
include ht

/-- A thread that goes on has read the registered handlers. -/
theorem follows_readUar {f : UaRoutine → UaProg α} {s : Stage} {Q : α → Stage → Prop}
    (hf : (talking cfg).Follows t (f (cfg.getRoutine u)) s Q) (hQ : ∀ a, Q a .never) :
    (talking cfg).Follows t (readComp u (·.uar) >>= f) s Q := by
  refine ⟨trivial, fun m => ?_⟩
  by_cases h : (m.comp u).uar = cfg.getRoutine u
  · refine ⟨s, .inl rfl, ?_⟩
    rw [← h] at hf
    exact hf
  · refine ⟨.never, .inr ⟨rfl, u, ht, h⟩, (follows_never _).mono fun a s' hs => ?_⟩
    subst hs
    exact hQ a

theorem follows_callback {f : Callback} (hf : f ∈ installCallbacks) (ctl : UaCallbackCtl)
    {x : Talk} (hx : ∀ b, (x.add ⟨f, b⟩).InOrder (cfg.getRoutine u)) :
    (talking cfg).Follows t (callback u f ctl) (.busy x) fun b s' =>
      s' = .busy (x.add ⟨f, b⟩) := by
  have hmay : (Stage.busy x).May cfg t (.ext (.callback u f ctl)) := fun _ => ⟨ht, x, rfl, hx⟩
  refine ⟨.inr hmay, fun b => ⟨_, ⟨.inr hmay, .inl rfl⟩, ?_⟩⟩
  exact congrArg Stage.busy (if_pos hf)

/-- The operation with which a thread comes to rest. -/
theorem follows_rest {o : Op} (ho : Quiet o) {f : o.Ans → UaProg α} {s : Stage}
    {Q : α → Stage → Prop} (hs : s.CanRest (cfg.getRoutine u))
    (hf : ∀ b, (talking cfg).Follows t (f b) .rest Q) :
    (talking cfg).Follows t (op o >>= f) s Q := by
  refine ⟨.inr (s.may_quiet cfg ho t), fun b => ⟨.rest, ⟨.inr (s.may_quiet cfg ho t), .inr
    ⟨rfl, fun u' ht' => ?_⟩⟩, hf b⟩⟩
  rw [s.after_quiet ho b]
  cases ht.symm.trans ht'
  exact hs

end Component

end EsyncUa.InstallCalls
