import EsyncUa.Frames
import EsyncUa.Phases

/-!
The programs of the agent under a protocol that is about the installation only. A thread does
everything else in one phase, in which it rests. If the installation of a component and the
reply to its request begin and end in that phase, then so do all programs of the component.
-/
namespace EsyncUa.RestPhases

open EsyncUa.JsonProperties EsyncUa.Components EsyncUa.Programs EsyncUa.Operations
open EsyncUa.Installation EsyncUa.Updater EsyncUa.Messages EsyncUa.Agents EsyncUa.Footprints
open EsyncUa.Frames EsyncUa.Phases

attribute [local simp] Op.kind ExtOp.kind Assign.kind AssignIntl.kind Mark.kind

/-- The kinds of operations that only an installation and the reply to it are made of. -/
abbrev installOnly : List Kind := [.cond, .recordSave, .saved, .install, .successful]

variable {S : Type} (N : Protocol Tid Shared S Op.Ans) (t : Tid) (rest : S) {α β : Type}

/-- A thread does all other operations in the phase `rest`, and stays in it. -/
structure RestsOutside : Prop where
  reads : N.reads t rest
  sees : ∀ m, N.sees t rest m rest
  does : ∀ o, Op.kind o ∉ installOnly → N.may t rest o ∧ ∀ b, N.does t rest o b rest

/-- The program begins and ends at rest. -/
abbrev Rests (p : UaProg α) : Prop := N.Follows t p rest fun _ x => x = rest

variable {N t rest}

theorem Rests.bind {p : UaProg α} {f : α → UaProg β} (hp : Rests N t rest p)
    (hf : ∀ a, Rests N t rest (f a)) : Rests N t rest (p >>= f) := by
  refine Protocol.Follows.bind (hp.mono fun a x hx => ?_)
  subst hx
  exact hf a

theorem rests_ite {c : Prop} [Decidable c] {p q : UaProg α} (hp : Rests N t rest p)
    (hq : Rests N t rest q) : Rests N t rest (if c then p else q) := by
  split
  · exact hp
  · exact hq

theorem rests_doIf {c : Prop} [Decidable c] {p : UaProg Unit} (hp : Rests N t rest p) :
    Rests N t rest (doIf c p) := rests_ite hp rfl

section Outside

variable (hN : RestsOutside N t rest)
include hN

theorem rests_of_all {p : UaProg α} (hp : p.All fun o => Op.kind o ∉ installOnly) :
    Rests N t rest p := .within hp hN.reads hN.sees hN.does

theorem rests_of_within {u : UaccPtr} {p : UaProg α} {ks : List Kind}
    (hp : p.All (Within u ks)) (hks : ∀ k ∈ installOnly, k ∉ ks) : Rests N t rest p :=
  rests_of_all hN (hp.mono fun o ho hmem => hks (Op.kind o) hmem ho.2)

theorem rests_op {o : Op} (ho : Op.kind o ∉ installOnly) : Rests N t rest (op o) :=
  rests_of_all hN (by simpa using ho)

theorem rests_readComp (u : UaccPtr) (f : UaComponentContext → α) :
    Rests N t rest (readComp u f) := rests_of_all hN (all_readComp u f)

theorem rests_readIntl (f : UaInternal → α) : Rests N t rest (readIntl f) :=
  rests_of_all hN (all_readIntl f)

theorem rests_orCrash (value : Option α) : Rests N t rest (orCrash value) :=
  rests_of_all hN (by simp)

theorem rests_assign (u : UaccPtr) (x : Assign) (hx : Assign.kind x ≠ .successful) :
    Rests N t rest (assign u x) := by
  have hkind : Assign.kind x ∉ installOnly := by
    cases x with
    | successful value => exact absurd rfl hx
    | _ => exact of_decide_eq_true rfl
  exact rests_op hN hkind

theorem rests_assignIntl (x : AssignIntl) : Rests N t rest (assignIntl x) := by
  have hkind : AssignIntl.kind x ∉ installOnly := by
    cases x <;> exact of_decide_eq_true rfl
  exact rests_op hN hkind

theorem rests_sendInstallStatus (u : UaccPtr) (state : InstallState) (pkgFile : Option PkgFile)
    (ue : UpdateErr) : Rests N t rest (sendInstallStatus u state pkgFile ue) :=
  rests_of_within hN (sendInstallStatus_within u sendKinds (fun _ h => h) state pkgFile ue)
    (by decide)

theorem rests_postUpdateAction (u : UaccPtr) : Rests N t rest (postUpdateAction u) :=
  rests_of_within hN (postUpdateAction_within u [.env] (by decide)) (by decide)

variable {u : UaccPtr}
  (hinstall : ∀ rebootSupport, Rests N t rest (updateStartInstallOperations u rebootSupport))

section Installs

include hinstall

theorem rests_rollbackWithPackage (rbFileInfo : PkgFile) (bck : Bool) (next : String)
    (rebootSupport : Bool) :
    Rests N t rest (rollbackWithPackage u rbFileInfo bck next rebootSupport) := by
  have hprepare : ∀ updateFile ue,
      Rests N t rest (prepareInstallAction u rbFileInfo bck updateFile ue) :=
    fun updateFile ue => rests_of_within hN
      (prepareInstallAction_within u [.env] (by decide) _ _ _ _) (by decide)
  have hdelta : ∀ file, Rests N t rest (ext (.isPreparedDeltaPackage file)) := fun file =>
    rests_of_all hN (by simp)
  have hprepared : Rests N t rest (rollbackPreparedDelta u) :=
    Rests.bind (rests_postUpdateAction hN u) fun _ => rfl
  have hready : Rests N t rest (rollbackReady u rebootSupport) :=
    Rests.bind (rests_readComp hN u _) fun version =>
    Rests.bind (rests_assign hN u _ (by simp)) fun _ => hinstall rebootSupport
  have hnext : ∀ updateSts, Rests N t rest (rollbackToNext u updateSts next) := fun updateSts =>
    rests_of_within hN (rollbackToNext_within u _ (fun _ h => h) _ _) (by decide)
  have hrollback : ∀ state, Rests N t rest (rollbackInstall u state next rebootSupport) :=
    fun state => Rests.bind (rests_ite hready rfl) fun updateSts => rests_ite (hnext updateSts) rfl
  refine Rests.bind (rests_assign hN u _ (by simp)) fun _ =>
    Rests.bind (rests_readComp hN u _) fun file =>
    Rests.bind (rests_readComp hN u _) fun ue => Rests.bind (hprepare _ _) fun prepared =>
    Rests.bind (rests_assign hN u _ (by simp)) fun _ =>
    Rests.bind (rests_assign hN u _ (by simp)) fun _ =>
    Rests.bind (rests_readComp hN u _) fun file => Rests.bind (hdelta _) fun isPreparedDelta => ?_
  exact Rests.bind (rests_ite hprepared (hrollback _)) fun updateSts =>
    Rests.bind (rests_assign hN u _ (by simp)) fun _ => rfl

theorem rests_updateStartRollbackOperations (rbVersion : String) (rebootSupport : Bool) :
    Rests N t rest (updateStartRollbackOperations u rbVersion rebootSupport) := by
  have hsame : Rests N t rest (updateInstalledVersionSame u (some rbVersion)) :=
    rests_of_within hN (updateInstalledVersionSame_within u [.env] (by decide) _) (by decide)
  have hinstalled : Rests N t rest (rollbackToInstalled u rbVersion) := by
    refine Rests.bind (rests_assign hN u _ (by simp)) fun _ =>
      Rests.bind (rests_assign hN u _ (by simp)) fun _ =>
      Rests.bind (rests_readComp hN u _) fun info =>
      Rests.bind (Rests.bind (rests_sendInstallStatus hN u _ _ _) fun _ => rfl) fun _ =>
      Rests.bind (rests_readComp hN u _) fun version =>
      Rests.bind (rests_readComp hN u _) fun name => Rests.bind (rests_assignIntl hN _) fun _ => ?_
    exact Rests.bind (Rests.bind (rests_sendInstallStatus hN u _ _ _) fun _ => rfl) fun _ =>
      Rests.bind (rests_postUpdateAction hN u) fun _ => rfl
  have hpackage : Rests N t rest (updateGetRollbackPackage u .zero (some rbVersion)) :=
    rests_of_within hN (updateGetRollbackPackage_within u [.env] (by decide) _ _) (by decide)
  have hwithout : Rests N t rest (rollbackWithoutPackage u rbVersion) :=
    rests_of_within hN (rollbackWithoutPackage_within u intentKinds (fun _ h => h) _) (by decide)
  have hversion : Rests N t rest (rollbackToVersion u rbVersion rebootSupport) :=
    Rests.bind hpackage fun found =>
      rests_ite (rests_rollbackWithPackage hN hinstall _ _ _ _) hwithout
  have hmanifest : Rests N t rest (removeUpdateManifest u) :=
    rests_of_all hN (by simp [removeUpdateManifest])
  have hfailed : Rests N t rest (rollbackFailed u) := by
    refine Rests.bind (rests_of_all hN (by simp [readRbType])) fun rbType => rests_ite
      (Rests.bind (rests_sendInstallStatus hN u _ _ _) fun _ => rfl) ?_
    refine Rests.bind (rests_readComp hN u _) fun version =>
      Rests.bind (rests_readComp hN u _) fun name => Rests.bind (rests_assignIntl hN _) fun _ =>
      Rests.bind (rests_assign hN u _ (by simp)) fun _ =>
      Rests.bind (rests_readComp hN u _) fun info => ?_
    exact Rests.bind (rests_readComp hN u _) fun ue =>
      Rests.bind (rests_sendInstallStatus hN u _ _ _) fun _ => rfl
  refine Rests.bind (rests_assign hN u _ (by simp)) fun _ =>
    Rests.bind (rests_assign hN u _ (by simp)) fun _ =>
    Rests.bind (rests_assign hN u _ (by simp)) fun _ => Rests.bind hsame fun same => ?_
  exact Rests.bind (rests_ite hinstalled hversion) fun updateSts =>
    Rests.bind (rests_doIf hmanifest) fun _ => Rests.bind (rests_doIf hfailed) fun _ => rfl

theorem rests_readyUpdateInstall : Rests N t rest (readyUpdateInstall u) := by
  have hafter : ∀ updateSts, Rests N t rest (afterInstall u updateSts) := fun updateSts =>
    rests_of_within hN (afterInstall_within u _ (fun _ h => h) _) (by decide)
  refine Rests.bind (rests_readIntl hN _) fun rebootSupport =>
    Rests.bind (rests_readComp hN u _) fun rollbackVersion => ?_
  cases rollbackVersion with
  | some version => exact rests_updateStartRollbackOperations hN hinstall version rebootSupport
  | none =>
    exact Rests.bind (rests_readComp hN u _) fun retryCnt =>
      Rests.bind (rests_assign hN u _ (by simp)) fun _ =>
      Rests.bind (hinstall rebootSupport) fun updateSts => hafter updateSts

theorem rests_readyUpdate (jsonObj : Json) : Rests N t rest (readyUpdate u jsonObj) := by
  have hrbType : Rests N t rest (chooseRbType u) :=
    rests_of_all hN (by simp [chooseRbType, readRbType])
  have hbackup : ∀ updateSts, Rests N t rest (readyUpdateBackup u updateSts) := fun updateSts =>
    rests_of_within hN (readyUpdateBackup_within u _ (fun _ h => h) _) (by decide)
  have htest : Rests N t rest (op (.testCleanupOk u)) := rests_op hN (by simp)
  have hconfirm : Rests N t rest (processConfirmUpdate u jsonObj) :=
    rests_of_within hN (processConfirmUpdate_within u _ (fun _ h => h) jsonObj) (by decide)
  have hdeferred : Rests N t rest (deferredConfirm u jsonObj) :=
    Rests.bind hconfirm fun _ => rests_assign hN u _ (by simp)
  have hrelease : Rests N t rest (readyUpdateRelease u) :=
    Rests.bind (rests_assign hN u _ (by simp)) fun _ =>
    Rests.bind (rests_assign hN u _ (by simp)) fun _ =>
      Rests.bind (rests_assign hN u _ (by simp)) fun _ => rests_of_within hN
        (updateReleaseCompContext_within u _ (fun _ h => h)) (by decide)
  refine Rests.bind (rests_readComp hN u _) fun name =>
    Rests.bind (rests_assign hN u _ (by simp)) fun _ =>
    Rests.bind (rests_readIntl hN _) fun cid => Rests.bind (rests_assign hN u _ (by simp)) fun _ =>
    Rests.bind hrbType fun _ => Rests.bind (rests_readyUpdateInstall hN hinstall) fun updateSts =>
    Rests.bind (hbackup _) fun _ => Rests.bind (rests_readComp hN u _) fun name => ?_
  exact Rests.bind (rests_assignIntl hN _) fun _ =>
    Rests.bind (rests_assign hN u _ (by simp)) fun _ =>
    Rests.bind htest fun cleanupOk => Rests.bind (rests_doIf hdeferred) fun _ => hrelease

theorem rests_processReadyUpdate (jsonObj : Json) :
    Rests N t rest (processReadyUpdate u jsonObj) := by
  have hmark : ∀ name, Rests N t rest (mark (.readyUpdateParsed u name jsonObj)) := fun name =>
    rests_of_all hN (by simp)
  have hdropped : Rests N t rest (mark (.readyUpdateDropped u jsonObj)) :=
    rests_of_all hN (by simp)
  have hparse : ∀ cacheDir backupDir,
      Rests N t rest (updateParseJsonReadyUpdate u jsonObj cacheDir backupDir) :=
    fun cacheDir backupDir => rests_of_within hN
      (updateParseJsonReadyUpdate_within u parseKinds (fun _ h => h) _ _ _) (by decide)
  have hfailed : Rests N t rest (readyUpdateFailed u) :=
    Rests.bind (rests_readComp hN u _) fun fileInfo => Rests.bind (rests_readComp hN u _) fun ue =>
      Rests.bind (rests_sendInstallStatus hN u _ _ _) fun _ => rfl
  have hparsed : ∀ err, Rests N t rest (readyUpdateParsed u jsonObj err) := fun err =>
    Rests.bind (rests_readComp hN u _) fun name => rests_ite
      (Rests.bind (hmark _) fun _ => rests_readyUpdate hN hinstall jsonObj) hfailed
  refine Rests.bind (rests_readIntl hN _) fun dmcHandlerDone => rests_ite ?_ hdropped
  exact Rests.bind (rests_assign hN u _ (by simp)) fun _ =>
    Rests.bind (rests_readIntl hN _) fun cacheDir =>
    Rests.bind (rests_readIntl hN _) fun backupDir =>
    Rests.bind (hparse _ _) fun err => hparsed err

section Replies

variable (hreply : ∀ jsonObj, Rests N t rest (processUpdateStatus u jsonObj))
include hreply

theorem rests_call (func : ProcessF) (jsonObj : Json) :
    Rests N t rest (ProcessF.call func u jsonObj) := by
  cases func with
  | queryPackage =>
    exact rests_of_within hN (processQueryPackage_within u _ (fun _ h => h) jsonObj) (by decide)
  | readyDownload =>
    exact rests_of_within hN (processReadyDownload_within u _ (fun _ h => h) jsonObj) (by decide)
  | readyUpdate => exact rests_processReadyUpdate hN hinstall jsonObj
  | prepareUpdate =>
    exact rests_of_within hN (processPrepareUpdate_within u _ (fun _ h => h) jsonObj) (by decide)
  | confirmUpdate =>
    exact rests_of_within hN (processConfirmUpdate_within u _ (fun _ h => h) jsonObj) (by decide)
  | downloadReport | sotaReport | logReport => rfl
  | sequenceInfo =>
    exact rests_of_within hN (processSequenceInfo_within u _ (fun _ h => h) jsonObj) (by decide)
  | updateStatus => exact hreply jsonObj
  | queryUpdates =>
    exact rests_of_within hN (processQueryUpdates_within u _ (fun _ h => h) jsonObj) (by decide)

theorem rests_workerAction : Rests N t rest (workerAction u) :=
  Rests.bind (rests_readComp hN u _) fun func => Rests.bind (rests_readComp hN u _) fun _ =>
    Rests.bind (rests_orCrash hN _) fun jsonObj =>
    Rests.bind (rests_call hN hinstall hreply func jsonObj) fun _ => rests_assign hN u _ (by simp)

theorem rests_runnerPass (msg : Option Json) : Rests N t rest (runnerPass u msg) := by
  have hfree : Rests N t rest (ext (.freeMsg u)) :=
    rests_of_all hN (by simp)
  refine Rests.bind ?_ fun _ => hfree
  cases msg with
  | none => rfl
  | some jObj =>
    have hstart : ∀ func, Rests N t rest (startWorker u func jObj) := fun func =>
      rests_of_all hN (by simp [startWorker, claimWorker])
    have houtdated : Rests N t rest (isOutdated u jObj) :=
      rests_of_all hN (by simp [isOutdated])
    have htype : ∀ type, Rests N t rest (dispatchType u jObj type) := by
      intro type
      refine Rests.bind (rests_readIntl hN _) fun async =>
        Rests.bind (rests_orCrash hN type) fun type => ?_
      split
      · exact rests_ite (hstart _) (rests_call hN hinstall hreply _ jObj)
      · rfl
    have hmessage : ∀ ctl, Rests N t rest (callback u .onMessage ctl) := fun ctl =>
      rests_of_all hN (by simp)
    exact Rests.bind houtdated fun outdated => rests_doIf <|
      Rests.bind (rests_readComp hN u _) fun uar =>
      Rests.bind (rests_ite (hmessage _) rfl) fun processed => rests_doIf (htype _)

end Replies

end Installs

theorem rests_handlePresence (n : Nat) (connected : Bool) :
    Rests N t rest (handlePresence n connected) := by
  have hkinds : ∀ {k : Kind} {ks : List Kind}, (∀ k ∈ installOnly, k ∉ ks) → k ∈ ks →
      k ∉ installOnly := fun hks hk hmem => hks _ hmem hk
  refine rests_of_all hN (handlePresence_all ?_ ?_ ?_ n connected)
  · intro o _ hkind
    exact hkinds (by decide) hkind
  · simp
  · intro u o ho
    exact hkinds (by decide) ho.2

theorem rests_forked {o : Op} {b : o.Ans} {t₀ t₂ : Tid} {p : UaProg Unit}
    (h : fork t₀ o b = some (t₂, p)) (hworker : ∀ u, Rests N t rest (workerAction u)) :
    Rests N t rest p := by
  obtain ⟨u, n, -, -, rfl⟩ | ⟨u, -, -, rfl⟩ | ⟨n, -, -, rfl⟩ | ⟨n, passes, -, -, rfl⟩ :=
    fork_cases h
  · exact hworker u
  · exact rests_of_within hN (updateResumeFromReboot_within u) (by decide)
  · exact rests_of_all hN (by simp [uaHandleDmcPresence])
  · refine rests_of_all hN (updateSequenceInfo_all (fun o _ hkind hmem => ?_) _)
    have hks : ∀ k ∈ installOnly, k ∉ [Kind.intlLock, .env, .query, .send, .pass] := by decide
    exact hks _ hmem hkind

end Outside

end EsyncUa.RestPhases
