import EsyncUa.InstallCalls
import EsyncUa.RestPhases
import Mathlib.Data.List.Perm.Subperm

/-!
The order of the callbacks of an installation in the runs of the agent. Every thread makes them
in the order that the application expects and ends what it has begun, and it installs only what
a ready-update has asked for, no more than once.
-/
namespace EsyncUa.CallbackOrder

open EsyncUa.JsonProperties EsyncUa.Components EsyncUa.Programs EsyncUa.Operations
open EsyncUa.Installation EsyncUa.Updater EsyncUa.Messages EsyncUa.Machines EsyncUa.Agents
open EsyncUa.Footprints EsyncUa.Frames EsyncUa.Phases EsyncUa.RestPhases EsyncUa.Callbacks
open EsyncUa.InstallCalls EsyncUa.Rehearsals EsyncUa.Schedules

variable {cfg : AgentConfig} {t : Tid} {u : UaccPtr}

/-! Calls in order. -/

theorem inOrder_of_initial {uar : UaRoutine} {calls : List Call} {pre state : InstallState}
    {rc : Rc} (h : calls <+: installation uar pre state rc) : Talk.InOrder uar ⟨true, calls⟩ :=
  .inr ⟨rfl, pre, state, rc, h⟩

theorem asked_initial (uar : UaRoutine) (pre state : InstallState) (rc : Rc) :
    asked uar pre <+: installation uar pre state rc := List.prefix_append ..

theorem installation_granted (uar : UaRoutine) (state : InstallState) (rc : Rc) :
    installation uar .inProgress state rc =
      asked uar .inProgress ++ (installed uar state rc ++ posted uar) := by
  rw [installation, if_pos rfl]

theorem inOrder_of_granted {uar : UaRoutine} {calls : List Call} (state : InstallState) (rc : Rc)
    (h : calls <+: asked uar .inProgress ++ (installed uar state rc ++ posted uar)) :
    Talk.InOrder uar ⟨true, calls⟩ := by
  rw [← installation_granted] at h
  exact inOrder_of_initial h

theorem install_not_mem_asked (uar : UaRoutine) (pre state : InstallState) :
    ⟨.onInstall, state⟩ ∉ asked uar pre := by
  unfold asked
  split <;> simp

theorem install_not_mem_posted (uar : UaRoutine) (state : InstallState) :
    ⟨.onInstall, state⟩ ∉ posted uar := by
  unfold posted
  split <;> simp

theorem ended_asked (uar : UaRoutine) (parsed : Bool) (pre : InstallState) :
    Talk.Ended uar ⟨parsed, asked uar pre⟩ :=
  fun state h => absurd h (install_not_mem_asked uar pre state)

theorem ended_posted (uar : UaRoutine) (parsed : Bool) : Talk.Ended uar ⟨parsed, posted uar⟩ :=
  fun state h => absurd h (install_not_mem_posted uar state)

theorem ended_installation (uar : UaRoutine) (parsed : Bool) (state : InstallState) (rc : Rc) :
    Talk.Ended uar ⟨parsed, installation uar .inProgress state rc⟩ := by
  intro state' h
  simp only [installation_granted, List.mem_append, install_not_mem_asked, install_not_mem_posted,
    false_or, or_false] at h
  suffices state' = state by
    subst this
    exact ⟨rc, rfl⟩
  unfold installed at h
  split at h
  · simp only [List.mem_cons] at h
    obtain h | h := h
    · exact eq_of_heq (Sigma.mk.inj h).2
    · split at h <;> simp at h
  · cases h

theorem installed_of_completed {uar : UaRoutine} (hinstall : uar.onInstall)
    (hset : uar.onSetVersion) (rc : Rc) :
    installed uar .completed rc = [⟨.onInstall, .completed⟩, ⟨.onSetVersion, rc⟩] := by
  rw [installed, if_pos hinstall, if_pos ⟨rfl, hset⟩]

theorem installed_of_not {uar : UaRoutine} {state : InstallState} (hinstall : uar.onInstall)
    (hset : ¬(state = .completed ∧ uar.onSetVersion)) (rc : Rc) :
    installed uar state rc = [⟨.onInstall, state⟩] := by
  rw [installed, if_pos hinstall, if_neg hset]

theorem install_inOrder {uar : UaRoutine} (hinstall : uar.onInstall) (state : InstallState) :
    Talk.InOrder uar (Talk.add ⟨true, asked uar .inProgress⟩ ⟨.onInstall, state⟩) := by
  refine inOrder_of_granted state 0 ((List.prefix_append_right_inj _).mpr ?_)
  rw [installed, if_pos hinstall]
  exact List.prefix_append [_] _

theorem setVersion_inOrder (uar : UaRoutine) (rc : Rc) :
    Talk.InOrder uar ⟨true, asked uar .inProgress ++ installed uar .completed rc⟩ :=
  inOrder_of_granted .completed rc
    ((List.prefix_append_right_inj _).mpr (List.prefix_append ..))

theorem post_inOrder {uar : UaRoutine} (hpost : uar.onPostInstall) (state : InstallState)
    (rc : Rc) : Talk.InOrder uar (Talk.add
      ⟨true, asked uar .inProgress ++ installed uar state rc⟩ ⟨.onPostInstall, ()⟩) := by
  refine inOrder_of_granted state rc ?_
  simp only [posted, if_pos hpost, List.append_assoc, List.prefix_refl]

/-! The programs of an installation. -/

section Programs

variable (ht : component t = some u)
include ht

theorem follows_preInstall :
    (talking cfg).Follows t (preInstall u) (.busy ⟨true, []⟩) fun state s' =>
      s' = .never ∨ s' = .busy ⟨true, asked (cfg.getRoutine u) state⟩ := by
  refine follows_readUar ht ?_ fun _ => .inl rfl
  refine quiet_then (all_readComp u _) fun pkgInfo =>
    quiet_then (all_readComp u _) fun pkgFile => ?_
  by_cases hpre : (cfg.getRoutine u).onPreInstall
  · rw [if_pos hpre]
    have hasked : ∀ state : InstallState,
        Talk.add ⟨true, []⟩ ⟨.onPreInstall, state⟩ = ⟨true, asked (cfg.getRoutine u) state⟩ :=
      fun state => by rw [asked, if_pos hpre]; rfl
    refine (follows_callback ht (by decide) _ fun state => ?_).mono fun state s' hs => ?_
    · rw [hasked]
      exact inOrder_of_initial (asked_initial _ state .failed 0)
    · rw [hs, hasked]
      exact .inr rfl
  · rw [if_neg hpre]
    exact .inr (by rw [asked, if_neg hpre])

theorem follows_preUpdateAction :
    (talking cfg).Follows t (preUpdateAction u) (.busy ⟨true, []⟩) fun state s' =>
      s' = .never ∨ ∃ pre, s' = .busy ⟨true, asked (cfg.getRoutine u) pre⟩ ∧
        (state = .inProgress → pre = .inProgress) := by
  have hawait : (awaitConsent u).All Quiet := by
    simp [awaitConsent, takeSuccessful, Quiet]
  refine follows_then (follows_preInstall ht) ?_ fun _ => .inl rfl
  rintro state s' rfl
  by_cases hstate : state = .inProgress
  · rw [if_pos hstate]
    refine quiet_then (all_readComp u _) fun pkgFile =>
      quiet_then (quiet_sendInstallStatus u _ _ _) fun err => ?_
    have hrest : ∀ p : UaProg InstallState, p.All Quiet → (talking cfg).Follows t p
        (.busy ⟨true, asked (cfg.getRoutine u) state⟩) fun state' s' => s' = .never ∨
          ∃ pre, s' = .busy ⟨true, asked (cfg.getRoutine u) pre⟩ ∧
            (state' = .inProgress → pre = .inProgress) := fun p hp =>
      (follows_quiet hp _).mono fun state' s' hs => .inr ⟨state, hs, fun _ => hstate⟩
    split
    · exact hrest _ hawait
    · exact hrest _ trivial
  · rw [if_neg hstate]
    exact .inr ⟨state, rfl, fun h => h⟩

theorem follows_updateAction :
    (talking cfg).Follows t (updateAction u)
      (.busy ⟨true, asked (cfg.getRoutine u) .inProgress⟩) fun _ s' => s' = .never ∨
        ∃ state rc, s' = .busy ⟨true,
          asked (cfg.getRoutine u) .inProgress ++ installed (cfg.getRoutine u) state rc⟩ := by
  refine follows_readUar ht ?_ fun _ => .inl rfl
  refine quiet_then (all_readComp u _) fun pkgInfo =>
    quiet_then (all_readComp u _) fun pkgFile => ?_
  by_cases hinstall : (cfg.getRoutine u).onInstall
  · rw [if_pos hinstall]
    refine quiet_then (all_readComp u _) fun isRollback =>
      .bind ((follows_callback ht (by decide) _ (install_inOrder hinstall)).mono ?_)
    rintro state s' rfl
    have hreport : ∀ c : Prop, [Decidable c] → (doIf c (reportInstall u state)).All Quiet := by
      simp [reportInstall, Quiet]
    have hlast : ∀ s, (talking cfg).Follows t
        (do let versions ← readComp u (·.updatePkg.rollbackVersions)
            doIf (¬(versions.isSome ∧ state = .failed)) (reportInstall u state)
            pure state) s fun _ s' => s' = s := fun s =>
      quiet_then (all_readComp u _) fun versions => quiet_then (hreport _) fun _ => rfl
    by_cases hset : state = .completed ∧ (cfg.getRoutine u).onSetVersion
    · obtain ⟨rfl, hset⟩ := hset
      have hcalls : ∀ rc : Rc, Talk.add
          (Talk.add ⟨true, asked (cfg.getRoutine u) .inProgress⟩ ⟨.onInstall, .completed⟩)
            ⟨.onSetVersion, rc⟩ = ⟨true, asked (cfg.getRoutine u) .inProgress ++
              installed (cfg.getRoutine u) .completed rc⟩ := by
        intro rc
        rw [installed_of_completed hinstall hset]
        simp [Talk.add]
      rw [doIf, if_pos ⟨rfl, hset⟩]
      refine .bind (.bind ((follows_callback ht (by decide) _ fun rc => ?_).mono ?_))
      · rw [hcalls]
        exact setVersion_inOrder _ rc
      · rintro rc s' rfl
        refine (hlast _).mono fun _ s' hs => .inr ⟨.completed, rc, ?_⟩
        rw [hs, hcalls]
    · rw [doIf, if_neg hset]
      refine (hlast _).mono fun _ s' hs => .inr ⟨state, 0, ?_⟩
      rw [hs, installed_of_not hinstall hset]
      rfl
  · rw [if_neg hinstall]
    refine .inr ⟨.failed, 0, ?_⟩
    rw [installed, if_neg hinstall, List.append_nil]

theorem follows_postUpdateAction {x : Talk}
    (hx : (cfg.getRoutine u).onPostInstall →
      (x.add ⟨.onPostInstall, ()⟩).InOrder (cfg.getRoutine u)) :
    (talking cfg).Follows t (postUpdateAction u) (.busy x) fun _ s' =>
      s' = .never ∨ s' = .busy ⟨x.parsed, x.calls ++ posted (cfg.getRoutine u)⟩ := by
  refine follows_readUar ht ?_ fun _ => .inl rfl
  by_cases hpost : (cfg.getRoutine u).onPostInstall
  · rw [if_pos hpost]
    refine quiet_then (all_readComp u _) fun pkgInfo =>
      (follows_callback ht (by decide) _ fun _ => hx hpost).mono fun _ s' hs => .inr ?_
    rw [hs, posted, if_pos hpost]
    rfl
  · rw [if_neg hpost]
    refine .inr ?_
    rw [posted, if_neg hpost, List.append_nil]

/-- The last call of an installation. -/
theorem follows_installAndPost :
    (talking cfg).Follows t (installAndPost u)
      (.busy ⟨true, asked (cfg.getRoutine u) .inProgress⟩) fun _ s' =>
        s'.CanRest (cfg.getRoutine u) := by
  refine follows_then (follows_updateAction ht) ?_ fun _ => trivial
  rintro updateSts s' ⟨state, rc, rfl⟩
  refine follows_then (follows_postUpdateAction ht fun hpost => post_inOrder hpost state rc) ?_
    fun _ => trivial
  rintro _ s' rfl
  rw [List.append_assoc, ← installation_granted]
  exact ended_installation _ _ _ _

/-- The only call where nothing is installed. -/
theorem follows_onlyPost (parsed : Bool) :
    (talking cfg).Follows t (postUpdateAction u) (.busy ⟨parsed, []⟩) fun _ s' =>
      s'.CanRest (cfg.getRoutine u) := by
  refine (follows_postUpdateAction ht fun _ => .inl (List.prefix_refl _)).mono fun _ s' hs => ?_
  obtain rfl | rfl := hs
  · trivial
  · exact ended_posted _ _

theorem follows_updateStartInstallOperations (rebootSupport : Bool) :
    (talking cfg).Follows t (updateStartInstallOperations u rebootSupport) (.busy ⟨true, []⟩)
      fun _ s' => s'.CanRest (cfg.getRoutine u) := by
  have hsame : (isInstalledAlready u).All Quiet := by
    simp [isInstalledAlready, quiet_updateInstalledVersionSame]
  have hstatus : (ignoring (sendInstallStatus u .completed none .none)).All Quiet := by simp
  refine quiet_then hsame fun same => ?_
  split
  · exact quiet_then hstatus fun _ => .bind (follows_onlyPost ht true)
  · refine follows_then (follows_preUpdateAction ht) ?_ fun _ => trivial
    rintro updateSts s' ⟨pre, rfl, hpre⟩
    have hsave : (doIf rebootSupport (saveRecord u)).All Quiet :=
      (all_doIf ..).mpr fun _ => quiet_saveRecord u
    have hremove : ∀ (updateSts : InstallState) (s : Stage), s.CanRest (cfg.getRoutine u) →
        (talking cfg).Follows t
          (do let recordFile ← readComp u (·.recordFile)
              doIf rebootSupport (remove recordFile)
              pure updateSts) s fun _ s' => s'.CanRest (cfg.getRoutine u) := by
      intro updateSts s hs
      have hfile : ∀ recordFile, (doIf rebootSupport (remove recordFile)).All Quiet := by
        simp [Quiet]
      exact quiet_then (all_readComp u _) fun recordFile => quiet_then (hfile _) fun _ => hs
    refine quiet_then hsave fun _ => ?_
    by_cases hstate : updateSts = .inProgress
    · obtain rfl := hpre hstate
      rw [updateRecordedInstall, if_pos hstate]
      exact .bind ((follows_installAndPost ht).mono fun updateSts s' hs => hremove updateSts s' hs)
    · rw [updateRecordedInstall, if_neg hstate]
      exact hremove updateSts _ (ended_asked _ _ _)

/-! The programs around it: each leaves nothing missing. -/

omit ht in
theorem calm_then {α β : Type} {p : UaProg α} {f : α → UaProg β} {s : Stage}
    (hp : (talking cfg).Follows t p s fun _ s' => s'.CanRest (cfg.getRoutine u))
    (hf : ∀ a, (f a).All Quiet) :
    (talking cfg).Follows t (p >>= f) s fun _ s' => s'.CanRest (cfg.getRoutine u) := by
  refine .bind (hp.mono fun a s' hs => (follows_quiet (hf a) s').mono fun _ s'' hs' => ?_)
  subst hs'
  exact hs

theorem follows_rollbackWithPackage (rbFileInfo : PkgFile) (bck : Bool) (next : String)
    (rebootSupport : Bool) :
    (talking cfg).Follows t (rollbackWithPackage u rbFileInfo bck next rebootSupport)
      (.busy ⟨true, []⟩) fun _ s' => s'.CanRest (cfg.getRoutine u) := by
  have hprepared : (talking cfg).Follows t (rollbackPreparedDelta u) (.busy ⟨true, []⟩)
      fun _ s' => s'.CanRest (cfg.getRoutine u) :=
    calm_then (follows_onlyPost ht true) fun _ => trivial
  have hready : (talking cfg).Follows t (rollbackReady u rebootSupport) (.busy ⟨true, []⟩)
      fun _ s' => s'.CanRest (cfg.getRoutine u) :=
    quiet_then (all_readComp u _) fun version => quiet_then (by simp [Quiet]) fun _ =>
      follows_updateStartInstallOperations ht rebootSupport
  have hinstall : ∀ state, (talking cfg).Follows t (rollbackInstall u state next rebootSupport)
      (.busy ⟨true, []⟩) fun _ s' => s'.CanRest (cfg.getRoutine u) := by
    intro state
    refine calm_then ?_ fun updateSts => by
      simp [Prog.all_ite, quiet_rollbackToNext]
    split
    · exact hready
    · exact Talk.ended_silent _ _
  refine quiet_then (by simp [Quiet]) fun _ => quiet_then (all_readComp u _) fun updateFile =>
    quiet_then (all_readComp u _) fun ue =>
    quiet_then (quiet_prepareInstallAction u _ _ _ _) fun prepared =>
    quiet_then (by simp [Quiet]) fun _ => quiet_then (by simp [Quiet]) fun _ =>
    quiet_then (all_readComp u _) fun file => quiet_then (by simp [Quiet]) fun isPreparedDelta => ?_
  refine calm_then ?_ fun updateSts => by simp [Quiet]
  split
  · exact hprepared
  · exact hinstall prepared.state

theorem follows_updateStartRollbackOperations (rbVersion : String) (rebootSupport : Bool) :
    (talking cfg).Follows t (updateStartRollbackOperations u rbVersion rebootSupport)
      (.busy ⟨true, []⟩) fun _ s' => s'.CanRest (cfg.getRoutine u) := by
  have hinstalled : (talking cfg).Follows t (rollbackToInstalled u rbVersion) (.busy ⟨true, []⟩)
      fun _ s' => s'.CanRest (cfg.getRoutine u) := by
    refine quiet_then (by simp [Quiet]) fun _ => quiet_then (by simp [Quiet]) fun _ =>
      quiet_then (all_readComp u _) fun info => quiet_then (by simp) fun _ =>
      quiet_then (all_readComp u _) fun version => quiet_then (all_readComp u _) fun name =>
      quiet_then (by simp [Quiet]) fun _ => quiet_then (by simp) fun _ => ?_
    exact calm_then (follows_onlyPost ht true) fun _ => trivial
  have hwithout : (talking cfg).Follows t (rollbackWithoutPackage u rbVersion)
      (.busy ⟨true, []⟩) fun _ s' => s'.CanRest (cfg.getRoutine u) := by
    refine quiet_then (quiet_updateGetNextRollbackVersion u _) fun next => ?_
    cases next with
    | some next =>
      exact quiet_then (by simp [quiet_updateSendRollbackIntent]) fun _ =>
        Talk.ended_silent _ _
    | none => exact calm_then (follows_onlyPost ht true) fun _ => trivial
  have hversion : (talking cfg).Follows t (rollbackToVersion u rbVersion rebootSupport)
      (.busy ⟨true, []⟩) fun _ s' => s'.CanRest (cfg.getRoutine u) := by
    refine quiet_then (quiet_updateGetRollbackPackage u _ _) fun found => ?_
    dsimp only
    split
    · exact follows_rollbackWithPackage ht _ _ _ _
    · exact hwithout
  refine quiet_then (by simp [Quiet]) fun _ => quiet_then (by simp [Quiet]) fun _ =>
    quiet_then (by simp [Quiet]) fun _ =>
    quiet_then (quiet_updateInstalledVersionSame u _) fun same => ?_
  refine calm_then ?_ fun updateSts => by
    simp [quiet_removeUpdateManifest, quiet_rollbackFailed]
  split
  · exact hinstalled
  · exact hversion

theorem follows_readyUpdateInstall :
    (talking cfg).Follows t (readyUpdateInstall u) (.busy ⟨true, []⟩) fun _ s' =>
      s'.CanRest (cfg.getRoutine u) := by
  refine quiet_then (all_readIntl _) fun rebootSupport =>
    quiet_then (all_readComp u _) fun rollbackVersion => ?_
  cases rollbackVersion with
  | some version => exact follows_updateStartRollbackOperations ht version rebootSupport
  | none =>
    refine quiet_then (all_readComp u _) fun retryCnt => quiet_then (by simp [Quiet]) fun _ => ?_
    exact calm_then (follows_updateStartInstallOperations ht rebootSupport) fun updateSts =>
      quiet_afterInstall u updateSts

/-- A ready-update takes up one installation and ends it. -/
theorem follows_processReadyUpdate (hresume : t ≠ .resume u) (jsonObj : Json) :
    (talking cfg).Follows t (processReadyUpdate u jsonObj) .rest fun _ s' => s' = .rest := by
  have hrest : (do
      let cleanupOk ← op (.testCleanupOk u)
      doIf cleanupOk (deferredConfirm u jsonObj)
      readyUpdateRelease u).All Quiet := by
    simp [deferredConfirm, quiet_processConfirmUpdate, readyUpdateRelease,
      quiet_updateReleaseCompContext, Quiet]
  have hready : (talking cfg).Follows t (readyUpdate u jsonObj) (.busy ⟨true, []⟩)
      fun _ s' => s' = .rest := by
    have htype : (chooseRbType u).All Quiet := by simp [chooseRbType, readRbType, Quiet]
    refine quiet_then (all_readComp u _) fun name => quiet_then (by simp [Quiet]) fun _ =>
      quiet_then (all_readIntl _) fun cid => quiet_then (by simp [Quiet]) fun _ =>
      quiet_then htype fun _ => .bind ((follows_readyUpdateInstall ht).mono ?_)
    intro updateSts s hs
    refine quiet_then (quiet_readyUpdateBackup u updateSts) fun _ =>
      quiet_then (all_readComp u _) fun name => ?_
    exact follows_rest ht (by trivial) hs fun _ => quiet_then (by simp [Quiet]) fun _ =>
      follows_quiet hrest .rest
  have hfailed : (readyUpdateFailed u).All Quiet := by simp [readyUpdateFailed]
  have hparsed : ∀ err, (talking cfg).Follows t (readyUpdateParsed u jsonObj err) .rest
      fun _ s' => s' = .rest := by
    intro err
    refine quiet_then (all_readComp u _) fun name => ?_
    split
    · exact ⟨.inr ⟨ht, hresume⟩, fun _ => ⟨_, ⟨.inr ⟨ht, hresume⟩, .inl rfl⟩, hready⟩⟩
    · exact follows_quiet hfailed .rest
  refine quiet_then (all_readIntl _) fun done => ?_
  split
  · exact quiet_then (by simp [Quiet]) fun _ => quiet_then (all_readIntl _) fun cacheDir =>
      quiet_then (all_readIntl _) fun backupDir =>
      quiet_then (quiet_updateParseJsonReadyUpdate u _ _ _) fun err => hparsed err
  · exact follows_quiet (by simp [Quiet]) .rest

theorem follows_call (hresume : t ≠ .resume u) (func : ProcessF) (jsonObj : Json) :
    (talking cfg).Follows t (ProcessF.call func u jsonObj) .rest fun _ s' => s' = .rest := by
  cases func with
  | queryPackage => exact follows_quiet (quiet_processQueryPackage u jsonObj) .rest
  | readyDownload => exact follows_quiet (quiet_processReadyDownload u jsonObj) .rest
  | readyUpdate => exact follows_processReadyUpdate ht hresume jsonObj
  | prepareUpdate => exact follows_quiet (quiet_processPrepareUpdate u jsonObj) .rest
  | confirmUpdate => exact follows_quiet (quiet_processConfirmUpdate u jsonObj) .rest
  | downloadReport | sotaReport | logReport => rfl
  | sequenceInfo => exact follows_quiet (quiet_processSequenceInfo u jsonObj) .rest
  | updateStatus => exact follows_quiet (quiet_processUpdateStatus u jsonObj) .rest
  | queryUpdates => exact follows_quiet (quiet_processQueryUpdates u jsonObj) .rest

theorem follows_workerAction (hresume : t ≠ .resume u) :
    (talking cfg).Follows t (workerAction u) .rest fun _ s' => s' = .rest := by
  refine quiet_then (all_readComp u _) fun func => quiet_then (all_readComp u _) fun jObj =>
    quiet_then (by simp [Quiet]) fun jsonObj =>
    .bind ((follows_call ht hresume func jsonObj).mono ?_)
  rintro _ s' rfl
  exact follows_quiet (by simp [Quiet]) .rest

theorem follows_runnerPass (hresume : t ≠ .resume u) (msg : Option Json) :
    (talking cfg).Follows t (runnerPass u msg) .rest fun _ s' => s' = .rest := by
  have hmessage : (talking cfg).Follows t (processMessage u msg) .rest fun _ s' => s' = .rest := by
    cases msg with
    | none => rfl
    | some jObj =>
      have hstart : ∀ func, (startWorker u func jObj).All Quiet := by
        simp [startWorker, claimWorker, Quiet]
      have htype : ∀ type, (talking cfg).Follows t (dispatchType u jObj type) .rest
          fun _ s' => s' = .rest := by
        intro type
        refine quiet_then (all_readIntl _) fun async => quiet_then (by simp [Quiet]) fun type => ?_
        split
        · exact rests_ite (follows_quiet (hstart _) .rest) (follows_call ht hresume _ jObj)
        · rfl
      have hcallback : ∀ (c : Prop) [Decidable c] ctl,
          (if c then callback u .onMessage ctl else pure false : UaProg Bool).All Quiet := by
        intro c _ ctl
        simp [Prog.all_ite, Quiet, installCallbacks]
      exact quiet_then (by simp [isOutdated, Prog.all_ite, Quiet]) fun outdated => rests_doIf <|
        quiet_then (all_readComp u _) fun uar => quiet_then (hcallback _ _) fun processed =>
        rests_doIf (htype _)
  refine .bind (hmessage.mono fun _ s' hs => ?_)
  subst hs
  exact follows_quiet (by simp [Quiet]) .rest

/-- A resumed installation has only the call at its end. -/
theorem follows_updateResumeFromReboot :
    (talking cfg).Follows t (updateResumeFromReboot u) (.busy Talk.start) fun _ s' =>
      s' = .rest := by
  have hpost : (talking cfg).Follows t (postUpdateAction u) (.busy Talk.start) fun _ s' =>
      s'.CanRest (cfg.getRoutine u) := follows_onlyPost ht false
  have hsucceeded : (talking cfg).Follows t (resumeSucceeded u) (.busy Talk.start) fun _ s' =>
      s'.CanRest (cfg.getRoutine u) :=
    quiet_then (all_readComp u _) fun info => quiet_then (by simp) fun _ =>
      quiet_then (all_readComp u _) fun name => quiet_then (all_readComp u _) fun version =>
      quiet_then (by simp [quiet_handlerBackupActions]) fun _ => hpost
  have hplain : (talking cfg).Follows t (resumePlainFailure u) (.busy Talk.start) fun _ s' =>
      s'.CanRest (cfg.getRoutine u) := calm_then hpost fun _ => by simp
  have hrollback : (talking cfg).Follows t (resumeRollback u) (.busy Talk.start) fun _ s' =>
      s'.CanRest (cfg.getRoutine u) := by
    refine quiet_then (all_readComp u _) fun version =>
      quiet_then (quiet_updateGetNextRollbackVersion u _) fun next => ?_
    cases next with
    | some next =>
      refine (follows_quiet (by simp [quiet_updateSendRollbackIntent]) _).mono fun _ s' hs => ?_
      subst hs
      exact Talk.ended_silent _ _
    | none => exact calm_then hpost fun _ => by simp
  have hfailed : (talking cfg).Follows t (resumeFailed u) (.busy Talk.start) fun _ s' =>
      s'.CanRest (cfg.getRoutine u) := by
    refine quiet_then (by simp [readRbType]) fun rbType => quiet_then (all_readComp u _) fun _ =>
      quiet_then (all_readComp u _) fun _ => ?_
    split
    · exact hplain
    · split
      · exact hrollback
      · exact hplain
  have hrest : ∀ path, (do
      remove path
      updateReleaseCompContext u
      assign u (.updateManifest none)
      assign u (.backupManifest none)
      assignIntl (.state .resumeDone)).All Quiet := by
    simp [quiet_updateReleaseCompContext, Quiet]
  have hresume : (talking cfg).Follows t (resumeInstallation u) (.busy Talk.start) fun _ s' =>
      s' = .rest := by
    refine quiet_then (all_readIntl _) fun cacheDir => quiet_then (all_readIntl _) fun backupDir =>
      quiet_then (by simp [assignManifests, Quiet]) fun _ =>
      quiet_then (all_readComp u _) fun version =>
      quiet_then (quiet_updateInstalledVersionSame u _) fun same => .bind ?_
    have hreport : (talking cfg).Follows t
        (if same then resumeSucceeded u else resumeFailed u) (.busy Talk.start) fun _ s' =>
          s'.CanRest (cfg.getRoutine u) := by
      split
      · exact hsucceeded
      · exact hfailed
    refine hreport.mono fun _ s hs => quiet_then (all_readComp u _) fun name => ?_
    exact follows_rest ht (by trivial) hs fun _ => quiet_then (all_readComp u _) fun path =>
      follows_quiet (hrest path) .rest
  refine quiet_then (by simp [Quiet]) fun _ => .bind (hresume.mono fun _ s' hs => ?_)
  subst hs
  exact follows_quiet (by simp [Quiet]) .rest

end Programs

/-! The threads of the agent. -/

/-- What is known of the talk of a thread in a stage. -/
def Says (uar : UaRoutine) (x : Talk) : Stage → Prop
  | .rest => x.InOrder uar ∧ x.Ended uar
  | .busy y => x = y ∧ x.InOrder uar
  | .never => False

variable (cfg)

/-- No thread has read other handlers than the registered ones. -/
def Fits (t : Tid) (s : Stage) (w : World) : Prop :=
  Registered cfg w.shared ∧ s ≠ .never ∧
    ∀ u, component t = some u → Says (cfg.getRoutine u) (talk t w.trace) s

variable {cfg}

theorem says_start (uar : UaRoutine) : Says uar .start .rest :=
  ⟨.inl List.nil_prefix, Talk.ended_silent uar _⟩

theorem says_begun (uar : UaRoutine) : Says uar .start (.busy .start) :=
  ⟨rfl, .inl List.nil_prefix⟩

theorem Says.inOrder {uar : UaRoutine} {x : Talk} {s : Stage} (h : Says uar x s) :
    x.InOrder uar := by
  cases s with
  | rest => exact h.1
  | busy y => exact h.2
  | never => exact h.elim

theorem registered_act {t : Tid} {o : Op} {b : o.Ans} {w w' : World}
    (hw : Registered cfg w.shared) (hact : effect cfg t w.shared o b = some w'.shared) :
    Registered cfg w'.shared := by
  intro u
  rw [effect_frame ignores_uar hact List.not_mem_nil u]
  exact hw u

/-- What a thread that keeps to the protocol says with an operation. -/
theorem says_after {t : Tid} {u : UaccPtr} (ht : component t = some u) {s : Stage} {x : Talk}
    (hs : Says (cfg.getRoutine u) x s) {o : Op} (hmay : s.May cfg t o) (b : o.Ans) :
    Says (cfg.getRoutine u) (x.after o b) (s.after o b) := by
  by_cases ho : Quiet o
  · rw [Talk.after_quiet ho, Stage.after_quiet ho]
    exact hs
  cases o with
  | ext o =>
    cases o with
    | callback u' f ctl =>
      have hf : f ∈ installCallbacks := not_not.mp ho
      obtain ⟨ht', y, rfl, hadd⟩ := hmay hf
      cases ht.symm.trans ht'
      obtain ⟨rfl, -⟩ := hs
      have hafter : x.after (.ext (.callback u f ctl)) b = x.add ⟨f, b⟩ := if_pos hf
      refine ⟨rfl, ?_⟩
      rw [hafter]
      exact hadd b
    | _ => exact absurd trivial ho
  | mark m =>
    cases m with
    | readyUpdateParsed u' name jsonObj =>
      cases s with
      | rest | busy y => exact ⟨rfl, .inl List.nil_prefix⟩
      | never => exact hs.elim
    | _ => exact absurd trivial ho
  | _ => exact absurd trivial ho

theorem says_rest {uar : UaRoutine} {x : Talk} {s : Stage} (hs : Says uar x s)
    (hrest : s.CanRest uar) : Says uar x .rest := by
  cases s with
  | rest => exact hs
  | busy y =>
    obtain ⟨rfl, horder⟩ := hs
    exact ⟨horder, hrest⟩
  | never => exact hs.elim

theorem after_ne_never {s : Stage} (hs : s ≠ .never) (o : Op) (b : o.Ans) :
    s.after o b ≠ .never := by
  cases s with
  | never => exact absurd rfl hs
  | busy x => simp [Stage.after]
  | rest =>
    cases o with
    | mark m => cases m <;> simp [Stage.after]
    | _ => simp [Stage.after]

theorem talking_sound : (talking cfg).Sound .rest (Fits cfg) (agent cfg) where
  init := by
    rintro w ⟨htrace, ctrl, hshared⟩ t
    refine ⟨fun u => ?_, by simp, fun u _ => ?_⟩
    · rw [hshared]
      rfl
    · rw [htrace]
      exact says_start _
  restart := by
    rintro w w' ⟨htrace, ctrl, hshared⟩ t
    refine ⟨fun u => ?_, by simp, fun u _ => ?_⟩
    · rw [hshared]
      rfl
    · rw [htrace]
      exact says_start _
  sees := by
    rintro t w phase s' hfits (rfl | ⟨-, u, -, hne⟩)
    · exact hfits t
    · exact absurd ((hfits t).1 u) hne
  act := by
    rintro t o b w w' phase s' hfits ⟨hact, htrace⟩ ⟨hmay, hs'⟩
    obtain ⟨hreg, hne, hreply⟩ := hfits t
    have hreg' : Registered cfg w'.shared := registered_act hreg hact
    have hmay : (phase t).May cfg t o := hmay.resolve_left hne
    have hafter : ∀ u, component t = some u →
        Says (cfg.getRoutine u) (talk t w'.trace) ((phase t).after o b) := by
      intro u ht
      rw [htrace, talk, Talk.next, if_pos rfl]
      exact says_after ht (hreply u ht) hmay b
    refine ⟨?_, fun t₂ hne₂ hfork => ?_, fun t₂ p hne₂ hfork _ => ?_⟩
    · obtain rfl | ⟨rfl, hrest⟩ := hs'
      · exact ⟨hreg', after_ne_never hne o b, hafter⟩
      · exact ⟨hreg', by simp, fun u ht => says_rest (hafter u ht) (hrest u ht)⟩
    · have hnone : (fork t o b).map Prod.fst ≠ some t₂ := by
        intro h
        obtain ⟨⟨t', p⟩, hp, rfl⟩ := Option.map_eq_some_iff.mp h
        exact hfork p hp
      refine ⟨hreg', (hfits t₂).2.1, fun u ht₂ => ?_⟩
      rw [htrace, talk, Talk.next, if_neg hne₂.symm, if_neg hnone]
      exact (hfits t₂).2.2 u ht₂
    · have htalk : talk t₂ w'.trace = .start := by
        have hfst : (fork t o b).map Prod.fst = some t₂ := by
          rw [show fork t o b = some (t₂, p) from hfork]
          rfl
        rw [htrace, talk, Talk.next, if_neg hne₂.symm, if_pos hfst]
      have hrests : Fits cfg t₂ .rest w' :=
        ⟨hreg', by simp, fun u _ => by rw [htalk]; exact says_start _⟩
      obtain ⟨u, n, -, rfl, rfl⟩ | ⟨u, -, rfl, rfl⟩ | ⟨n, -, rfl, rfl⟩ | ⟨n, passes, -, rfl, rfl⟩ :=
        fork_cases (t := t) hfork
      · exact ⟨.rest, hrests, follows_workerAction rfl (by simp)⟩
      · refine ⟨.busy .start, ⟨hreg', by simp, fun u' _ => ?_⟩, follows_updateResumeFromReboot rfl⟩
        rw [htalk]
        exact says_begun _
      · exact ⟨.rest, hrests, follows_quiet (by simp [uaHandleDmcPresence, Quiet]) .rest⟩
      · exact ⟨.rest, hrests, follows_quiet (quiet_updateSequenceInfo _) .rest⟩
  arrive := by
    rintro t p w w' phase hfits hphase ⟨e, harrive, rfl⟩
    have htalk : ∀ t₂, talk t₂ (e :: w.trace) = talk t₂ w.trace := by
      intro t₂
      cases harrive <;> rfl
    have hkeep : ∀ t₂, Fits cfg t₂ (phase t₂) { w with trace := e :: w.trace } := by
      intro t₂
      obtain ⟨hreg, hne, hreply⟩ := hfits t₂
      exact ⟨hreg, hne, fun u ht => by rw [htalk]; exact hreply u ht⟩
    have hrests := hkeep t
    rw [hphase] at hrests
    refine ⟨⟨.rest, hrests, ?_⟩, fun t₂ _ => hkeep t₂⟩
    cases harrive with
    | message u msg hreg => exact follows_runnerPass rfl (by simp) msg
    | presence connected => exact follows_quiet (quiet_handlePresence _ connected) .rest

/-- A callback of an installation or the taking up of a ready-update is for the thread's own
component, and a resume thread takes up none. -/
def Own (t : Tid) : Op → Prop
  | .ext (.callback u f _) => f ∈ installCallbacks → component t = some u
  | .mark (.readyUpdateParsed u _ _) => component t = some u ∧ t ≠ .resume u
  | _ => True

theorem Own.of_may {t : Tid} {s : Stage} {o : Op} (h : s.May cfg t o) : Own t o := by
  cases o with
  | ext o =>
    cases o with
    | callback u f ctl => exact fun hf => (h hf).1
    | _ => trivial
  | mark m =>
    cases m with
    | readyUpdateParsed u name jsonObj => exact h
    | _ => trivial
  | _ => trivial

theorem own_of_pool {c : AgentConfiguration} (hc : (agent cfg).Reachable c) {t : Tid} {o : Op}
    {k : o.Ans → UaProg Unit} (hpool : c.pool t = Prog.call o k) : Own t o := by
  obtain ⟨phase, hphase⟩ := talking_sound.phases hc
  obtain ⟨⟨-, hne, -⟩, hfollows⟩ := hphase t
  rw [hpool] at hfollows
  exact Own.of_may (hfollows.1.resolve_left hne)

theorem own_of_mem {c : AgentConfiguration} (hc : (agent cfg).Reachable c) {t : Tid} {o : Op}
    {b : o.Ans} (h : Event.did t o b ∈ c.st.trace) : Own t o := by
  have hcons : ∀ {w w' : World} {t' : Tid} {o' : Op} {b' : o'.Ans},
      w'.trace = .did t' o' b' :: w.trace → (Event.did t o b ∈ w.trace → Own t o) → Own t' o' →
      Event.did t o b ∈ w'.trace → Own t o := by
    intro w w' t' o' b' htrace hold hnew hmem
    rw [htrace] at hmem
    obtain heq | hmem := List.mem_cons.mp hmem
    · cases heq
      exact hnew
    · exact hold hmem
  induction hc with
  | init w hinit =>
    rw [hinit.1] at h
    cases h
  | step c c' hc hstep ih =>
    cases hstep with
    | get t k hpool => exact ih h
    | call t' o' k b' w hpool hact hfork => exact hcons hact.2 ih (own_of_pool hc hpool) h
    | fork t' o' k b' w t₂ p hpool hact hfork hne hidle =>
      exact hcons hact.2 ih (own_of_pool hc hpool) h
    | arrive t' p w hidle harrive =>
      obtain ⟨e, harrive, rfl⟩ := harrive
      cases harrive <;> exact ih ((List.mem_cons.mp h).resolve_left (by simp))
    | restart w hrestart =>
      rw [hrestart.1] at h
      exact ih ((List.mem_cons.mp h).resolve_left (by simp))

theorem inOrder_of_reachable {c : AgentConfiguration} (hc : (agent cfg).Reachable c) {t : Tid}
    {u : UaccPtr} (ht : component t = some u) :
    (talk t c.st.trace).InOrder (cfg.getRoutine u) := by
  obtain ⟨phase, hphase⟩ := talking_sound.phases hc
  exact ((hphase t).1.2.2 u ht).inOrder

/-- Only threads of a component make the calls of its installations. Each makes them in order,
and has come to the end of an installation when it has come to its own. -/
theorem callbacks_in_order {c : AgentConfiguration} (hc : (agent cfg).Reachable c) :
    (∀ t u f ctl b, Event.did t (.ext (.callback u f ctl)) b ∈ c.st.trace →
      f ∈ installCallbacks → component t = some u) ∧
    ∀ t u, component t = some u → (talk t c.st.trace).InOrder (cfg.getRoutine u) ∧
      (c.Idle t → (talk t c.st.trace).Ended (cfg.getRoutine u)) := by
  refine ⟨fun t u f ctl b hmem => own_of_mem hc hmem, fun t u ht =>
    ⟨inOrder_of_reachable hc ht, fun hidle => ?_⟩⟩
  obtain ⟨phase, hphase⟩ := talking_sound.phases hc
  obtain ⟨⟨-, -, hreply⟩, hfollows⟩ := hphase t
  have hrest : phase t = .rest := by
    rw [show c.pool t = Prog.pure () from hidle] at hfollows
    exact hfollows
  have hreply := hreply u ht
  rw [hrest] at hreply
  exact hreply.2

/-- An application with all callbacks of an installation. -/
def courteous : AgentConfig :=
  { sampleConfig false 1 with
    getRoutine := fun _ =>
      { sampleRoutine with onPreInstall := true, onSetVersion := true, onPostInstall := true }
    accepted := fun _ => .inl ⟨rfl, rfl⟩ }

/-- The ready-update of version 2 is granted while its worker waits, which then goes on. -/
def granted : AgentConfiguration :=
  rehearse courteous Anything (usualOracle "1")
    [connected courteous Anything, .steps .bus 60, .steps (.presence 0) 10,
      message courteous Anything 0 Nat.one_pos
        (packageMessage bmtReadyUpdate [] "pkg" "2" (downloadedFile "2")),
      .steps (.runner 0) 60, .steps (.worker 0 0) 68,
      message courteous Anything 0 Nat.one_pos grantingReply, .steps (.runner 0) 60,
      .steps (.worker 0 0) 200]

theorem callbacks_in_order_example :
    (talk (.worker 0 0) granted.st.trace).calls.map Sigma.fst = installCallbacks ∧
      (talk (.worker 0 0) granted.st.trace).Ended (courteous.getRoutine 0) :=
  ⟨by decide +kernel, ((callbacks_in_order (agent_reachable _ _ _)).2 (.worker 0 0) 0 rfl).2
    (idle_of_isIdle (by decide +kernel))⟩

/-! No installation without a ready-update. -/

/-- A call of `on_install` of the component. -/
def installsFor (u : UaccPtr) : Op → Bool
  | .ext (.callback u' .onInstall _) => u' == u
  | _ => false

/-- The taking up of a ready-update for the component. -/
def takesUpFor (u : UaccPtr) : Op → Bool
  | .mark (.readyUpdateParsed u' _ _) => u' == u
  | _ => false

/-- The threads that have performed such operations, one for each operation. -/
def doers (p : Op → Bool) (es : List Event) : List Tid :=
  es.filterMap fun e =>
    match e with
    | .did t o _ => if p o then some t else none
    | _ => none

theorem count_doers_did (p : Op → Bool) (t t' : Tid) (o : Op) (b : o.Ans) (es : List Event) :
    (doers p (.did t' o b :: es)).count t =
      (doers p es).count t + if t' = t ∧ p o then 1 else 0 := by
  cases h : p o with
  | false => simp [doers, h]
  | true => simp [doers, h, List.count_cons]

theorem quiet_not_installsFor {u : UaccPtr} {o : Op} (ho : Quiet o) : installsFor u o = false := by
  cases o with
  | ext o =>
    cases o with
    | callback u' f ctl =>
      cases f with
      | onInstall => exact absurd (by decide) ho
      | _ => rfl
    | _ => rfl
  | _ => rfl

theorem quiet_not_takesUpFor {u : UaccPtr} {o : Op} (ho : Quiet o) : takesUpFor u o = false := by
  cases o with
  | mark m =>
    cases m with
    | readyUpdateParsed u' name jsonObj => exact ho.elim
    | _ => rfl
  | _ => rfl

/-- The calls of `on_install`. -/
def installs (calls : List Call) : Nat := calls.countP fun call => decide (call.1 = .onInstall)

theorem installs_append (xs ys : List Call) :
    installs (xs ++ ys) = installs xs + installs ys := List.countP_append

theorem installs_installation (uar : UaRoutine) (pre state : InstallState) (rc : Rc) :
    installs (installation uar pre state rc) ≤ 1 := by
  have hasked : installs (asked uar pre) = 0 := by
    unfold asked
    split <;> simp [installs]
  have hinstalled : installs (installed uar state rc) ≤ 1 := by
    unfold installed
    split
    · split <;> simp [installs]
    · simp [installs]
  have hposted : installs (posted uar) = 0 := by
    unfold posted
    split <;> simp [installs]
  unfold installation
  split
  · rw [installs_append, installs_append]
    omega
  · rw [installs_append, hasked]
    simp [installs]

/-- There is one installation for a ready-update and none without. -/
theorem installs_le {uar : UaRoutine} {x : Talk} (h : x.InOrder uar) :
    installs x.calls ≤ x.parsed.toNat := by
  obtain h | ⟨hparsed, pre, state, rc, h⟩ := h
  · have hle : installs x.calls ≤ installs [⟨.onPostInstall, ()⟩] := h.sublist.countP_le
    have hzero : installs [⟨.onPostInstall, ()⟩] = 0 := by simp [installs]
    omega
  · have hle : installs x.calls ≤ installs (installation uar pre state rc) := h.sublist.countP_le
    rw [hparsed]
    exact Nat.le_trans hle (installs_installation uar pre state rc)

/-- What the installations and the ready-updates of a thread have to do with its talk. -/
def Counted (u : UaccPtr) (t : Tid) (es : List Event) : Prop :=
  (doers (installsFor u) es).count t + (talk t es).parsed.toNat ≤
    (doers (takesUpFor u) es).count t + installs (talk t es).calls

theorem counted_own {u : UaccPtr} {t : Tid} (ht : component t = some u) {o : Op} (ho : Own t o)
    (b : o.Ans) {es : List Event} (h : Counted u t es)
    (hinstalls : installs (talk t es).calls ≤ (talk t es).parsed.toNat) :
    Counted u t (.did t o b :: es) := by
  unfold Counted at h ⊢
  rw [count_doers_did, count_doers_did, talk, Talk.next, if_pos rfl]
  by_cases hquiet : Quiet o
  · rw [Talk.after_quiet hquiet, quiet_not_installsFor hquiet, quiet_not_takesUpFor hquiet]
    simpa using h
  cases o with
  | ext o =>
    cases o with
    | callback u' f ctl =>
      have hf : f ∈ installCallbacks := not_not.mp hquiet
      obtain rfl : u' = u := Option.some.inj ((ho hf).symm.trans ht)
      have hafter : (talk t es).after (.ext (.callback u' f ctl)) b = (talk t es).add ⟨f, b⟩ :=
        if_pos hf
      rw [hafter]
      simp only [Talk.add, installs_append, takesUpFor]
      cases f with
      | onInstall =>
        simp only [installsFor, installs, List.countP_singleton] at h ⊢
        simp only [BEq.rfl, and_self, if_true, decide_true]
        omega
      | _ =>
        simp only [installsFor, installs] at h ⊢
        simp
        omega
    | _ => exact absurd trivial hquiet
  | mark m =>
    cases m with
    | readyUpdateParsed u' name jsonObj =>
      obtain rfl : u' = u := Option.some.inj (ho.1.symm.trans ht)
      simp only [Talk.after, installsFor, takesUpFor, BEq.rfl, and_self, if_true]
      simp [installs] at h hinstalls ⊢
      omega
    | _ => exact absurd trivial hquiet
  | _ => exact absurd trivial hquiet

theorem counted_other {u : UaccPtr} {t t' : Tid} (hne : t' ≠ t) (o : Op) (b : o.Ans)
    {es : List Event} (h : Counted u t es)
    (hinstalls : installs (talk t es).calls ≤ (talk t es).parsed.toNat) :
    Counted u t (.did t' o b :: es) := by
  unfold Counted at h ⊢
  rw [count_doers_did, if_neg fun h => hne h.1, count_doers_did, if_neg fun h => hne h.1, talk,
    Talk.next, if_neg hne]
  split
  · simp only [Talk.start, Bool.toNat_false]
    omega
  · exact h

theorem counted_of_reachable {c : AgentConfiguration} (hc : (agent cfg).Reachable c) {t : Tid}
    {u : UaccPtr} (ht : component t = some u) : Counted u t c.st.trace := by
  have hdid : ∀ {c : AgentConfiguration} {w' : World} {t' : Tid} {o : Op} {b : o.Ans}
      {k : o.Ans → UaProg Unit}, (agent cfg).Reachable c → Counted u t c.st.trace →
      c.pool t' = Prog.call o k → w'.trace = .did t' o b :: c.st.trace →
      Counted u t w'.trace := by
    intro c w' t' o b k hc h hpool htrace
    have hinstalls := installs_le (inOrder_of_reachable hc ht)
    rw [htrace]
    by_cases heq : t' = t
    · subst heq
      exact counted_own ht (own_of_pool hc hpool) b h hinstalls
    · exact counted_other heq o b h hinstalls
  induction hc with
  | init w hinit =>
    rw [hinit.1]
    exact Nat.le_refl _
  | step c c' hc hstep ih =>
    cases hstep with
    | get t' k hpool => exact ih
    | call t' o k b w hpool hact hfork => exact hdid hc ih hpool hact.2
    | fork t' o k b w t₂ p hpool hact hfork hne hidle => exact hdid hc ih hpool hact.2
    | arrive t' p w hidle harrive =>
      obtain ⟨e, harrive, rfl⟩ := harrive
      cases harrive <;> exact ih
    | restart w hrestart =>
      have hinstalls := installs_le (inOrder_of_reachable hc ht)
      unfold Counted at ih ⊢
      rw [hrestart.1]
      simp only [talk, Talk.next, Talk.start, Bool.toNat_false, doers, List.filterMap_cons] at ih ⊢
      omega

theorem mem_doers {p : Op → Bool} {t : Tid} {es : List Event} (h : t ∈ doers p es) :
    ∃ o b, Event.did t o b ∈ es ∧ p o := by
  obtain ⟨e, he, hdoer⟩ := List.mem_filterMap.mp h
  cases e with
  | did t' o b =>
    obtain ⟨hp, heq⟩ := Option.ite_none_right_eq_some.mp hdoer
    cases heq
    exact ⟨o, b, he, hp⟩
  | _ => cases hdoer

theorem component_of_installsFor {t : Tid} {u : UaccPtr} {o : Op} (ho : Own t o)
    (h : installsFor u o) : component t = some u := by
  cases o with
  | ext o =>
    cases o with
    | callback u' f ctl =>
      cases f with
      | onInstall =>
        rw [← beq_iff_eq.mp h]
        exact ho (by decide)
      | _ => cases h
    | _ => cases h
  | _ => cases h

theorem not_resume_of_takesUpFor {t : Tid} {u : UaccPtr} {o : Op} (ho : Own t o)
    (h : takesUpFor u o) : t ≠ .resume u := by
  cases o with
  | mark m =>
    cases m with
    | readyUpdateParsed u' name jsonObj =>
      rw [← beq_iff_eq.mp h]
      exact ho.2
    | _ => cases h
  | _ => cases h

theorem installs_subperm {c : AgentConfiguration} (hc : (agent cfg).Reachable c) (u : UaccPtr) :
    (doers (installsFor u) c.st.trace).Subperm (doers (takesUpFor u) c.st.trace) := by
  refine List.subperm_iff_count.mpr fun t => ?_
  by_cases ht : component t = some u
  · have hcounted := counted_of_reachable hc ht
    have hinstalls := installs_le (inOrder_of_reachable hc ht)
    unfold Counted at hcounted
    omega
  · have hnone : t ∉ doers (installsFor u) c.st.trace := by
      intro hmem
      obtain ⟨o, b, hevent, ho⟩ := mem_doers hmem
      exact ht (component_of_installsFor (own_of_mem hc hevent) ho)
    rw [List.count_eq_zero_of_not_mem hnone]
    exact Nat.zero_le _

/-- Each installation is for a ready-update of its own, which the same thread has taken up. No
resume thread installs anything. -/
theorem installed_once {c : AgentConfiguration} (hc : (agent cfg).Reachable c) (u : UaccPtr) :
    (doers (installsFor u) c.st.trace).Subperm (doers (takesUpFor u) c.st.trace) ∧
      ∀ u', .resume u' ∉ doers (installsFor u) c.st.trace := by
  refine ⟨installs_subperm hc u, fun u' hmem => ?_⟩
  obtain ⟨o, b, hevent, ho⟩ := mem_doers hmem
  obtain rfl : u' = u :=
    Option.some.inj (component_of_installsFor (own_of_mem hc hevent) ho)
  obtain ⟨o', b', hevent', ho'⟩ := mem_doers ((installs_subperm hc u').subset hmem)
  exact not_resume_of_takesUpFor (own_of_mem hc hevent') ho' rfl

theorem installed_once_example :
    doers (installsFor 0) granted.st.trace = [.worker 0 0] ∧
      (doers (installsFor 0) granted.st.trace).Subperm (doers (takesUpFor 0) granted.st.trace) ∧
      ∀ u', .resume u' ∉ doers (installsFor 0) granted.st.trace :=
  ⟨by decide +kernel, installed_once (agent_reachable _ _ _) 0⟩

end EsyncUa.CallbackOrder
