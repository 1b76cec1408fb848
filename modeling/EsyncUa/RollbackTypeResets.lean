import EsyncUa.AnsweredRuns
import EsyncUa.Frames
import EsyncUa.Rehearsals

/-!
The rollback type of a package after its confirm-update. The handler resets the type of the
package that the component works on, which need not be the one that the message names. One
thread runs here, and the calls may be answered as they like.
-/
namespace EsyncUa.RollbackTypeResets

open EsyncUa.JsonProperties EsyncUa.Components EsyncUa.Programs EsyncUa.Operations
open EsyncUa.Installation EsyncUa.Updater EsyncUa.Messages EsyncUa.Agents EsyncUa.Footprints
open EsyncUa.Frames EsyncUa.AnsweredRuns

section Runs

variable {α : Type}

/-- A file that is there is found. -/
def Finds (present : String → Prop) : (o : Op) → o.Ans → Prop
  | .ext (.access (some path)), (found : Bool) => present path → found = true
  | _, _ => True

/-- An operation of the thread, while these files are there. -/
def Step (cfg : AgentConfig) (t : Tid) (present : String → Prop) (o : Op) (b : o.Ans)
    (s s' : Shared) : Prop :=
  Finds present o b ∧ effect cfg t s o b = some s'

/-- What a program of the agent may return and leave. -/
abbrev UaRun (cfg : AgentConfig) (t : Tid) (present : String → Prop) (p : UaProg α) (s : Shared)
    (a : α) (s' : Shared) : Prop :=
  Yields id (Step cfg t present) p s a s'

variable (cfg : AgentConfig) (t : Tid) (present : String → Prop) (u : UaccPtr) (s s' : Shared)

@[simp] theorem run_op (o : Op) (b : o.Ans) :
    @Yields _ _ _ _ (no_index o.Ans) id (Step cfg t present) (op o) s b s' ↔
      Finds present o b ∧ effect cfg t s o b = some s' :=
  yields_perform id (Step cfg t present) o s b s'

@[simp] theorem run_ext (o : ExtOp) (b : o.Ans) :
    @Yields _ _ _ _ (no_index o.Ans) id (Step cfg t present) (ext o) s b s' ↔
      Finds present (.ext o) b ∧ effect cfg t s (.ext o) b = some s' :=
  yields_perform id (Step cfg t present) (.ext o) s b s'

@[simp] theorem run_assign (x : Assign) (a : Unit) :
    UaRun cfg t present (assign u x) s a s' ↔
      Shared.setComp s u (Assign.apply x (s.comp u)) = s' := by
  refine (run_op cfg t present s s' (.assign u x) a).trans ?_
  simp [Finds, effect]

@[simp] theorem run_assignIntl (x : AssignIntl) (a : Unit) :
    UaRun cfg t present (assignIntl x) s a s' ↔
      Shared.setIntl s (AssignIntl.apply x s.intl) = s' := by
  refine (run_op cfg t present s s' (.assignIntl x) a).trans ?_
  simp [Finds, effect]

@[simp] theorem run_readComp (f : UaComponentContext → α) (a : α) :
    UaRun cfg t present (readComp u f) s a s' ↔ f (s.comp u) = a ∧ s = s' := Iff.rfl

@[simp] theorem run_readIntl (f : UaInternal → α) (a : α) :
    UaRun cfg t present (readIntl f) s a s' ↔ f s.intl = a ∧ s = s' := Iff.rfl

@[simp] theorem run_doIf (c : Prop) [Decidable c] (p : UaProg Unit) (a : Unit) :
    UaRun cfg t present (doIf c p) s a s' ↔
      if c then UaRun cfg t present p s a s' else s = s' := by
  unfold doIf UaRun
  rw [yields_ite]
  split
  · rfl
  · simp

end Runs

section Types

variable {ctrl : Table CompCtrl} {name : String}

theorem compGetRbType_set (ctrl : Table CompCtrl) (p q : String) (rbType : UpdateRollback) :
    compGetRbType (compSetRbType ctrl (some p) rbType) (some q) =
      if q = p then rbType else compGetRbType ctrl (some q) := by
  unfold compSetRbType compGetRbType
  simp only [Option.bind_some]
  by_cases hq : q = p
  · subst hq
    cases ctrl q <;> simp
  · cases ctrl p <;> simp [hq]

/-- The type of the package is URB_NONE afterwards, and those of the others are as before. -/
structure Reset (ctrl ctrl' : Table CompCtrl) (name : String) : Prop where
  own : compGetRbType ctrl' (some name) = .none
  others : ∀ q, q ≠ name → compGetRbType ctrl' (some q) = compGetRbType ctrl (some q)

/-- What process_confirm_update does to the types when the component works on `current`. -/
def clearRbType (ctrl : Table CompCtrl) (current : Option String) : Table CompCtrl :=
  if compGetRbType ctrl current ≠ .none then compSetRbType ctrl current .none else ctrl

theorem compGetRbType_clear (current : Option String) (q : String) :
    compGetRbType (clearRbType ctrl current) (some q) =
      if current = some q then .none else compGetRbType ctrl (some q) := by
  unfold clearRbType
  cases current with
  | none => simp [compGetRbType]
  | some p =>
      by_cases hq : p = q
      · subst hq
        split
        · simp [compGetRbType_set]
        · rename_i hnone
          simpa using hnone
      · split
        · simp [compGetRbType_set, hq, Ne.symm hq]
        · simp [hq]

theorem reset_same_iff : Reset ctrl ctrl name ↔ compGetRbType ctrl (some name) = .none :=
  ⟨Reset.own, fun h => ⟨h, fun _ _ => rfl⟩⟩

theorem reset_clear_iff (current : Option String) :
    Reset ctrl (clearRbType ctrl current) name ↔
      (current = some name ∨ compGetRbType ctrl (some name) = .none) ∧
        ∀ q, current = some q → q ≠ name → compGetRbType ctrl (some q) = .none := by
  constructor
  · intro h
    refine ⟨?_, ?_⟩
    · have hown := h.own
      rw [compGetRbType_clear] at hown
      split at hown
      · rename_i hcurrent
        exact .inl hcurrent
      · exact .inr hown
    · rintro q rfl hq
      have hother := h.others q hq
      rw [compGetRbType_clear, if_pos rfl] at hother
      exact hother.symm
  · rintro ⟨hown, hothers⟩
    refine ⟨?_, fun q hq => ?_⟩
    · rw [compGetRbType_clear]
      split
      · rfl
      · rename_i hcurrent
        exact hown.resolve_left hcurrent
    · rw [compGetRbType_clear]
      split
      · rename_i hcurrent
        exact (hothers q hcurrent hq).symm
      · rfl

end Types

section Confirmation

variable {α : Type} {cfg : AgentConfig} {t : Tid} {present : String → Prop} {u : UaccPtr}
  {s s' : Shared} {jsonObj : Json} {name path : String}

/-- The operation leaves the rollback types alone. -/
def Still (o : Op) : Prop := Op.kind o ≠ .ctrl ∧ Op.kind o ≠ .setContext

theorem effect_ctrl {o : Op} {b : o.Ans} (ho : Still o) (h : effect cfg t s o b = some s') :
    s'.intl.componentCtrl = s.intl.componentCtrl := by
  have hchange := effect_intl h
  generalize s'.intl = intl at hchange
  cases hchange with
  | assign x =>
      cases x with
      | rbType | customMessage => exact absurd rfl ho.1
      | _ => rfl
  | setContext => exact absurd rfl ho.2
  | _ => rfl

theorem run_still {p : UaProg α} (hp : p.All Still) {a : α} (h : UaRun cfg t present p s a s') :
    s'.intl.componentCtrl = s.intl.componentCtrl :=
  yields_frame (f := fun s : Shared => s.intl.componentCtrl)
    (fun _ ho _ _ _ hstep => effect_ctrl ho hstep.2) hp h

/-- The operation can be performed in every state. -/
def Answerable (cfg : AgentConfig) (t : Tid) (present : String → Prop) (o : Op) : Prop :=
  ∀ s, ∃ b s', Step cfg t present o b s s'

theorem run_exists {p : UaProg α} (hp : p.All (Answerable cfg t present)) (s : Shared) :
    ∃ a s', UaRun cfg t present p s a s' :=
  yields_exists (fun _ ho => ho) hp s

@[simp] theorem answerable_assign (x : Assign) : Answerable cfg t present (.assign u x) :=
  fun _ => ⟨(), _, trivial, rfl⟩

@[simp] theorem answerable_assignIntl (x : AssignIntl) :
    Answerable cfg t present (.assignIntl x) := fun _ => ⟨(), _, trivial, rfl⟩

@[simp] theorem answerable_remove (path : Option String) :
    Answerable cfg t present (.remove path) := fun _ => ⟨(), _, trivial, rfl⟩

@[simp] theorem answerable_access (path : Option String) :
    Answerable cfg t present (.ext (.access path)) := by
  intro s
  cases path with
  | none => exact ⟨false, s, trivial, rfl⟩
  | some path => exact ⟨true, s, fun _ => rfl, rfl⟩

@[simp] theorem answerable_rmdirp (path : Option String) :
    Answerable cfg t present (.ext (.rmdirp path)) := fun s => ⟨(), s, trivial, rfl⟩

@[simp] theorem answerable_removeOldBackup (pkgName manifest version : Option String) :
    Answerable cfg t present (.ext (.removeOldBackup u pkgName manifest version)) :=
  fun s => ⟨eUaOk, s, trivial, rfl⟩

/-- The program can be run, and every run of it leaves these rollback types. -/
def Leaves (cfg : AgentConfig) (t : Tid) (present : String → Prop) (p : UaProg Unit) (s : Shared)
    (ctrl : Table CompCtrl) : Prop :=
  (∃ s', UaRun cfg t present p s () s') ∧
    ∀ s', UaRun cfg t present p s () s' → s'.intl.componentCtrl = ctrl

theorem leaves_readComp (f : UaComponentContext → α) (k : α → UaProg Unit)
    (ctrl : Table CompCtrl) :
    Leaves cfg t present (readComp u f >>= k) s ctrl ↔
      Leaves cfg t present (k (f (s.comp u))) s ctrl := Iff.rfl

theorem leaves_readIntl (f : UaInternal → α) (k : α → UaProg Unit) (ctrl : Table CompCtrl) :
    Leaves cfg t present (readIntl f >>= k) s ctrl ↔
      Leaves cfg t present (k (f s.intl)) s ctrl := Iff.rfl

theorem leaves_assign (x : Assign) (p : UaProg Unit) (ctrl : Table CompCtrl) :
    Leaves cfg t present (do assign u x; p) s ctrl ↔
      Leaves cfg t present p (Shared.setComp s u (Assign.apply x (s.comp u))) ctrl := by
  have hrun : ∀ s', UaRun cfg t present (do assign u x; p) s () s' ↔
      UaRun cfg t present p (Shared.setComp s u (Assign.apply x (s.comp u))) () s' := by
    intro s'
    refine (yields_bind ..).trans ⟨?_, fun h => ⟨(), _, (run_assign ..).mpr rfl, h⟩⟩
    rintro ⟨_, s₁, hassign, h⟩
    rw [(run_assign ..).mp hassign]
    exact h
  unfold Leaves
  simp only [hrun]

/-- What follows leaves the types alone. -/
theorem Leaves.followed {p q : UaProg Unit} {ctrl : Table CompCtrl}
    (h : Leaves cfg t present p s ctrl) (hstill : q.All Still)
    (hq : ∀ s, ∃ s', UaRun cfg t present q s () s') :
    Leaves cfg t present (do p; q) s ctrl := by
  obtain ⟨⟨s₁, hp⟩, hleaves⟩ := h
  constructor
  · obtain ⟨s', hrest⟩ := hq s₁
    exact ⟨s', (yields_bind ..).mpr ⟨(), s₁, hp, hrest⟩⟩
  · intro s' h
    obtain ⟨_, s₂, hfirst, hrest⟩ := (yields_bind ..).mp h
    rw [run_still hstill hrest]
    exact hleaves s₂ hfirst

/-- The reset of the rollback type in process_confirm_update. -/
def resetRbType (u : UaccPtr) : UaProg Unit := do
  let rbType ← readRbType u
  let pkgName ← readComp u (·.updatePkg.name)
  doIf (rbType ≠ .none) (assignIntl (.rbType pkgName .none))

/-- What the cleanup does after the reset. -/
def removeBackups (u : UaccPtr) (info : ConfirmInfo) (updateManifest backupManifest : String) :
    UaProg Unit := do
  ignoring (ext (.removeOldBackup u info.name.2 (some backupManifest) info.keptVersion))
  remove (some updateManifest)
  let uar ← readComp u (·.uar)
  doIf uar.onConfirmUpdate
    (callback u .onConfirmUpdate ⟨info.type.2, info.name.2, info.version.2, none, false⟩)

theorem cleanupBackups_eq (info : ConfirmInfo) (updateManifest backupManifest : String) :
    cleanupBackups u info updateManifest backupManifest = (do
      resetRbType u
      removeBackups u info updateManifest backupManifest) := rfl

/-- The state with other types. -/
def withCtrl (s : Shared) (ctrl : Table CompCtrl) : Shared :=
  Shared.setIntl s { s.intl with componentCtrl := ctrl }

theorem resetRbType_run :
    UaRun cfg t present (resetRbType u) s () s' ↔
      withCtrl s (clearRbType s.intl.componentCtrl (s.comp u).updatePkg.name) = s' := by
  unfold resetRbType readRbType UaRun
  simp only [yields_bind, run_readComp, run_readIntl, run_doIf, run_assignIntl]
  constructor
  · rintro ⟨_, _, ⟨_, _, ⟨rfl, rfl⟩, rfl, rfl⟩, _, _, ⟨rfl, rfl⟩, h⟩
    unfold clearRbType
    split at h
    · rename_i hset
      rw [if_pos hset]
      exact h
    · rename_i hnone
      rw [if_neg hnone]
      exact h
  · rintro rfl
    refine ⟨_, _, ⟨_, _, ⟨rfl, rfl⟩, rfl, rfl⟩, _, _, ⟨rfl, rfl⟩, ?_⟩
    unfold clearRbType
    split <;> rfl

theorem resetRbType_leaves :
    Leaves cfg t present (resetRbType u) s
      (clearRbType s.intl.componentCtrl (s.comp u).updatePkg.name) := by
  refine ⟨⟨_, resetRbType_run.mpr rfl⟩, fun s' h => ?_⟩
  rw [← resetRbType_run.mp h]
  rfl

theorem removeBackups_still (info : ConfirmInfo) (updateManifest backupManifest : String) :
    (removeBackups u info updateManifest backupManifest).All Still := by
  simp [removeBackups, Still, Op.kind, ExtOp.kind]

theorem removeBackups_exists (info : ConfirmInfo) (updateManifest backupManifest : String)
    (s : Shared) :
    ∃ s', UaRun cfg t present (removeBackups u info updateManifest backupManifest) s () s' := by
  obtain ⟨_, s₁, hold⟩ : ∃ a s₁, UaRun cfg t present
      (ignoring (ext (.removeOldBackup u info.name.2 (some backupManifest) info.keptVersion)))
        s a s₁ := run_exists (by simp) s
  obtain ⟨_, s₂, hremove⟩ : ∃ a s₂, UaRun cfg t present (remove (some updateManifest)) s₁ a s₂ :=
    run_exists (by simp) s₁
  refine ⟨s₂, (yields_bind ..).mpr ⟨_, s₁, hold, (yields_bind ..).mpr ⟨_, s₂, hremove,
    (yields_bind ..).mpr ⟨_, s₂, ⟨rfl, rfl⟩, (run_doIf ..).mpr ?_⟩⟩⟩⟩
  split
  · rename_i hcallback
    exact (run_ext cfg t present s₂ s₂ (.callback u .onConfirmUpdate _) ()).mpr
      ⟨trivial, if_pos hcallback⟩
  · rfl

theorem cleanupBackups_leaves (info : ConfirmInfo) (updateManifest backupManifest : String) :
    Leaves cfg t present (cleanupBackups u info updateManifest backupManifest) s
      (clearRbType s.intl.componentCtrl (s.comp u).updatePkg.name) := by
  rw [cleanupBackups_eq]
  exact resetRbType_leaves.followed (removeBackups_still ..) (removeBackups_exists _ _ _)

/-- The message is one that process_confirm_update handles, and the path of the update manifest
can be formed. -/
structure Handled (s : Shared) (u : UaccPtr) (jsonObj : Json) (name path : String) : Prop where
  ok : (ConfirmInfo.ofJson jsonObj).ok
  name_eq : (ConfirmInfo.ofJson jsonObj).name.2 = some name
  stage : compGetUpdateStage (s.comp u).stInfo (some name) = .readyUpdateDone ∨
    compGetUpdateStage (s.comp u).stInfo (some name) = .unknown
  manifest : join s.intl.cacheDir [some name, some manifestPkg] = some path

/-- What process_confirm_update does to the rollback types. -/
def afterConfirm (s : Shared) (u : UaccPtr) : Table CompCtrl :=
  if s.intl.backupDir.isSome then clearRbType s.intl.componentCtrl (s.comp u).updatePkg.name
  else s.intl.componentCtrl

theorem confirmCleanup_leaves {info : ConfirmInfo} (hname : info.name.2 = some name)
    (hmanifest : join s.intl.cacheDir [some name, some manifestPkg] = some path)
    (hpresent : present path) :
    Leaves cfg t present (confirmCleanup u info s.intl.cacheDir s.intl.backupDir) s
      (afterConfirm s u) := by
  unfold confirmCleanup afterConfirm
  rw [hname, hmanifest]
  cases hbackup : s.intl.backupDir with
  | none =>
      refine ⟨⟨s, rfl, rfl⟩, ?_⟩
      rintro s' ⟨_, rfl⟩
      rfl
  | some backupDir =>
      obtain ⟨⟨s', hrun⟩, hleaves⟩ : Leaves cfg t present (cleanupBackups u info path
        (joinParts backupDir [some "backup", some name, some manifestPkg])) s _ :=
          cleanupBackups_leaves ..
      constructor
      · refine ⟨s', (yields_bind ..).mpr ⟨true, s, ?_, (run_doIf ..).mpr hrun⟩⟩
        exact (run_ext cfg t present s s (.access (some path)) true).mpr ⟨fun _ => rfl, rfl⟩
      · intro s' h
        obtain ⟨found, s₁, haccess, hrest⟩ := (yields_bind ..).mp h
        obtain ⟨hfound, heffect⟩ := (run_ext cfg t present s s₁ (.access (some path)) found).mp
          haccess
        cases heffect
        have hfound : found = true := hfound hpresent
        subst hfound
        exact hleaves s' ((run_doIf ..).mp hrest)

theorem confirmDeltaCleanup_still (info : ConfirmInfo) (cacheDir : Option String) :
    (confirmDeltaCleanup info cacheDir).All Still := by
  simp [confirmDeltaCleanup, removeIfFound, Still, Op.kind, ExtOp.kind]

theorem confirmDeltaCleanup_answerable (info : ConfirmInfo) (cacheDir : Option String) :
    (confirmDeltaCleanup info cacheDir).All (Answerable cfg t present) := by
  simp [confirmDeltaCleanup, removeIfFound]

/-- What follows the cleanup of the backups. -/
def finishConfirm (u : UaccPtr) (info : ConfirmInfo) (cacheDir : Option String) : UaProg Unit := do
  confirmDeltaCleanup info cacheDir
  assign u (.retryCnt 0)
  assign u (.updateStage info.name.2 .confirmUpdateDone)

theorem finishConfirm_exists (info : ConfirmInfo) (cacheDir : Option String) (s : Shared) :
    ∃ s', UaRun cfg t present (finishConfirm u info cacheDir) s () s' := by
  have hall : (finishConfirm u info cacheDir).All (Answerable cfg t present) := by
    simp [finishConfirm, confirmDeltaCleanup_answerable]
  obtain ⟨_, s', h⟩ := run_exists hall s
  exact ⟨s', h⟩

theorem finishConfirm_still (info : ConfirmInfo) (cacheDir : Option String) :
    (finishConfirm u info cacheDir).All Still := by
  simp [finishConfirm, confirmDeltaCleanup_still, Still, Op.kind, Assign.kind]

theorem confirmUpdate_eq (info : ConfirmInfo) :
    confirmUpdate u info = (do
      assign u (.updateStage info.name.2 .confirmUpdateStarted)
      let cacheDir ← readIntl (·.cacheDir)
      let backupDir ← readIntl (·.backupDir)
      confirmCleanup u info cacheDir backupDir
      finishConfirm u info cacheDir) := rfl

theorem processConfirmUpdate_leaves (h : Handled s u jsonObj name path)
    (hpresent : present path) :
    Leaves cfg t present (processConfirmUpdate u jsonObj) s (afterConfirm s u) := by
  unfold processConfirmUpdate
  rw [leaves_readComp, doIf, if_pos h.ok, confirmInStage, h.name_eq, if_pos h.stage,
    confirmUpdate_eq, leaves_assign, leaves_readIntl, leaves_readIntl]
  generalize hstarted : Shared.setComp s u (Assign.apply _ (s.comp u)) = s₁
  have hmanifest : join s₁.intl.cacheDir [some name, some manifestPkg] = some path := by
    rw [← hstarted]
    exact h.manifest
  have hafter : afterConfirm s₁ u = afterConfirm s u := by
    rw [← hstarted]
    simp [afterConfirm, Assign.apply]
  rw [← hafter]
  exact (confirmCleanup_leaves h.name_eq hmanifest hpresent).followed
    (finishConfirm_still ..) (finishConfirm_exists _ _)

/-- Every run that ends resets the type of this package, and there is one. -/
def Resets (cfg : AgentConfig) (t : Tid) (present : String → Prop) (p : UaProg Unit) (s : Shared)
    (name : String) : Prop :=
  (∃ s', UaRun cfg t present p s () s') ∧
    ∀ s', UaRun cfg t present p s () s' →
      Reset s.intl.componentCtrl s'.intl.componentCtrl name

theorem Leaves.resets_iff_reset {p : UaProg Unit} {ctrl : Table CompCtrl}
    (h : Leaves cfg t present p s ctrl) :
    Resets cfg t present p s name ↔ Reset s.intl.componentCtrl ctrl name := by
  obtain ⟨⟨s₁, hrun⟩, hleaves⟩ := h
  constructor
  · intro hresets
    rw [← hleaves s₁ hrun]
    exact hresets.2 s₁ hrun
  · intro hreset
    refine ⟨⟨s₁, hrun⟩, fun s' hrun' => ?_⟩
    rw [hleaves s' hrun']
    exact hreset

/-- The component works on the package that the message names, or nothing is to be reset. -/
def Aimed (s : Shared) (u : UaccPtr) (name : String) : Prop :=
  ((s.comp u).updatePkg.name = some name ∧ s.intl.backupDir.isSome ∨
    compGetRbType s.intl.componentCtrl (some name) = .none) ∧
  ∀ q, (s.comp u).updatePkg.name = some q → s.intl.backupDir.isSome → q ≠ name →
    compGetRbType s.intl.componentCtrl (some q) = .none

theorem reset_afterConfirm_iff :
    Reset s.intl.componentCtrl (afterConfirm s u) name ↔ Aimed s u name := by
  unfold afterConfirm Aimed
  by_cases hdir : s.intl.backupDir.isSome
  · rw [if_pos hdir, reset_clear_iff]
    simp [hdir]
  · rw [if_neg hdir, reset_same_iff]
    simp [hdir]

end Confirmation

section Deferral

/-! The confirm-update that process_ready_update makes up for at its end is run with the message
of the ready-update itself. -/

variable {α : Type} {cfg : AgentConfig} {t : Tid} {present : String → Prop} {u : UaccPtr}
  {s s' : Shared} {jsonObj : Json} {name path : String}

/-- The parsing of a ready-update. -/
def parseReadyUpdate (u : UaccPtr) (jsonObj : Json) : UaProg Rc := do
  assign u (.curMsg (some jsonObj))
  let cacheDir ← readIntl (·.cacheDir)
  let backupDir ← readIntl (·.backupDir)
  updateParseJsonReadyUpdate u jsonObj cacheDir backupDir

/-- A ready-update that has been parsed, up to the question whether a confirm-update is due. -/
def installReadyUpdate (u : UaccPtr) : UaProg Bool := do
  let name ← readComp u (·.updatePkg.name)
  assign u (.updateStage name .readyUpdateStarted)
  let cid ← readIntl (·.curCampaignId)
  assign u (.preparedVersion name none cid)
  chooseRbType u
  let updateSts ← readyUpdateInstall u
  readyUpdateBackup u updateSts
  let name ← readComp u (·.updatePkg.name)
  assignIntl (.customMessage name none)
  assign u (.updateStage name .readyUpdateDone)
  op (.testCleanupOk u)

theorem readyUpdate_eq :
    readyUpdate u jsonObj = (do
      let cleanupOk ← installReadyUpdate u
      doIf cleanupOk (deferredConfirm u jsonObj)
      readyUpdateRelease u) := by
  unfold readyUpdate installReadyUpdate
  simp only [bind_assoc]

/-- The handling of a ready-update comes to a confirm-update that was put off. -/
def ComesToConfirm (cfg : AgentConfig) (t : Tid) (u : UaccPtr) (jsonObj : Json)
    (s₀ s : Shared) : Prop :=
  ∃ s₁, UaRun cfg t (fun _ => False) (parseReadyUpdate u jsonObj) s₀ eUaOk s₁ ∧
    UaRun cfg t (fun _ => False) (installReadyUpdate u) s₁ true s

/-- The operation does not change the name of the package that a component works on. -/
def KeepsName : Op → Prop
  | .assign _ (.pkgName _) | .assign _ (.updatePkg _) | .setCompContext _ _ => False
  | _ => True

theorem effect_name {o : Op} {b : o.Ans} (ho : KeepsName o) (h : effect cfg t s o b = some s') :
    (s'.comp u).updatePkg.name = (s.comp u).updatePkg.name := by
  have hchange := effect_comp h u
  generalize s'.comp u = c at hchange
  cases hchange with
  | assign x =>
      cases x with
      | pkgName | updatePkg => exact absurd ho id
      | _ => rfl
  | setContext => exact absurd ho id
  | _ => rfl

theorem run_name {p : UaProg α} (hp : p.All KeepsName) {a : α}
    (h : UaRun cfg t present p s a s') :
    (s'.comp u).updatePkg.name = (s.comp u).updatePkg.name :=
  yields_frame (f := fun s : Shared => (s.comp u).updatePkg.name)
    (fun _ ho _ _ _ hstep => effect_name ho hstep.2) hp h

theorem keepsName_of_within {p : UaProg α} {ks : List Kind} (hp : p.All (Within u ks))
    (hpkg : .pkg ∉ ks) (hset : .setContext ∉ ks) : p.All KeepsName := by
  refine Prog.All.mono ?_ hp
  intro o ho
  cases o with
  | assign _ x =>
      cases x with
      | pkgName | updatePkg => exact hpkg ho.2
      | _ => trivial
  | setCompContext => exact hset ho.2
  | _ => trivial

section Parts

attribute [local simp] KeepsName

theorem parseFileInfo_name : (parseFileInfo u jsonObj).All KeepsName := by
  have hmsg : (parseInfoFromMsg u jsonObj).All KeepsName :=
    keepsName_of_within (parseInfoFromMsg_within u [.env, .fileInfo] (by simp) jsonObj)
      (by decide) (by decide)
  simp only [parseFileInfo, Prog.all_bind, all_readComp, all_assign, all_ext, true_and]
  refine fun _ _ => ⟨by simp, fun _ _ _ _ => ⟨by simp, fun _ _ _ _ _ _ =>
    ⟨by simp, fun reply _ => ?_⟩⟩⟩
  cases reply <;> simp [hmsg]

theorem sendInstallStatus_name (state : InstallState) (pkgFile : Option PkgFile)
    (ue : UpdateErr) : (sendInstallStatus u state pkgFile ue).All KeepsName :=
  keepsName_of_within (sendInstallStatus_within u sendKinds (fun _ h => h) state pkgFile ue)
    (by decide) (by decide)

theorem postUpdateAction_name : (postUpdateAction u).All KeepsName :=
  keepsName_of_within (postUpdateAction_within u [.env] (by simp)) (by decide) (by decide)

theorem updateGetNextRollbackVersion_name (curVersion : Option String) :
    (updateGetNextRollbackVersion u curVersion).All KeepsName :=
  keepsName_of_within (updateGetNextRollbackVersion_within u [.env] (by simp) curVersion)
    (by decide) (by decide)

theorem updateGetRollbackPackage_name (rbFileInfo : PkgFile) (rbVersion : Option String) :
    (updateGetRollbackPackage u rbFileInfo rbVersion).All KeepsName :=
  keepsName_of_within (updateGetRollbackPackage_within u [.env] (by simp) rbFileInfo rbVersion)
    (by decide) (by decide)

theorem updateStartInstallOperations_name (rebootSupport : Bool) :
    (updateStartInstallOperations u rebootSupport).All KeepsName :=
  keepsName_of_within
    (updateStartInstallOperations_within u installKinds (fun _ h => h) rebootSupport)
    (by decide) (by decide)

theorem updateSendRollbackIntent_name (next : Option String) :
    (updateSendRollbackIntent u next).All KeepsName := by
  have hintent : ∀ rbType info, (sendIntent u rbType info).All KeepsName := by
    intro rbType info
    cases rbType <;> simp [sendIntent, sendInstallStatus_name]
  simp [updateSendRollbackIntent, updateGetRollbackPackage_name, readRbType, hintent]

theorem rollbackToNext_name (updateSts : InstallState) (next : String) :
    (rollbackToNext u updateSts next).All KeepsName := by
  simp only [rollbackToNext, Prog.all_bind]
  refine ⟨updateGetNextRollbackVersion_name _, fun next' _ => ?_⟩
  cases next' <;> simp [updateSendRollbackIntent_name]

theorem rollbackWithoutPackage_name (next : String) :
    (rollbackWithoutPackage u next).All KeepsName := by
  simp only [rollbackWithoutPackage, Prog.all_bind]
  refine ⟨updateGetNextRollbackVersion_name _, fun next' _ => ?_⟩
  cases next' <;> simp [updateSendRollbackIntent_name, postUpdateAction_name]

theorem rollbackWithPackage_name (rbFileInfo : PkgFile) (bck : Bool) (next : String)
    (rebootSupport : Bool) :
    (rollbackWithPackage u rbFileInfo bck next rebootSupport).All KeepsName := by
  have hprepare : ∀ pkgFile updateFile ue,
      (prepareInstallAction u pkgFile bck updateFile ue).All KeepsName :=
    fun pkgFile updateFile ue =>
      keepsName_of_within (prepareInstallAction_within u [.env] (by simp) pkgFile bck updateFile ue)
        (by decide) (by decide)
  simp [rollbackWithPackage, rollbackPreparedDelta, rollbackInstall, rollbackReady, hprepare,
    postUpdateAction_name, updateStartInstallOperations_name, rollbackToNext_name]

theorem updateStartRollbackOperations_name (rbVersion : String) (rebootSupport : Bool) :
    (updateStartRollbackOperations u rbVersion rebootSupport).All KeepsName := by
  have hsame : ∀ version, (updateInstalledVersionSame u version).All KeepsName := fun version =>
    keepsName_of_within (updateInstalledVersionSame_within u [.env] (by simp) version)
      (by decide) (by decide)
  simp [updateStartRollbackOperations, hsame, rollbackToInstalled, rollbackToVersion,
    updateGetRollbackPackage_name, rollbackWithPackage_name, rollbackWithoutPackage_name,
    sendInstallStatus_name, postUpdateAction_name, removeUpdateManifest, rollbackFailed,
    readRbType]

theorem readyUpdateInstall_name : (readyUpdateInstall u).All KeepsName := by
  have hrollback : (installRollback u).All KeepsName := by
    simp only [installRollback, Prog.all_bind, all_readComp, true_and]
    refine fun _ _ => ⟨updateGetNextRollbackVersion_name _, fun next _ => ?_⟩
    cases next <;>
      simp [updateSendRollbackIntent_name, installTerminalFailure, sendInstallStatus_name]
  simp only [readyUpdateInstall, Prog.all_bind, all_readIntl, all_readComp, true_and]
  intro rebootSupport _ rollbackVersion _
  cases rollbackVersion with
  | some version => exact updateStartRollbackOperations_name version rebootSupport
  | none =>
      simp [firstInstall, updateStartInstallOperations_name, afterInstall, installFailed,
        installRetry, hrollback, sendInstallStatus_name, removeUpdateManifest]

theorem installReadyUpdate_name : (installReadyUpdate u).All KeepsName := by
  have hbackup : ∀ updateSts, (readyUpdateBackup u updateSts).All KeepsName := fun updateSts =>
    keepsName_of_within (readyUpdateBackup_within u [.env, .lock] (by simp) updateSts)
      (by decide) (by decide)
  simp [installReadyUpdate, chooseRbType, readRbType, readyUpdateInstall_name, hbackup]

end Parts

theorem getString_some {json : Json} {path : List (Option String)} {value : String}
    (h : (getString json path none).2 = some value) (old : Option String) :
    (getString json path old).2 = some value := by
  unfold getString at h ⊢
  dsimp only at h ⊢
  split
  · rename_i hok
    rw [if_pos hok] at h
    cases hvalue : (jsonGetProperty .string json path none).2.bind Json.string? with
    | none =>
        rw [hvalue] at h
        cases h
    | some _ =>
        rw [hvalue] at h
        exact h
  · rename_i herr
    rw [if_neg herr] at h
    cases h

theorem parseName_name (hname : (getPkgNameFromJson jsonObj none).2 = some name) {err : Rc}
    (h : UaRun cfg t present (parseName u jsonObj) s err s') :
    (s'.comp u).updatePkg.name = some name := by
  unfold parseName UaRun at h
  simp only [yields_bind, run_readComp, run_assign] at h
  obtain ⟨old, _, ⟨_, rfl⟩, _, _, rfl, _, rfl⟩ := h
  rw [setComp_self]
  exact getString_some hname old

theorem parseIdentity_name (hname : (getPkgNameFromJson jsonObj none).2 = some name)
    (h : UaRun cfg t present (parseIdentity u jsonObj) s eUaOk s') :
    (s'.comp u).updatePkg.name = some name := by
  unfold parseIdentity UaRun at h
  simp only [yields_bind, yields_ite] at h
  obtain ⟨_, _, _, _, s₁, _, err, s₂, hparse, _, s₃, hcampaign, rfl, rfl⟩ := h
  have hkeeps : ∀ campaignId,
      (doIf campaignId.isSome (assignIntl (.curCampaignId campaignId))).All KeepsName := by
    simp [KeepsName]
  rw [run_name (hkeeps _) hcampaign]
  split at hparse
  · exact parseName_name hname hparse
  · cases hparse.1

theorem parseReadyUpdate_name (hname : (getPkgNameFromJson jsonObj none).2 = some name)
    (h : UaRun cfg t present (parseReadyUpdate u jsonObj) s eUaOk s') :
    (s'.comp u).updatePkg.name = some name := by
  have hversions : ∀ cacheDir backupDir,
      (parseVersions u jsonObj cacheDir backupDir).All KeepsName := by
    simp [parseVersions, assignManifests, parseFileInfo_name, KeepsName]
  have hfailed : ∀ err : Rc, (doIf (err = eUaErr) (parseFailed u)).All KeepsName := by
    simp [parseFailed, KeepsName]
  unfold parseReadyUpdate updateParseJsonReadyUpdate UaRun at h
  simp only [yields_bind, yields_ite] at h
  obtain ⟨_, _, _, _, _, _, _, _, _, err, s₁, hidentity, err', s₂, hparse, _, s₃, hend, rfl,
    rfl⟩ := h
  rw [run_name (hfailed _) hend]
  split at hparse
  · rename_i hok
    subst hok
    rw [run_name (hversions _ _) hparse]
    exact parseIdentity_name hname hidentity
  · rename_i herr
    exact absurd hparse.1 herr

/-- The component still works on the package of the message. -/
theorem comesToConfirm_name {s₀ : Shared} (hname : (getPkgNameFromJson jsonObj none).2 = some name)
    (h : ComesToConfirm cfg t u jsonObj s₀ s) : (s.comp u).updatePkg.name = some name := by
  obtain ⟨s₁, hparse, hinstall⟩ := h
  rw [run_name installReadyUpdate_name hinstall]
  exact parseReadyUpdate_name hname hparse

/-- What process_ready_update does when it has come to a confirm-update. -/
def confirmAndRelease (u : UaccPtr) (jsonObj : Json) : UaProg Unit := do
  deferredConfirm u jsonObj
  readyUpdateRelease u

theorem confirmAndRelease_leaves (h : Handled s u jsonObj name path) (hpresent : present path) :
    Leaves cfg t present (confirmAndRelease u jsonObj) s (afterConfirm s u) := by
  have hall : ∀ Q : Op → Prop, (∀ x, Q (.assign u x)) →
      (∀ value, Q (.assignIntl (.curCampaignId value))) →
      (∀ value, Q (.assignIntl (.queryUpdates value))) →
      (do assign u (.cleanupOkAfterUpdate false); readyUpdateRelease u : UaProg Unit).All Q := by
    intro Q hassign hcampaign hquery
    simp [readyUpdateRelease, updateReleaseCompContext, hassign, hcampaign, hquery]
  unfold confirmAndRelease deferredConfirm
  simp only [bind_assoc]
  refine (processConfirmUpdate_leaves h hpresent).followed ?_ fun s₁ => ?_
  · refine hall Still (fun x => ?_) ?_ ?_
    · cases x <;> simp [Still, Op.kind, Assign.kind]
    · simp [Still, Op.kind, AssignIntl.kind]
    · simp [Still, Op.kind, AssignIntl.kind]
  · obtain ⟨_, s', hrun⟩ := run_exists (hall (Answerable cfg t present) (by simp) (by simp)
      (by simp)) s₁
    exact ⟨s', hrun⟩

theorem processReadyUpdate_eq :
    processReadyUpdate u jsonObj = (do
      let dmcHandlerDone ← readIntl (·.dmcHandlerDone)
      if dmcHandlerDone then do
        let err ← parseReadyUpdate u jsonObj
        readyUpdateParsed u jsonObj err
      else mark (.readyUpdateDropped u jsonObj)) := by
  unfold processReadyUpdate parseReadyUpdate
  simp only [bind_assoc]

theorem run_unconstrained {p : UaProg α} {a : α} (h : UaRun cfg t present p s a s') :
    UaRun cfg t (fun _ => False) p s a s' := by
  refine yields_mono ?_ h
  rintro o b s s' ⟨_, heffect⟩
  refine ⟨?_, heffect⟩
  unfold Finds
  split <;> simp

/-- A ready-update that comes to the confirm-update ends with it and the release. -/
theorem processReadyUpdate_run {s₀ : Shared} (hdmc : s₀.intl.dmcHandlerDone)
    (hcomes : ComesToConfirm cfg t u jsonObj s₀ s)
    (h : UaRun cfg t present (confirmAndRelease u jsonObj) s () s') :
    UaRun cfg t (fun _ => False) (processReadyUpdate u jsonObj) s₀ () s' := by
  obtain ⟨s₁, hparse, hinstall⟩ := hcomes
  have hready : UaRun cfg t (fun _ => False) (readyUpdate u jsonObj) s₁ () s' := by
    rw [readyUpdate_eq]
    exact (yields_bind ..).mpr ⟨true, s, hinstall, run_unconstrained h⟩
  have hmark : UaRun cfg t (fun _ => False)
      (mark (.readyUpdateParsed u (s₁.comp u).updatePkg.name jsonObj)) s₁ () s₁ :=
    (run_op cfg t _ s₁ s₁ (.mark _) ()).mpr ⟨trivial, rfl⟩
  rw [processReadyUpdate_eq]
  refine (yields_bind ..).mpr ⟨true, s₀, ⟨hdmc, rfl⟩, ?_⟩
  refine (yields_bind ..).mpr ⟨eUaOk, s₁, hparse, (yields_bind ..).mpr ⟨_, s₁, ⟨rfl, rfl⟩, ?_⟩⟩
  exact (yields_bind ..).mpr ⟨(), s₁, hmark, hready⟩

/-- A confirm-update resets the rollback type of its package, and no other, exactly if the
component works on that package, or nothing is to be reset. -/
theorem resets_iff (h : Handled s u jsonObj name path) (hpresent : present path) :
    (Resets cfg t present (processConfirmUpdate u jsonObj) s name ↔ Aimed s u name) ∧
    ∀ s₀, ComesToConfirm cfg t u jsonObj s₀ s →
      (Resets cfg t present (confirmAndRelease u jsonObj) s name ↔
        s.intl.backupDir.isSome ∨
          compGetRbType s.intl.componentCtrl (some name) = .none) := by
  refine ⟨(processConfirmUpdate_leaves h hpresent).resets_iff_reset.trans
    reset_afterConfirm_iff, ?_⟩
  intro s₀ hcomes
  refine (confirmAndRelease_leaves h hpresent).resets_iff_reset.trans
    (reset_afterConfirm_iff.trans ?_)
  have hname := comesToConfirm_name h.name_eq hcomes
  unfold Aimed
  rw [hname]
  constructor
  · rintro ⟨⟨_, hdir⟩ | hnone, _⟩
    · exact .inl hdir
    · exact .inr hnone
  · intro hcond
    refine ⟨hcond.imp (fun hdir => ⟨rfl, hdir⟩) id, ?_⟩
    rintro q hq _ hne
    cases hq
    exact absurd rfl hne

end Deferral

section Samples

open EsyncUa.Rehearsals

/-- The worker of the only component, where nearly everything goes well. -/
def sampleAnswer (o : Op) (s : Shared) : Option (o.Ans × Shared) :=
  (Oracle.choose (usualOracle "1") (sampleConfig false 1) (.worker 0 0) ⟨s, []⟩ o).bind fun b =>
    (effect (sampleConfig false 1) (.worker 0 0) s o b).map fun s' => (b, s')

theorem run_of_sampleAnswer {α : Type} {p : UaProg α} {s s' : Shared} {a : α}
    (h : evaluate id sampleAnswer p s = some (a, s')) :
    UaRun (sampleConfig false 1) (.worker 0 0) (fun _ => False) p s a s' := by
  refine yields_of_evaluate ?_ h
  intro o s b s' hanswer
  obtain ⟨b', _, hmap⟩ := Option.bind_eq_some_iff.mp hanswer
  obtain ⟨s₁, heffect, heq⟩ := Option.map_eq_some_iff.mp hmap
  cases heq
  refine ⟨?_, heffect⟩
  unfold Finds
  split <;> simp

def sampleStarted : Shared := (sampleConfig false 1).started .empty .empty

/-- A confirm-update has been put off. -/
def sampleDue : Shared :=
  Shared.setComp sampleStarted 0 { sampleStarted.comp 0 with cleanupOkAfterUpdate := true }

def sampleReadyUpdate : Json :=
  packageMessage bmtReadyUpdate [] "pkg" "2" (downloadedFile "2")

theorem sampleReadyUpdate_comes :
    ∃ s, ComesToConfirm (sampleConfig false 1) (.worker 0 0) 0 sampleReadyUpdate sampleDue s ∧
      Handled s 0 sampleReadyUpdate "pkg" "/cache/pkg/manifest_pkg.xml" := by
  have hrun : ((evaluate id sampleAnswer (parseReadyUpdate 0 sampleReadyUpdate) sampleDue).bind
      fun r => (evaluate id sampleAnswer (installReadyUpdate 0) r.2).map fun r' =>
        (r.1, r'.1, compGetUpdateStage (r'.2.comp 0).stInfo (some "pkg"), r'.2.intl.cacheDir)) =
      some (eUaOk, true, .readyUpdateDone, some "/cache") := by decide +kernel
  obtain ⟨⟨err, s₁⟩, hparse, hrest⟩ := Option.bind_eq_some_iff.mp hrun
  obtain ⟨⟨cleanupOk, s⟩, hinstall, hend⟩ := Option.map_eq_some_iff.mp hrest
  simp only [Prod.mk.injEq] at hend
  obtain ⟨rfl, rfl, hstage, hcache⟩ := hend
  refine ⟨s, ⟨s₁, run_of_sampleAnswer hparse, run_of_sampleAnswer hinstall⟩,
    ⟨by decide, by decide, .inl hstage, ?_⟩⟩
  rw [hcache]
  decide

theorem resets_iff_example :
    ∃ s, ComesToConfirm (sampleConfig false 1) (.worker 0 0) 0 sampleReadyUpdate sampleDue s ∧
      (Resets (sampleConfig false 1) (.worker 0 0) (fun _ => True)
        (processConfirmUpdate 0 sampleReadyUpdate) s "pkg" ↔ Aimed s 0 "pkg") ∧
      (Resets (sampleConfig false 1) (.worker 0 0) (fun _ => True)
        (confirmAndRelease 0 sampleReadyUpdate) s "pkg" ↔
          s.intl.backupDir.isSome ∨
            compGetRbType s.intl.componentCtrl (some "pkg") = .none) := by
  obtain ⟨s, hcomes, hhandled⟩ := sampleReadyUpdate_comes
  exact ⟨s, hcomes, (resets_iff hhandled trivial).1,
    (resets_iff hhandled trivial).2 sampleDue hcomes⟩

/-- Between two updates the component works on no package. -/
def sampleIdle : Shared :=
  withCtrl sampleStarted (compSetRbType .empty (some "pkg") .uaInitiated)

def sampleConfirm : Json := packageMessage bmtConfirmUpdate [] "pkg" "1" []

theorem confirmed_type_stays :
    ¬ ∀ (cfg : AgentConfig) (t : Tid) (present : String → Prop) (u : UaccPtr) (s : Shared)
      (jsonObj : Json) (name path : String),
      Handled s u jsonObj name path → present path →
      Resets cfg t present (processConfirmUpdate u jsonObj) s name := by
  intro h
  have hhandled : Handled sampleIdle 0 sampleConfirm "pkg" "/cache/pkg/manifest_pkg.xml" :=
    ⟨by decide, by decide, .inr (by decide), by decide⟩
  have hleaves : Leaves (sampleConfig false 1) (.runner 0) (fun _ => True)
      (processConfirmUpdate 0 sampleConfirm) sampleIdle (afterConfirm sampleIdle 0) :=
    processConfirmUpdate_leaves hhandled trivial
  have hreset := hleaves.resets_iff_reset.mp
    (h _ _ _ 0 sampleIdle sampleConfirm "pkg" _ hhandled trivial)
  exact absurd hreset.own (by decide)

end Samples

end EsyncUa.RollbackTypeResets
