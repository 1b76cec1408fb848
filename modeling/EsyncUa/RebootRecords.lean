import EsyncUa.Rehearsals
import EsyncUa.RestPhases

/-!
The record file during an installation. All components have the same record file, and each has
a worker of its own. In the runs in which the file belongs to one installation at a time, the
record that an installation finds at a reboot is its own.
-/
namespace EsyncUa.RebootRecords

open EsyncUa.JsonProperties EsyncUa.Components EsyncUa.Records EsyncUa.Programs
open EsyncUa.Operations EsyncUa.Installation EsyncUa.Updater EsyncUa.Messages EsyncUa.Machines
open EsyncUa.Agents EsyncUa.Footprints EsyncUa.Frames EsyncUa.Phases EsyncUa.RestPhases
open EsyncUa.Rehearsals

variable {κ : Type}

/-- What the threads have begun with an operation. It lasts until the thread removes a file, and
no longer than until the next start of the agent. -/
def pending (begins : Op → Option κ) : List Event → List (Tid × κ)
  | [] => []
  | .did t o _ :: h =>
      if Op.kind o = .remove then (pending begins h).filter fun k => k.1 ≠ t
      else ((begins o).map fun x => (t, x)).toList ++ pending begins h
  | .rebooted :: _ => []
  | _ :: h => pending begins h

def opens : Op → Option String
  | .recordOpen path => some path
  | _ => none

def writes : Op → Option UaccPtr
  | .recordWrite _ u => some u
  | _ => none

def saves : Op → Option UaccPtr
  | .mark (.recordSaved u) => some u
  | _ => none

/-- The record file has a record of the package and of the file that are being installed. -/
def Describes (u : UaccPtr) (s : Shared) : Prop :=
  ∃ path c ctrl, (s.comp u).recordFile = some path ∧
    s.records path = some (.whole (updateGetCompContextJo c ctrl)) ∧
    c.updatePkg = (s.comp u).updatePkg ∧ c.updateFileInfo = (s.comp u).updateFileInfo

/-- Between the return of `update_record_save` and the removal of the record, the record file
describes the installation. -/
def RecordKept (u : UaccPtr) (c : AgentConfiguration) : Prop :=
  ∀ t, (t, u) ∈ pending saves c.st.trace → Describes u c.st.shared

/-- A record can be saved. From its beginning until the removal of the record, no other thread
opens or removes the record file, or changes the package or the file of the component. -/
def Unshared (cfg : AgentConfig) (t : Tid) (e : Event) (w : World) : Prop :=
  match e with
  | .did _ (.recordOpen _) opened =>
      opened = true ∧ ∀ k ∈ pending opens w.trace, k.1 = t
  | .did _ (.recordWrite _ _) written => written = true
  | .did _ (.mark (.recordSaved _)) _ => cfg.recordFile.isSome
  | .did _ (.remove (some path)) _ =>
      some path = cfg.recordFile → ∀ k ∈ pending opens w.trace, k.1 = t
  | .did _ (.assign u x) _ =>
      Assign.kind x ∈ [Kind.pkg, .fileInfo] → ∀ k ∈ pending writes w.trace, k.2 = u → k.1 = t
  | .did _ (.setCompContext u _) _ => ∀ k ∈ pending writes w.trace, k.2 = u → k.1 = t
  | _ => True

instance (cfg : AgentConfig) (t : Tid) (e : Event) (w : World) :
    Decidable (Unshared cfg t e w) := by
  unfold Unshared
  split <;> infer_instance

attribute [local simp] pending

section Pending

variable {begins : Op → Option κ} {t t₂ : Tid} {o : Op} {b : o.Ans} {h : List Event} {x : κ}

theorem pending_other (hne : t₂ ≠ t) :
    (t₂, x) ∈ pending begins (.did t o b :: h) ↔ (t₂, x) ∈ pending begins h := by
  rw [pending]
  split
  · simp [hne]
  · cases begins o <;> simp [hne]

theorem pending_same (hbegins : begins o = none) (hkind : Op.kind o ≠ .remove) :
    pending begins (.did t o b :: h) = pending begins h := by
  rw [pending]
  split
  · exact absurd ‹_› hkind
  · simp [hbegins]

theorem pending_subset (hbegins : begins o = none) {k : Tid × κ}
    (hk : k ∈ pending begins (.did t o b :: h)) : k ∈ pending begins h := by
  rw [pending] at hk
  split at hk
  · exact (List.mem_filter.mp hk).1
  · simpa [hbegins] using hk

theorem pending_remove {path : Option String} {b : (Op.remove path).Ans} :
    (t, x) ∉ pending begins (.did t (.remove path) b :: h) := by
  simp [pending, Op.kind]

end Pending

theorem opens_none {o : Op} (h : Op.kind o ≠ .recordSave) : opens o = none := by
  cases o with
  | recordOpen path => exact absurd rfl h
  | _ => rfl

theorem writes_none {o : Op} (h : Op.kind o ≠ .recordSave) : writes o = none := by
  cases o with
  | recordWrite path u => exact absurd rfl h
  | _ => rfl

theorem saves_none {o : Op} (h : Op.kind o ≠ .saved) : saves o = none := by
  cases o with
  | mark m =>
    cases m with
    | recordSaved u => exact absurd rfl h
    | _ => rfl
  | _ => rfl

/-- The phases of an installation: its record file is known, opened, written and saved. -/
inductive Phase
  | rest | known (path : Option String) | opened (path : String) | written (u : UaccPtr)
  | saved (u : UaccPtr)

/-- The kinds of operations on the record and on what it is about. -/
abbrev recordKinds : List Kind := [.recordSave, .saved, .remove, .pkg, .fileInfo, .setContext]

inductive Does : Phase → (o : Op) → o.Ans → Phase → Prop
  | rest (o b) (h : Op.kind o ∉ [Kind.recordSave, .saved]) : Does .rest o b .rest
  | other (x o b) (h : Op.kind o ∉ recordKinds) : Does x o b x
  | create (path) (b : Bool) :
      Does (.known (some path)) (.recordOpen path) b (if b then .opened path else .known none)
  | write (path u b) : Does (.opened path) (.recordWrite path u) b (.written u)
  | save (u b) : Does (.written u) (.mark (.recordSaved u)) b (.saved u)
  | unsaved (u b) : Does (.known none) (.mark (.recordSaved u)) b (.saved u)
  | remove (u path b) : Does (.saved u) (.remove path) b .rest

/-- A thread that is at rest may read the path of the record file. -/
def protocol : Protocol Tid Shared Phase Op.Ans where
  reads := fun _ _ => True
  sees := fun _ x m x' => x' = x ∨ x = .rest ∧ ∃ u, x' = .known (m.comp u).recordFile
  may := fun _ _ _ => True
  does := fun _ => Does

variable {t : Tid} {u : UaccPtr} {α : Type}

/-! The programs keep to the protocol. -/

theorem restsOutside : RestsOutside protocol t .rest where
  reads := trivial
  sees := fun _ => .inl rfl
  does := by
    intro o ho
    have hkinds : [Kind.recordSave, .saved] ⊆ installOnly := by decide
    exact ⟨trivial, fun b => .rest o b fun hmem => ho (hkinds hmem)⟩

theorem follows_within {p : UaProg α} {ks : List Kind} (hp : p.All (Within u ks))
    (hks : ∀ k ∈ recordKinds, k ∉ ks) (x : Phase) :
    protocol.Follows t p x fun _ x' => x' = x :=
  .within hp trivial (fun _ => .inl rfl) fun o ho =>
    ⟨trivial, fun b => .other x o b fun hmem => hks _ hmem ho.2⟩

theorem rests_processUpdateStatus (jsonObj : Json) :
    Rests protocol t .rest (processUpdateStatus u jsonObj) :=
  follows_within (processUpdateStatus_within u _ (fun _ h => h) jsonObj) (by decide) .rest

theorem saveRecord_follows :
    protocol.Follows t (saveRecord u) .rest fun _ x => x = .saved u := by
  have hsave : protocol.Follows t (updateRecordSave u) .rest
      fun _ x => x = .known none ∨ x = .written u := by
    have hread : protocol.Follows t (readComp u (·.recordFile)) .rest
        fun path x => x = .known path := ⟨trivial, fun m => ⟨_, .inr ⟨rfl, u, rfl⟩, rfl⟩⟩
    refine .bind (hread.mono fun path x hx => ?_)
    subst hx
    cases path with
    | none => exact .inl rfl
    | some path =>
      refine .bind ⟨trivial, fun b => ⟨_, .create path b, ?_⟩⟩
      cases b with
      | false => exact .inl rfl
      | true =>
        refine .bind ⟨trivial, fun m => ⟨_, .inl rfl, ?_⟩⟩
        have hname : (ignoring (orCrash (m.comp u).updatePkg.name)).All (Within u [.env]) := by
          simp [Within, Op.kind, Op.on, ExtOp.kind]
        refine .bind ((follows_within hname (by decide) _).mono ?_)
        intro _ x hx
        subst hx
        exact ⟨trivial, fun b => ⟨_, .write path u b, .inr rfl⟩⟩
  refine .bind (.bind (hsave.mono ?_))
  intro _ x hx
  rcases hx with rfl | rfl
  · exact ⟨trivial, fun b => ⟨_, .unsaved u b, rfl⟩⟩
  · exact ⟨trivial, fun b => ⟨_, .save u b, rfl⟩⟩

theorem updateRecordedInstall_follows (updateSts : InstallState) :
    protocol.Follows t (updateRecordedInstall u updateSts true) (.saved u)
      fun _ x => x = .rest := by
  have hinstall : (installAndPost u).All (Within u updateActionKinds) := by
    simp [installAndPost, updateAction_within, postUpdateAction_within]
  have hupdate : protocol.Follows t
      (if updateSts = .inProgress then installAndPost u else pure updateSts) (.saved u)
      fun _ x => x = .saved u := by
    split
    · exact follows_within hinstall (by decide) _
    · rfl
  refine .bind (hupdate.mono ?_)
  intro _ x hx
  subst hx
  refine .bind ⟨trivial, fun m => ⟨_, .inl rfl, ?_⟩⟩
  exact .bind ⟨trivial, fun b => ⟨_, .remove u _ b, rfl⟩⟩

theorem rests_updateStartInstallOperations (rebootSupport : Bool) :
    Rests protocol t .rest (updateStartInstallOperations u rebootSupport) := by
  have hsame : Rests protocol t .rest (isInstalledAlready u) :=
    rests_of_all restsOutside
      (by simp [isInstalledAlready, updateInstalledVersionSame, Op.kind, ExtOp.kind])
  have hdone : Rests protocol t .rest (ignoring (sendInstallStatus u .completed none .none)) :=
    Rests.bind (rests_sendInstallStatus restsOutside u _ _ _) fun _ => rfl
  have hpre : Rests protocol t .rest (preUpdateAction u) :=
    follows_within (preUpdateAction_within u _ fun _ h => h) (by decide) .rest
  refine Rests.bind hsame fun same => rests_ite ?_ ?_
  · exact Rests.bind hdone fun _ =>
      Rests.bind (rests_postUpdateAction restsOutside u) fun _ => rfl
  · refine Rests.bind hpre fun updateSts => ?_
    cases rebootSupport with
    | false =>
      have hinstall : (updateRecordedInstall u updateSts false).All
          (Within u updateActionKinds) := by
        simp [updateRecordedInstall, installAndPost, updateAction_within, postUpdateAction_within]
      exact Rests.bind rfl fun _ => follows_within hinstall (by decide) .rest
    | true =>
      have hsave : protocol.Follows t (doIf (true = true) (saveRecord u)) .rest
          fun _ x => x = .saved u := by
        rw [doIf, if_pos rfl]
        exact saveRecord_follows
      refine Protocol.Follows.bind (hsave.mono ?_)
      intro _ x hx
      subst hx
      exact updateRecordedInstall_follows updateSts

/-! What the phases say about the state. -/

/-- No two threads have opened the record file. -/
def Sole (h : List Event) : Prop :=
  ∀ k ∈ pending opens h, ∀ k' ∈ pending opens h, k.1 = k'.1

/-- What a thread has begun with the record file in a phase. -/
def Holds (u : UaccPtr) (t : Tid) (w : World) : Prop :=
  (∃ path, (t, path) ∈ pending opens w.trace) ∧ (t, u) ∈ pending writes w.trace ∧
    Describes u w.shared

/-- The thread is in no installation whose record has been saved, other than that of `only`. -/
def Unsaved (t : Tid) (only : Option UaccPtr) (h : List Event) : Prop :=
  ∀ u, (t, u) ∈ pending saves h → only = some u

def At (cfg : AgentConfig) (t : Tid) (x : Phase) (w : World) : Prop :=
  match x with
  | .rest => Unsaved t none w.trace
  | .known path => cfg.recordFile = path ∧ Unsaved t none w.trace
  | .opened path => cfg.recordFile = some path ∧ (∃ path, (t, path) ∈ pending opens w.trace) ∧
      Unsaved t none w.trace
  | .written u => Holds u t w ∧ Unsaved t none w.trace
  | .saved u => Holds u t w ∧ Unsaved t (some u) w.trace

structure Fits (cfg : AgentConfig) (t : Tid) (x : Phase) (w : World) : Prop where
  file : ∀ u, (w.shared.comp u).recordFile = cfg.recordFile
  sole : Sole w.trace
  at_ : At cfg t x w

section Steps

variable {cfg : AgentConfig} {w w' : World} {o : Op} {b : o.Ans}

theorem ignores_recordFile : Ignores (·.recordFile) [] where
  assign := by intro x c _; cases x <;> rfl
  seqIn := fun _ _ _ => rfl
  status := fun _ _ _ => rfl
  setContext := by
    intro _ c ctrl cc
    unfold updateSetCompContext
    grind

theorem ignores_installed : Ignores (fun c => (c.updatePkg, c.updateFileInfo))
    [.pkg, .fileInfo, .setContext] where
  assign := by intro x c h; cases x <;> simp_all [Assign.apply, Assign.kind]
  seqIn := fun _ _ _ => rfl
  status := fun _ _ _ => rfl
  setContext := fun h => absurd (by simp) h

/-- The operations that change the package or the file of a component. -/
theorem changes_cases (h : Op.kind o ∈ [Kind.pkg, .fileInfo, .setContext]) :
    (∃ u x, o = .assign u x ∧ Assign.kind x ∈ [Kind.pkg, .fileInfo]) ∨
      ∃ u cc, o = .setCompContext u cc := by
  cases o with
  | assign u x =>
    refine .inl ⟨u, x, rfl, ?_⟩
    cases x <;> simp_all [Op.kind, Assign.kind]
  | setCompContext u cc => exact .inr ⟨u, cc, rfl⟩
  | ext o =>
    cases o with
    | callback u f ctl => cases f <;> simp [Op.kind, ExtOp.kind] at h
    | _ => simp [Op.kind, ExtOp.kind] at h
  | assignIntl x => cases x <;> simp [Op.kind, AssignIntl.kind] at h
  | mark m => cases m <;> simp [Op.kind, Mark.kind] at h
  | mutexLock lock | mutexUnlock lock => cases lock <;> simp [Op.kind, Mutex.kind] at h
  | _ => simp [Op.kind] at h

theorem describes_kept {s s' : Shared} (h : Describes u s)
    (hrecords : ∀ path, (s.comp u).recordFile = some path → s'.records path = s.records path)
    (hfile : (s'.comp u).recordFile = (s.comp u).recordFile)
    (hinstalled : ((s'.comp u).updatePkg, (s'.comp u).updateFileInfo) =
      ((s.comp u).updatePkg, (s.comp u).updateFileInfo)) : Describes u s' := by
  obtain ⟨path, c, ctrl, hpath, hrecord, hpkg, hinfo⟩ := h
  obtain ⟨hpkg', hinfo'⟩ := Prod.mk.inj hinstalled
  exact ⟨path, c, ctrl, hfile.trans hpath, (hrecords path hpath).trans hrecord,
    hpkg.trans hpkg'.symm, hinfo.trans hinfo'.symm⟩

/-- An operation that leaves the record file alone. -/
theorem records_same {s s' : Shared} (h : effect cfg t s o b = some s')
    (hkind : Op.kind o ∉ [Kind.recordSave, .remove]) : s'.records = s.records := by
  have hchange := effect_records h
  generalize s'.records = records at hchange
  cases hchange with
  | none => rfl
  | _ => simp [Op.kind] at hkind

theorem sole_act (h : Sole w.trace) (hC : Unshared cfg t (.did t o b) w) :
    Sole (.did t o b :: w.trace) := by
  by_cases hopens : opens o = none
  · intro k hk k' hk'
    exact h k (pending_subset hopens hk) k' (pending_subset hopens hk')
  · cases o with
    | recordOpen path =>
      have hall : ∀ k ∈ pending opens (.did t (.recordOpen path) b :: w.trace), k.1 = t := by
        intro k hk
        rw [pending] at hk
        simp only [Op.kind, reduceCtorEq, if_false, opens, Option.map_some, Option.toList_some,
          List.cons_append, List.nil_append, List.mem_cons] at hk
        rcases hk with rfl | hk
        · rfl
        · exact hC.2 k hk
      intro k hk k' hk'
      exact (hall k hk).trans (hall k' hk').symm
    | _ => exact absurd rfl hopens

/-- The operations of the other threads leave a record and what it describes alone. -/
theorem holds_other {t₂ : Tid} {x x' : Phase} (hsole : Sole w.trace)
    (hfile : ∀ u, (w.shared.comp u).recordFile = cfg.recordFile) (hne : t₂ ≠ t)
    (hC : Unshared cfg t (.did t o b) w) (heffect : effect cfg t w.shared o b = some w'.shared)
    (htrace : w'.trace = .did t o b :: w.trace) (hat : At cfg t x w) (hdoes : Does x o b x')
    (h : Holds u t₂ w) : Holds u t₂ w' := by
  obtain ⟨⟨path, hopen⟩, hwrite, hdescribes⟩ := h
  refine ⟨⟨path, ?_⟩, ?_, describes_kept hdescribes ?_ ?_ ?_⟩
  · rw [htrace]
    exact (pending_other hne).mpr hopen
  · rw [htrace]
    exact (pending_other hne).mpr hwrite
  · intro path' hpath'
    have hchange := effect_records heffect
    generalize w'.shared.records = records at hchange
    cases hchange with
    | none => rfl
    | opened => exact absurd (hC.2 _ hopen) hne
    | written | torn =>
      -- The thread that writes has opened the file.
      cases hdoes with
      | rest _ _ hkind | other _ _ _ hkind => simp [Op.kind] at hkind
      | write =>
        obtain ⟨-, ⟨path₂, hopen₂⟩, -⟩ := hat
        exact absurd (hsole _ hopen _ hopen₂) hne
    | removed removed =>
      apply Function.update_of_ne
      rintro rfl
      exact hne (hC ((hfile u).symm.trans hpath').symm _ hopen)
  · exact effect_frame ignores_recordFile heffect (by simp) u
  · by_cases hon : Op.on o = some u
    · refine effect_frame ignores_installed heffect ?_ u
      intro hkind
      obtain ⟨u', x, rfl, hx⟩ | ⟨u', cc, rfl⟩ := changes_cases hkind
      · cases hon
        exact hne (hC hx _ hwrite rfl)
      · cases hon
        exact hne (hC _ hwrite rfl)
    · rw [effect_other heffect hon]

theorem unsaved_other {t₂ : Tid} {only : Option UaccPtr} {h : List Event} (hne : t₂ ≠ t)
    (hunsaved : Unsaved t₂ only h) : Unsaved t₂ only (.did t o b :: h) :=
  fun u hu => hunsaved u ((pending_other hne).mp hu)

theorem unsaved_own {only : Option UaccPtr} {h : List Event} (hkind : Op.kind o ≠ .saved)
    (hunsaved : Unsaved t only h) : Unsaved t only (.did t o b :: h) :=
  fun u hu => hunsaved u (pending_subset (saves_none hkind) hu)

/-- What a phase says of one thread stays when another one takes a step. -/
theorem at_other {t₂ : Tid} {x x' y : Phase} (hsole : Sole w.trace)
    (hfile : ∀ u, (w.shared.comp u).recordFile = cfg.recordFile) (hne : t₂ ≠ t)
    (hC : Unshared cfg t (.did t o b) w) (heffect : effect cfg t w.shared o b = some w'.shared)
    (htrace : w'.trace = .did t o b :: w.trace) (hat : At cfg t x w) (hdoes : Does x o b x')
    (h : At cfg t₂ y w) : At cfg t₂ y w' := by
  have hunsaved : ∀ only, Unsaved t₂ only w.trace → Unsaved t₂ only w'.trace := by
    intro only hold
    rw [htrace]
    exact unsaved_other hne hold
  have hholds : ∀ u, Holds u t₂ w → Holds u t₂ w' := fun u =>
    holds_other hsole hfile hne hC heffect htrace hat hdoes
  cases y with
  | rest => exact hunsaved _ h
  | known path => exact ⟨h.1, hunsaved _ h.2⟩
  | opened path =>
    obtain ⟨hpath, ⟨path', hopen⟩, hold⟩ := h
    refine ⟨hpath, ⟨path', ?_⟩, hunsaved _ hold⟩
    rw [htrace]
    exact (pending_other hne).mpr hopen
  | written u => exact ⟨hholds u h.1, hunsaved _ h.2⟩
  | saved u => exact ⟨hholds u h.1, hunsaved _ h.2⟩

/-- An operation that has nothing to do with the record. -/
theorem holds_own (hkind : Op.kind o ∉ recordKinds)
    (heffect : effect cfg t w.shared o b = some w'.shared)
    (htrace : w'.trace = .did t o b :: w.trace) (h : Holds u t w) : Holds u t w' := by
  simp only [recordKinds, List.mem_cons, not_or] at hkind
  obtain ⟨hsave, hsaved, hremove, hpkg, hinfo, hcontext, -⟩ := hkind
  obtain ⟨⟨path, hopen⟩, hwrite, hdescribes⟩ := h
  rw [Holds, htrace, pending_same (opens_none hsave) hremove,
    pending_same (writes_none hsave) hremove]
  refine ⟨⟨path, hopen⟩, hwrite, describes_kept hdescribes ?_ ?_ ?_⟩
  · intro path' _
    rw [records_same heffect (by simp [hsave, hremove])]
  · exact effect_frame ignores_recordFile heffect (by simp) u
  · exact effect_frame ignores_installed heffect (by simp [hpkg, hinfo, hcontext]) u

/-- What the next phase says of the thread that takes a step. -/
theorem at_own {x x' : Phase} (hfile : ∀ u, (w.shared.comp u).recordFile = cfg.recordFile)
    (hC : Unshared cfg t (.did t o b) w) (heffect : effect cfg t w.shared o b = some w'.shared)
    (htrace : w'.trace = .did t o b :: w.trace) (hat : At cfg t x w) (hdoes : Does x o b x') :
    At cfg t x' w' := by
  cases hdoes with
  | rest _ _ hkind =>
    rw [At, htrace]
    exact unsaved_own (by simp_all) hat
  | other _ _ _ hkind =>
    have hsaved : Op.kind o ≠ .saved := by simp_all
    have hunsaved : ∀ only, Unsaved t only w.trace → Unsaved t only w'.trace := by
      intro only hold
      rw [htrace]
      exact unsaved_own hsaved hold
    have hholds : ∀ u, Holds u t w → Holds u t w' := fun u => holds_own hkind heffect htrace
    cases x with
    | rest => exact hunsaved _ hat
    | known path => exact ⟨hat.1, hunsaved _ hat.2⟩
    | opened path =>
      obtain ⟨hpath, ⟨path', hopen⟩, hold⟩ := hat
      refine ⟨hpath, ⟨path', ?_⟩, hunsaved _ hold⟩
      rw [htrace, pending_same (opens_none (by simp_all)) (by simp_all)]
      exact hopen
    | written u => exact ⟨hholds u hat.1, hunsaved _ hat.2⟩
    | saved u => exact ⟨hholds u hat.1, hunsaved _ hat.2⟩
  | create path created =>
    obtain ⟨hpath, hold⟩ := hat
    obtain ⟨rfl, -⟩ := hC
    refine ⟨hpath, ⟨path, ?_⟩, ?_⟩
    · rw [htrace]
      simp [pending, Op.kind, opens]
    · rw [htrace]
      exact unsaved_own (by simp [Op.kind]) hold
  | write path u written =>
    obtain ⟨hpath, ⟨path', hopen⟩, hold⟩ := hat
    obtain rfl : written = true := hC
    have hshared := Option.some.inj heffect
    refine ⟨⟨⟨path', ?_⟩, ?_, ?_⟩, ?_⟩
    · rw [htrace]
      simp [pending, Op.kind, opens, hopen]
    · rw [htrace]
      simp [pending, Op.kind, writes]
    · rw [← hshared]
      refine ⟨path, w.shared.comp u, w.shared.intl.componentCtrl, (hfile u).trans hpath, ?_, rfl,
        rfl⟩
      simp [Shared.setRecord]
    · rw [htrace]
      exact unsaved_own (by simp [Op.kind]) hold
  | save u =>
    obtain ⟨⟨⟨path, hopen⟩, hwrite, hdescribes⟩, hold⟩ := hat
    have hshared := Option.some.inj heffect
    refine ⟨⟨⟨path, ?_⟩, ?_, ?_⟩, ?_⟩
    · rw [htrace, pending_same rfl (by simp [Op.kind, Mark.kind])]
      exact hopen
    · rw [htrace, pending_same rfl (by simp [Op.kind, Mark.kind])]
      exact hwrite
    · rw [← hshared]
      exact hdescribes
    · intro u' hu'
      rw [htrace] at hu'
      simp only [pending, Op.kind, Mark.kind, reduceCtorEq, if_false, saves, Option.map_some,
        Option.toList_some, List.cons_append, List.nil_append, List.mem_cons, Prod.mk.injEq,
        true_and] at hu'
      rcases hu' with rfl | hu'
      · rfl
      · cases hold u' hu'
  | unsaved u =>
    have hsome : cfg.recordFile.isSome := hC
    rw [hat.1] at hsome
    cases hsome
  | remove u path =>
    intro u' hu'
    rw [htrace] at hu'
    exact absurd hu' pending_remove

end Steps

variable {cfg : AgentConfig}

theorem fits_started {ctrl : Table CompCtrl} {records : Table RecordContent} {w : World}
    (hshared : w.shared = cfg.started ctrl records)
    (htrace : ∀ {κ : Type} (begins : Op → Option κ), pending begins w.trace = []) :
    Fits cfg t .rest w where
  file := by
    intro u
    rw [hshared]
    rfl
  sole := by
    intro k hk
    rw [htrace] at hk
    cases hk
  at_ := by
    intro u hu
    rw [htrace] at hu
    cases hu

theorem fits_same {w w' : World} {x : Phase} (hshared : w'.shared = w.shared)
    (hpending : ∀ {κ : Type} (begins : Op → Option κ),
      pending begins w'.trace = pending begins w.trace) (h : Fits cfg t x w) :
    Fits cfg t x w' where
  file := by
    rw [hshared]
    exact h.file
  sole := by simpa only [Sole, hpending] using h.sole
  at_ := by
    have hat := h.at_
    cases x <;> simpa only [At, Holds, Unsaved, hshared, hpending] using hat

theorem sound : protocol.Sound .rest (Fits cfg) (runsWhere cfg (Unshared cfg)) where
  init := by
    intro w hinit t
    obtain ⟨htrace, ctrl, hshared⟩ := hinit
    refine fits_started hshared fun begins => ?_
    rw [htrace]
    rfl
  restart := by
    intro w w' hrestart t
    obtain ⟨htrace, ctrl, hshared⟩ := hrestart
    refine fits_started hshared fun begins => ?_
    rw [htrace]
    rfl
  sees := by
    intro t w phase x' hfits hsees
    rcases hsees with rfl | ⟨hrest, u, rfl⟩
    · exact hfits t
    · obtain ⟨hfile, hsole, hat⟩ := hfits t
      rw [hrest] at hat
      exact ⟨hfile, hsole, (hfile u).symm, hat⟩
  act := by
    intro t o b w w' phase x' hfits hact hdoes
    obtain ⟨⟨heffect, htrace⟩, hwhen⟩ := hact
    have hC : Unshared cfg t (.did t o b) w := hwhen _ htrace
    obtain ⟨hfile, hsole, hat⟩ := hfits t
    have hfile' : ∀ u, (w'.shared.comp u).recordFile = cfg.recordFile := fun u =>
      (effect_frame ignores_recordFile heffect (by simp) u).trans (hfile u)
    have hsole' : Sole w'.trace := by
      rw [htrace]
      exact sole_act hsole hC
    have hothers : ∀ t₂, t₂ ≠ t → Fits cfg t₂ (phase t₂) w' := fun t₂ hne =>
      ⟨hfile', hsole', at_other hsole hfile hne hC heffect htrace hat hdoes (hfits t₂).at_⟩
    refine ⟨⟨hfile', hsole', at_own hfile hC heffect htrace hat hdoes⟩,
      fun t₂ hne _ => hothers t₂ hne, fun t₂ p hne hfork hrest => ?_⟩
    have hfits₂ := hothers t₂ hne
    rw [hrest] at hfits₂
    exact ⟨.rest, hfits₂, rests_forked restsOutside (show fork t o b = some (t₂, p) from hfork)
      fun u => rests_workerAction restsOutside rests_updateStartInstallOperations
        rests_processUpdateStatus⟩
  arrive := by
    intro t p w w' phase hfits hrest h
    obtain ⟨⟨e, harrive, hw⟩, _⟩ := h
    have hpending : ∀ {κ : Type} (begins : Op → Option κ),
        pending begins w'.trace = pending begins w.trace := by
      intro κ begins
      rw [hw]
      cases harrive <;> rfl
    have hkeep : ∀ t₂, Fits cfg t₂ (phase t₂) w' := by
      intro t₂
      apply fits_same _ hpending (hfits t₂)
      rw [hw]
    refine ⟨⟨.rest, ?_, ?_⟩, fun t₂ _ => hkeep t₂⟩
    · have ht := hkeep t
      rw [hrest] at ht
      exact ht
    · cases harrive with
      | message u msg hreg =>
        exact rests_runnerPass restsOutside rests_updateStartInstallOperations
          rests_processUpdateStatus msg
      | presence connected => exact rests_handlePresence restsOutside cfg.nUah connected

/-- In the runs in which the record file belongs to one installation at a time, it describes the
installation from the return of `update_record_save` until the record is removed. -/
theorem recordKept_of_unshared {c : AgentConfiguration}
    (hc : (runsWhere cfg (Unshared cfg)).Reachable c) (u : UaccPtr) : RecordKept u c := by
  obtain ⟨phase, hphase⟩ := sound.phases hc
  intro t hsaved
  have hat := (hphase t).1.at_
  cases hx : phase t with
  | saved u' =>
    rw [hx] at hat
    obtain ⟨⟨-, -, hdescribes⟩, honly⟩ := hat
    cases honly u hsaved
    exact hdescribes
  | rest =>
    rw [hx] at hat
    cases hat u hsaved
  | known path | written path =>
    rw [hx] at hat
    cases hat.2 u hsaved
  | opened path =>
    rw [hx] at hat
    cases hat.2.2 u hsaved
/-! Two components are updated, the second one while the first one installs. -/

def readyUpdateFor (name : String) : Json :=
  packageMessage bmtReadyUpdate [] name "2" (downloadedFile "2")

/-- The first worker is about to call `on_install`; the second one has come to the end of its
installation, which was not granted. -/
def installedBoth (C : Tid → Event → World → Prop) [∀ t e w, Decidable (C t e w)] :
    AgentConfiguration :=
  rehearse (sampleConfig true 2) C (usualOracle "1")
    [connected (sampleConfig true 2) C, .steps .bus 60, .steps (.presence 0) 10,
      message (sampleConfig true 2) C 0 (by decide) (readyUpdateFor "first"),
      .steps (.runner 0) 60, .steps (.worker 0 0) 67,
      message (sampleConfig true 2) C 0 (by decide) grantingReply,
      .steps (.runner 0) 60, .steps (.worker 0 0) 13,
      message (sampleConfig true 2) C 1 (by decide) (readyUpdateFor "second"),
      .steps (.runner 1) 60, .steps (.worker 1 0) 78]

/-- The second worker has to wait with its record. -/
theorem recordKept_example :
    (Tid.worker 0 0, 0) ∈
        pending saves (installedBoth (Unshared (sampleConfig true 2))).st.trace ∧
      RecordKept 0 (installedBoth (Unshared (sampleConfig true 2))) :=
  ⟨by decide +kernel, recordKept_of_unshared (rehearse_reachable _ _ _ _) 0⟩

/-- The second worker has removed the record of the first one. -/
theorem second_removes_record :
    (agent (sampleConfig true 2)).Reachable (installedBoth Anything) ∧
      ¬RecordKept 0 (installedBoth Anything) := by
  have hsaved : (Tid.worker 0 0, 0) ∈ pending saves (installedBoth Anything).st.trace := by
    decide +kernel
  have hrecord : ((installedBoth Anything).st.shared.comp 0).recordFile.bind
      (installedBoth Anything).st.shared.records = none := by decide +kernel
  refine ⟨agent_reachable _ _ _, fun h => ?_⟩
  obtain ⟨path, c, ctrl, hpath, hcontent, -⟩ := h _ hsaved
  rw [hpath, Option.bind_some, hcontent] at hrecord
  cases hrecord

end EsyncUa.RebootRecords
