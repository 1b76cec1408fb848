import EsyncUa.ConfirmRaces
import EsyncUa.Rehearsals

/-!
A confirm-update that is late. Unless it removes the manifest after the entry was written or
sets the stage after it was PREPARE_UPDATE_DONE, a package that the worker has reported ready
stays prepared.
-/
namespace EsyncUa.LateConfirms

open EsyncUa.JsonProperties EsyncUa.Components EsyncUa.Records EsyncUa.Programs
open EsyncUa.Operations EsyncUa.Installation EsyncUa.Updater EsyncUa.Messages EsyncUa.Machines
open EsyncUa.Agents EsyncUa.Footprints EsyncUa.Frames EsyncUa.Outlines EsyncUa.Rules
open EsyncUa.Schedules EsyncUa.Rehearsals EsyncUa.ConfirmRaces

variable {cfg : AgentConfig} {u : UaccPtr} {n : Nat} {name m : String}
variable {cache version : Option String}

section Worker

/-! Parts of the prepare-update that neither write the entry nor set a stage. -/

abbrev partKinds : List Kind :=
  [.env, .send, .seqOut, .replyId, .campaign, .preparation, .query, .retryCnt, .prepared]

def Loud (u : UaccPtr) (o : Op) : Prop :=
  Within u partKinds o ∧ ∀ path pkgFile, o ≠ .ext (.addPkgFileManifest path pkgFile)

/-- The operation does not report the package ready either. -/
def Quiet (u : UaccPtr) (o : Op) : Prop := Loud u o ∧ ¬Reports o

/-- The operation reports nothing but the state. -/
def Telling (u : UaccPtr) (state : InstallState) (o : Op) : Prop :=
  Loud u o ∧ (Reports o → state = .ready)

theorem within_of_loud {o : Op} (ho : Loud u o) : Within u prepareKinds o :=
  ⟨ho.1.1, (by decide : partKinds ⊆ prepareKinds) ho.1.2⟩

theorem loud_entry {o : Op} {b : o.Ans} {x : Entry} (ho : Loud u o) : entryStep m x o b = x := by
  cases o with
  | remove path => simp [Loud, Within, Op.kind] at ho
  | ext o =>
    cases o with
    | addPkgFileManifest path pkgFile => exact absurd rfl (ho.2 path pkgFile)
    | _ => rfl
  | _ => rfl

theorem loud_own (name : String) {o : Op} (ho : Loud u o) (c : UaComponentContext) :
    (own o c).updatePkg = c.updatePkg ∧ (own o c).updateManifest = c.updateManifest ∧
      compGetUpdateStage (own o c).stInfo (some name) =
        compGetUpdateStage c.stInfo (some name) := by
  cases o with
  | assign u' x =>
    cases x with
    | preparedVersion name' ver cid =>
      exact ⟨rfl, rfl, compGetUpdateStage_setPrepared _ _ _ _ _⟩
    | replyId _ | retryCnt _ => exact ⟨rfl, rfl, rfl⟩
    | _ => simp [Loud, Within, Op.kind, Assign.kind] at ho
  | _ => exact ⟨rfl, rfl, rfl⟩

theorem loud_rely {o : Op} (b : o.Ans) (ho : Loud u o) (v : View) :
    Rely name v { step u name m o b v with reported := v.reported } := by
  obtain ⟨hpkg, hmanifest, hstage⟩ := loud_own name ho v.comp
  have hentry : entryStep m v.entry o b = v.entry := loud_entry ho
  refine ⟨hpkg, hmanifest, fun _ => hentry, fun hdone => ⟨?_, id⟩, fun hnot hb => ?_,
    fun _ => hentry, id, Or.inl, id⟩
  · exact hstage.trans hdone
  · exact fun hdone => hnot hb (hstage.symm.trans hdone)

theorem quiet_rely {o : Op} (b : o.Ans) (ho : Quiet u o) (v : View) :
    Rely name v (step u name m o b v) := by
  have hrely : Rely name v { step u name m o b v with reported := v.reported } :=
    loud_rely b ho.1 v
  have hreported : (step u name m o b v).reported → v.reported := by
    intro h
    exact h.resolve_right ho.2
  exact { hrely with reported := hreported }

theorem quiet_triple {α : Type} {p : UaProg α} {φ : View → Prop} (hp : p.All (Quiet u))
    (hφ : Settled name φ) :
    (outline cfg u n name m cache version).Triple (.worker u n) (On u n name m φ) p
      fun a w => On u n name m φ w ∧ p.Returns a :=
  part_triple hp hφ (fun _ ho => within_of_loud ho.1) fun _ b v ho hv =>
    hφ _ _ hv (quiet_rely b ho v)

/-- A report keeps what does not depend on reports. -/
theorem loud_triple {α : Type} {p : UaProg α} {φ : View → Prop} (hp : p.All (Loud u))
    (hφ : Settled name φ) (hfree : ∀ v reported, φ v → φ { v with reported := reported }) :
    (outline cfg u n name m cache version).Triple (.worker u n) (On u n name m φ) p
      fun a w => On u n name m φ w ∧ p.Returns a :=
  part_triple hp hφ (fun _ ho => within_of_loud ho) fun o b v ho hv =>
    hfree _ (step u name m o b v).reported (hφ _ _ hv (loud_rely b ho v))

section Parts

attribute [local simp] Telling Quiet Loud Within Op.kind Op.on ExtOp.kind Assign.kind
  AssignIntl.kind Mark.kind Mutex.kind Reports

theorem sendInstallStatus_all (state : InstallState) (pkgFile : Option PkgFile) (ue : UpdateErr) :
    (sendInstallStatus u state pkgFile ue).All (Telling u state) := by
  have hlist : (statusVersionList state pkgFile ue).All (Telling u state) := by
    cases pkgFile <;> simp [statusVersionList]
  simp [sendInstallStatus, hlist, statusSequence, statusReplyId]

theorem prepareTransfer_quiet (pkgFile : PkgFile) (bck : Bool) :
    (prepareTransfer u pkgFile bck).All (Quiet u) := by
  simp [prepareTransfer, transferFileAction]

theorem prepareVersion_quiet (ue : UpdateErr) : (prepareVersion u ue).All (Quiet u) := by
  simp [prepareVersion]

theorem patchDelta_quiet (pkgManifest ver diffFile newFile : Option String) :
    (patchDelta pkgManifest ver diffFile newFile).All (Quiet u) := by
  simp only [patchDelta, Prog.all_ite, Prog.all_bind, all_ext]
  refine ⟨fun _ => ⟨by simp, fun reply _ => ?_⟩, by simp⟩
  cases reply <;> simp

theorem prepareFile_quiet (err : Rc) (installedVer : Option String)
    (pkgFile updateFile : PkgFile) (ue : UpdateErr) :
    (prepareFile u err installedVer pkgFile updateFile ue).All (Quiet u) := by
  simp [prepareFile, isDeltaToPatch, patchDelta_quiet]

theorem prepareCallback_quiet (state : InstallState) (updateFile : PkgFile) (ue : UpdateErr) :
    (prepareCallback u state updateFile ue).All (Quiet u) := by
  simp [prepareCallback]

theorem isMarkedPrepared_quiet (st : UaStage) : (isMarkedPrepared u st).All (Quiet u) := by
  simp only [isMarkedPrepared, Prog.all_ite, Prog.all_bind, all_readComp, all_readIntl,
    all_orCrash, true_and]
  refine ⟨fun _ _ _ _ _ _ _ _ _ => ⟨by simp, fun preparedVer _ => ?_⟩, by simp⟩
  cases preparedVer <;> simp

theorem sendQueryUpdates_quiet : sendQueryUpdates.All (Quiet u) := by
  simp only [sendQueryUpdates, sendQuery, Prog.all_ite, Prog.all_bind, all_readIntl, all_ext,
    all_assignIntl, true_and]
  refine fun _ _ => ⟨fun _ => ⟨by simp, fun replyId _ => ⟨by simp, fun _ _ => ?_⟩⟩, by simp⟩
  cases replyId <;> simp [sendJson]

end Parts

/-! The version of the file is the one that was asked for. -/

theorem prepareFile_version {err : Rc} {installedVer : Option String}
    {pkgFile updateFile : PkgFile} {ue : UpdateErr} {r : Rc × InstallState × PkgFile × UpdateErr}
    (h : (prepareFile u err installedVer pkgFile updateFile ue).Returns r) :
    r.2.2.1.version = updateFile.version := by
  simp only [prepareFile, Prog.returns_bind] at h
  obtain ⟨isDelta, -, h⟩ := h
  split at h
  · obtain ⟨cacheDir, -, h⟩ := (Prog.returns_bind ..).mp h
    obtain ⟨manifest, -, h⟩ := (Prog.returns_bind ..).mp h
    obtain ⟨err', -, h⟩ := (Prog.returns_bind ..).mp h
    obtain ⟨sha, -, h⟩ := (Prog.returns_bind ..).mp h
    rw [← show _ = r from h]
  · rw [← show _ = r from h]
    split <;> rfl

theorem prepareCallback_version {state : InstallState} {updateFile : PkgFile} {ue : UpdateErr}
    {r : InstallState × PkgFile × UpdateErr}
    (h : (prepareCallback u state updateFile ue).Returns r) :
    r.2.1.version = updateFile.version := by
  simp only [prepareCallback, Prog.returns_bind] at h
  obtain ⟨uar, -, h⟩ := h
  split at h
  · obtain ⟨pkgInfo, -, h⟩ := (Prog.returns_bind ..).mp h
    obtain ⟨isRollback, -, h⟩ := (Prog.returns_bind ..).mp h
    obtain ⟨reply, -, h⟩ := (Prog.returns_bind ..).mp h
    split at h
    · split at h <;> · rw [← show _ = r from h]
    · rw [← show _ = r from h]
  · rw [← show _ = r from h]

/-- Only a package in the stage PREPARE_UPDATE_DONE is taken for one that is prepared. -/
theorem isMarkedPrepared_stage {st : UaStage} (h : (isMarkedPrepared u st).Returns true) :
    st = .prepareUpdateDone := by
  unfold isMarkedPrepared at h
  split at h
  · assumption
  · cases h

/-! The prepare-update. -/

/-- Nothing has been reported or written yet, and a confirm-update that has begun has changed
the stage. -/
def Early (name : String) (q : PkgInfo → Prop) (v : View) : Prop :=
  ¬v.reported ∧ (v.begun → v.stage name ≠ .prepareUpdateDone) ∧
    (¬v.begun → v.entry = .asBefore) ∧ q v.comp.updatePkg

theorem settled_early (q : PkgInfo → Prop) : Settled name (Early name q) := by
  intro v v' ⟨hnot, hstage, hentry, hq⟩ hrely
  refine ⟨fun h => hnot (hrely.reported h), hrely.notDone hstage, fun hnot' => ?_, ?_⟩
  · exact (hrely.entry hnot').trans (hentry fun h => hnot' (hrely.begun h))
  · rw [hrely.pkg]
    exact hq

/-- An assignment to the package information. -/
theorem pkg_triple {x : Assign} {q r : PkgInfo → Prop} (hkind : Assign.kind x = .pkg)
    (hq : ∀ c, q c.updatePkg → r (Assign.apply x c).updatePkg) :
    (outline cfg u n name m cache version).Triple (.worker u n) (On u n name m (Early name q))
      (assign u x) fun _ => On u n name m (Early name r) := by
  refine op_triple ⟨by simp [Op.on], by simp [Op.kind, hkind]⟩ (settled_early q)
    (fun _ => settled_early r) fun b v _ ⟨hnot, hstage, hentry, hv⟩ => ?_
  refine ⟨fun h => hnot (h.resolve_right id), fun hb hdone => hstage hb ?_, hentry, hq _ hv⟩
  rw [← hdone]
  cases x with
  | updateStage name' stage => cases hkind
  | preparedVersion name' ver cid => cases hkind
  | _ => rfl

theorem of_const {α : Type} {c : Prop} {φ : View → Prop} {p : UaProg α} {Q : α → World → Prop}
    (h : c → (outline cfg u n name m cache version).Triple (.worker u n) (On u n name m φ) p Q) :
    (outline cfg u n name m cache version).Triple (.worker u n)
      (On u n name m fun v => c ∧ φ v) p Q :=
  fun w hinv hw => h hw.1 w hinv hw.2

theorem of_returns {α β : Type} {c : UaProg β} {b : β} {φ : View → Prop} {p : UaProg α}
    {Q : α → World → Prop} (h : c.Returns b →
      (outline cfg u n name m cache version).Triple (.worker u n) (On u n name m φ) p Q) :
    (outline cfg u n name m cache version).Triple (.worker u n)
      (fun w => On u n name m φ w ∧ c.Returns b) p Q :=
  fun w hinv hw => h hw.2 w hinv hw.1

theorem settled_const {c : Prop} {φ : View → Prop} (hφ : Settled name φ) :
    Settled name fun v => c ∧ φ v :=
  fun v v' hv hrely => ⟨hv.1, hφ v v' hv.2 hrely⟩

/-- The package is named in the component, and the manifest too. -/
def Addressed (name m : String) (v : View) : Prop :=
  v.comp.updateManifest = some m ∧ Early name (·.name = some name) v

theorem settled_addressed : Settled name (Addressed name m) := by
  intro v v' ⟨hmanifest, hearly⟩ hrely
  exact ⟨hrely.manifest.trans hmanifest, settled_early _ v v' hearly hrely⟩

/-- A package that is ready has its entry. -/
def Written (name : String) (state : InstallState) (version : Option String) (v : View) : Prop :=
  ¬v.reported ∧ v.comp.updatePkg.name = some name ∧ (state = .ready → v.entry = .there version)

theorem settled_there {v v' : View} (hrely : Rely name v v') (h : v.entry = .there version) :
    v'.entry = .there version := by
  refine (hrely.written ?_).trans h
  rw [h]
  rfl

theorem settled_written (state : InstallState) (version : Option String) :
    Settled name (Written name state version) := by
  intro v v' ⟨hnot, hname, hentry⟩ hrely
  refine ⟨fun h => hnot (hrely.reported h), ?_, fun h => settled_there hrely (hentry h)⟩
  rw [hrely.pkg]
  exact hname

theorem written_of_addressed {state : InstallState} (hstate : state ≠ .ready) {v : View}
    (hv : Addressed name m v) (ver : Option String) : Written name state ver v :=
  ⟨hv.2.1, hv.2.2.2.2, fun h => absurd h hstate⟩

theorem prepareManifest_triple (updateFile : PkgFile) :
    (outline cfg u n name m cache version).Triple (.worker u n)
      (On u n name m (Addressed name m)) (prepareManifest u updateFile)
      fun r => On u n name m (Written name r.1 updateFile.version) := by
  refine readComp_triple (ρ := fun b v => b = some m ∧ Addressed name m v) settled_addressed
    (fun v hv => ⟨hv.1, hv⟩) fun manifest => of_const fun hmanifest => ?_
  subst hmanifest
  refine .ite (fun _ => ?_) fun h => absurd rfl h
  have hsha : Within u prepareKinds (.ext (.calcSha256X updateFile.file)) :=
    ⟨by simp [Op.on], by simp [Op.kind, ExtOp.kind]⟩
  refine .bind (op_triple (ψ := fun _ => Addressed name m) hsha settled_addressed
    (fun _ => settled_addressed) fun b v _ hv => ?_) fun sha => ?_
  · exact settled_addressed v _ hv (quiet_rely b ⟨⟨⟨hsha.1, by simp [Op.kind, ExtOp.kind]⟩,
      by simp⟩, by simp [Reports]⟩ v)
  · cases sha with
    | none =>
      exact .pure (stable_on settled_addressed) fun w _ hw =>
        written_of_addressed (by simp) hw _
    | some sha =>
      refine .bind (ignoring_triple (op_triple
        (ψ := fun _ => Written name .ready updateFile.version)
        ⟨by simp [Op.on], by simp [Op.kind, ExtOp.kind]⟩ settled_addressed
        (fun _ => settled_written _ _) fun rc v hfair hv => ?_)
        (stable_on (settled_written _ _))) fun _ =>
        .pure (stable_on (settled_written _ _)) fun w _ hw => hw
      refine ⟨fun h => hv.2.1 (h.resolve_right id), hv.2.2.2.2, fun _ => ?_⟩
      simp only [step, entryStep, true_and]
      exact if_pos (hfair rfl)

theorem prepareInstallAction_triple (pkgFile updateFile : PkgFile) (bck : Bool) (ue : UpdateErr) :
    (outline cfg u n name m cache version).Triple (.worker u n)
      (On u n name m (Addressed name m)) (prepareInstallAction u pkgFile bck updateFile ue)
      fun prepared => On u n name m (Written name prepared.state pkgFile.version) := by
  unfold prepareInstallAction
  refine .bind (quiet_triple (prepareTransfer_quiet _ _) settled_addressed) fun r =>
    of_returns fun hr => ?_
  obtain ⟨err, file⟩ := r
  refine .bind (quiet_triple ?_ settled_addressed) fun r => of_returns fun _ => ?_
  · rw [Prog.all_ite]
    exact ⟨fun _ => prepareVersion_quiet _, fun _ => Prog.all_pure _ _⟩
  obtain ⟨err, installedVer, ue⟩ := r
  refine .bind (quiet_triple (prepareFile_quiet _ _ _ _ _) settled_addressed) fun r =>
    of_returns fun hr => ?_
  obtain ⟨err, state, file', ue⟩ := r
  have hfile : file'.version = pkgFile.version := prepareFile_version hr
  refine .bind (quiet_triple ?_ settled_addressed) fun r => of_returns fun hr => ?_
  · rw [Prog.all_ite]
    exact ⟨fun _ => prepareCallback_quiet _ _ _, fun _ => Prog.all_pure _ _⟩
  obtain ⟨state, file₂, ue⟩ := r
  have hfile₂ : file₂.version = pkgFile.version := by
    split at hr
    · exact (prepareCallback_version hr).trans hfile
    · cases hr
      exact hfile
  have hmanifest : (outline cfg u n name m cache version).Triple (.worker u n)
      (On u n name m (Addressed name m))
      (if state = .ready then prepareManifest u file₂ else pure (state, file₂))
      fun r => On u n name m (Written name r.1 pkgFile.version) := by
    refine .ite (fun _ => ?_) fun hstate => ?_
    · rw [← hfile₂]
      exact prepareManifest_triple file₂
    · exact .pure (stable_on settled_addressed) fun w _ hw => written_of_addressed hstate hw _
  refine .bind hmanifest fun r => ?_
  exact .pure (stable_on (settled_written _ _)) fun w _ hw => hw

theorem prepareSource_triple (q : PkgInfo → Prop) (jsonObj : Json) (ver : Option String) :
    (outline cfg u n name m cache version).Triple (.worker u n) (On u n name m (Early name q))
      (prepareSource u jsonObj ver)
      fun r => On u n name m fun v => (∀ source, r = some source → source.1.version = ver) ∧
        Early name q v := by
  have hearly : Settled name (Early name q) := settled_early q
  refine .ite (fun _ => .pure (stable_on hearly) fun w _ hw => ⟨?_, hw⟩) fun _ => ?_
  · intro source hsource
    cases hsource
    rfl
  · refine readComp_triple (ρ := fun _ => Early name q) hearly (fun _ hv => hv) fun manifest => ?_
    have hget : Quiet u (.ext (.getPkgFileManifest manifest ver)) := by
      simp [Quiet, Loud, Within, Op.on, Op.kind, ExtOp.kind, Reports]
    refine .bind (op_triple (ψ := fun (reply : ManifestReply) v =>
      (∀ pkgFile, reply = .found pkgFile → pkgFile.version = ver) ∧ Early name q v)
      (within_of_loud hget.1) hearly (fun _ => settled_const hearly) fun reply v hfair hv =>
        ⟨hfair, hearly v _ hv (quiet_rely reply hget v)⟩) fun reply => of_const fun hversion => ?_
    cases reply with
    | found pkgFile =>
      refine .pure (stable_on hearly) fun w _ hw => ⟨fun source hsource => ?_, hw⟩
      cases hsource
      exact hversion pkgFile rfl
    | err | sys =>
      refine .pure (stable_on hearly) fun w _ hw => ⟨fun source hsource => ?_, hw⟩
      cases hsource

/-- The package has been reported ready only if it is. -/
def Reported (name : String) (state : InstallState) (version : Option String) (v : View) : Prop :=
  (v.reported → state = .ready) ∧ v.comp.updatePkg.name = some name ∧
    (state = .ready → v.entry = .there version)

theorem settled_reported (state : InstallState) (version : Option String) :
    Settled name (Reported name state version) := by
  intro v v' ⟨hreported, hname, hentry⟩ hrely
  refine ⟨fun h => hreported (hrely.reported h), ?_, fun h => settled_there hrely (hentry h)⟩
  rw [hrely.pkg]
  exact hname

/-- The report of the state in which the package is. -/
theorem report_triple (state : InstallState) (version' : Option String) (pkgFile : Option PkgFile)
    (ue : UpdateErr) :
    (outline cfg u n name m cache version).Triple (.worker u n)
      (On u n name m (Written name state version'))
      (ignoring (sendInstallStatus u state pkgFile ue))
      fun _ => On u n name m (Reported name state version') := by
  refine ignoring_triple (Outline.Triple.post (Outline.Triple.pre (part_triple
    (φ := Reported name state version') (sendInstallStatus_all state pkgFile ue)
    (settled_reported _ _) (fun _ ho => within_of_loud ho.1) fun o b v ho hv => ?_)
    fun w _ hw => ⟨fun h => absurd h hw.1, hw.2⟩) fun _ w _ hw => hw.1)
    (stable_on (settled_reported _ _))
  obtain ⟨-, hname, hentry⟩ := settled_reported state version' v _ hv (loud_rely b ho.1 v)
  refine ⟨fun h => ?_, hname, hentry⟩
  obtain h | h := h
  · exact hv.1 h
  · exact ho.2 h

theorem prepareAndReport_triple (hm : join cache [some name, some manifestPkg] = some m)
    (jsonObj : Json) (pkgFile : PkgFile) (bck : Bool) :
    (outline cfg u n name m cache version).Triple (.worker u n)
      (On u n name m (Early name (·.name = some name))) (prepareAndReport u jsonObj pkgFile bck)
      fun state => On u n name m (Reported name state pkgFile.version) := by
  have hearly : Settled name (Early name (·.name = some name)) := settled_early _
  refine orCrash_bind fun sha _ => orCrash_bind fun deltaSha _ => ?_
  refine .read_bind (R := fun cacheDir w => cacheDir = cache ∧
    On u n name m (Early name (·.name = some name)) w) (stable_on hearly)
    (fun w hinv hw => ⟨hinv, hw⟩) fun cacheDir => .const_pre fun hcache => ?_
  refine readComp_triple (ρ := fun b v => b = some name ∧ Early name (·.name = some name) v)
    hearly (fun v hv => ⟨hv.2.2.2, hv⟩) fun pkgName => of_const fun hname => ?_
  rw [hcache, hname, hm]
  refine .bind (op_triple (ψ := fun _ => Addressed name m)
    ⟨by simp [Op.on], by simp [Op.kind, Assign.kind]⟩ hearly (fun _ => settled_addressed)
    fun b v _ ⟨hnot, hstage, hentry, hv⟩ => ⟨rfl, fun h => hnot (h.resolve_right id), hstage,
      hentry, hv⟩) fun _ => ?_
  refine .bind (prepareInstallAction_triple _ _ _ _) fun prepared => ?_
  have hwritten : Settled name (Written name prepared.state pkgFile.version) :=
    settled_written _ _
  refine .bind (quiet_triple (p := mark _) ?_ hwritten) fun _ => of_returns fun _ => ?_
  · rw [all_mark]
    simp [Quiet, Loud, Within, Op.on, Op.kind, Mark.kind, Reports]
  have hquery : (doIf (prepared.state = .ready) sendQueryUpdates).All (Quiet u) := by
    rw [all_doIf]
    exact fun _ => sendQueryUpdates_quiet
  refine .bind (quiet_triple hquery hwritten) fun _ => of_returns fun _ => ?_
  refine .bind (report_triple _ _ _ _) fun _ => ?_
  refine .bind (op_triple (ψ := fun _ => Reported name prepared.state pkgFile.version)
    ⟨by simp [Op.on], by simp [Op.kind, Assign.kind]⟩ (settled_reported _ _)
    (fun _ => settled_reported _ _) fun b v _ hv => ?_) fun _ =>
    .pure (stable_on (settled_reported _ _)) fun w _ hw => hw
  exact ⟨fun h => hv.1 (h.resolve_right id), hv.2⟩

theorem prepareFromSource_triple (hm : join cache [some name, some manifestPkg] = some m)
    (jsonObj : Json) (ver : Option String) :
    (outline cfg u n name m cache version).Triple (.worker u n)
      (On u n name m (Early name (·.name = some name))) (prepareFromSource u jsonObj ver)
      fun state => On u n name m (Reported name state ver) := by
  refine .bind (prepareSource_triple _ jsonObj ver) fun source => of_const fun hversion => ?_
  cases source with
  | some source =>
    rw [← hversion source rfl]
    exact prepareAndReport_triple hm jsonObj source.1 source.2
  | none =>
    refine .bind (.pre (report_triple .failed ver none .none) fun w _ hw =>
      ⟨hw.1, hw.2.2.2, by simp⟩) fun _ => ?_
    exact .pure (stable_on (settled_reported _ _)) fun w _ hw => hw

/-- The stage of the package is set. -/
theorem stage_triple {stage : UaStage} {φ ψ : View → Prop} (hφ : Settled name φ)
    (hψ : Settled name ψ) (h : ∀ v v', φ v → v'.stage name = stage → v'.comp.updatePkg =
      v.comp.updatePkg → v'.entry = v.entry → v'.reported = v.reported → v'.begun = v.begun →
      ψ v') :
    (outline cfg u n name m cache version).Triple (.worker u n) (On u n name m φ)
      (assign u (.updateStage (some name) stage)) fun _ => On u n name m ψ := by
  refine op_triple ⟨by simp [Op.on], by simp [Op.kind, Assign.kind]⟩ hφ (fun _ => hψ)
    fun b v _ hv => h v _ hv ?_ rfl rfl ?_ rfl
  · simp [View.stage, step, own, Assign.apply, compGetUpdateStage_set]
  · simp [step, Reports]

/-- The package is prepared, as its report said. -/
def Done (name : String) (version : Option String) (v : View) : Prop :=
  v.stage name = .prepareUpdateDone ∧ v.entry = .there version

theorem settled_done : Settled name (Done name version) := by
  intro v v' ⟨hdone, hentry⟩ hrely
  exact ⟨(hrely.done hdone).1, settled_there hrely hentry⟩

theorem prepareDone_triple :
    (outline cfg u n name m cache version).Triple (.worker u n)
      (On u n name m (Reported name .ready version)) (prepareDone u)
      fun _ => On u n name m (Final name version) := by
  have hreported : Settled name (Reported name .ready version) := settled_reported _ _
  have hretry : (assign u (.retryCnt 0)).All (Quiet u) := by
    rw [all_assign]
    simp [Quiet, Loud, Within, Op.on, Op.kind, Assign.kind, Reports]
  refine .bind (quiet_triple hretry hreported) fun _ => of_returns fun _ => ?_
  refine readComp_triple (ρ := fun b v => b = some name ∧ Reported name .ready version v)
    hreported (fun v hv => ⟨hv.2.1, hv⟩) fun pkgName => of_const fun hname => ?_
  rw [hname]
  refine readComp_triple (ρ := fun _ => Reported name .ready version) hreported
    (fun _ hv => hv) fun ver => ?_
  refine readIntl_triple hreported fun cid => ?_
  have hprepared : (assign u (.preparedVersion (some name) ver cid)).All (Quiet u) := by
    rw [all_assign]
    simp [Quiet, Loud, Within, Op.on, Op.kind, Assign.kind, Reports]
  refine .bind (quiet_triple hprepared hreported) fun _ => of_returns fun _ => ?_
  refine .post (stage_triple hreported settled_done fun v v' hv hstage _ hentry _ _ =>
    ⟨hstage, hentry.trans (hv.2.2 rfl)⟩) fun _ w _ hw _ => ⟨hw.1, Or.inl hw.2⟩

theorem prepareUndone_triple {state : InstallState} (hstate : state ≠ .ready) (st : UaStage) :
    (outline cfg u n name m cache version).Triple (.worker u n)
      (On u n name m (Reported name state version)) (prepareUndone u st)
      fun _ => On u n name m (Final name version) := by
  have hreported : Settled name (Reported name state version) := settled_reported _ _
  refine readComp_triple (ρ := fun b v => b = some name ∧ Reported name state version v)
    hreported (fun v hv => ⟨hv.2.1, hv⟩) fun pkgName => of_const fun hname => ?_
  rw [hname]
  refine stage_triple hreported (settled_final version) fun v v' hv _ _ _ hsame _ h => ?_
  rw [hsame] at h
  exact absurd (hv.1 h) hstate

/-- An assignment that touches neither the package's stage nor a report. -/
theorem final_assign {x : Assign} (hkind : Assign.kind x = .manifests ∨ Assign.kind x = .pkg) :
    (outline cfg u n name m cache version).Triple (.worker u n)
      (On u n name m (Final name version)) (assign u x)
      fun _ => On u n name m (Final name version) := by
  have hks : Assign.kind x ∈ prepareKinds := by
    obtain h | h := hkind <;> simp [h]
  refine op_triple ⟨by simp [Op.on], hks⟩ (settled_final version)
    (fun _ => settled_final version) fun b v _ hv h => ?_
  obtain ⟨hdone, hentry⟩ := hv (h.resolve_right id)
  have hstInfo : (Assign.apply x v.comp).stInfo = v.comp.stInfo := by
    cases x with
    | updateStage _ _ | preparedVersion _ _ _ => simp [Assign.kind] at hkind
    | _ => rfl
  refine ⟨?_, hentry.imp id fun hb => ⟨Or.inl hb.1, hb.2⟩⟩
  rw [← hdone]
  simp only [View.stage, step, own, hstInfo]

/-- The package that the message names. -/
def Named (name : String) (jsonObj : Json) (pkg : PkgInfo) : Prop :=
  pkg.name = some name ∧ pkg.version = (getPkgVersionFromJson jsonObj none).2

/-- What the component knows of the package and of the version to prepare. -/
def Asked (name : String) (jsonObj : Json) (pkg : PkgInfo) : Prop :=
  pkg.name = some name ∧ versionToUpdate pkg = askedVersion jsonObj

theorem prepareUpdate_triple (hm : join cache [some name, some manifestPkg] = some m)
    (jsonObj : Json) (st : UaStage) :
    (outline cfg u n name m cache (askedVersion jsonObj)).Triple (.worker u n)
      (On u n name m (Early name (Named name jsonObj))) (prepareUpdate u jsonObj st)
      fun _ => On u n name m (Final name (askedVersion jsonObj)) := by
  have hnamed : Settled name (Early name (Named name jsonObj)) := settled_early _
  have hasked : Settled name (Early name (Asked name jsonObj)) := settled_early _
  refine readComp_triple (ρ := fun b v => b = some name ∧ Early name (Named name jsonObj) v)
    hnamed (fun v hv => ⟨hv.2.2.2.1, hv⟩) fun pkgName => of_const fun hname => ?_
  rw [hname]
  refine .bind (stage_triple hnamed hnamed fun v v' hv hstage hpkg hentry hreported hbegun => ?_)
    fun _ => ?_
  · refine ⟨by rw [hreported]; exact hv.1, fun _ => by rw [hstage]; simp, fun h => ?_,
      by rw [hpkg]; exact hv.2.2.2⟩
    rw [hbegun] at h
    exact hentry.trans (hv.2.2.1 h)
  refine .bind (pkg_triple (r := Asked name jsonObj) rfl fun c hc => ⟨hc.1, ?_⟩) fun _ => ?_
  · simp [askedVersion, versionToUpdate, Assign.apply, hc.2]
  have hversions : (outline cfg u n name m cache (askedVersion jsonObj)).Triple (.worker u n)
      (On u n name m (Early name (Asked name jsonObj)))
      (doIf (getPkgRollbackVersionFromJson jsonObj none).2.isSome (assign u
        (.pkgRollbackVersions (getPkgRollbackVersionsFromJson jsonObj none).2)))
      fun _ => On u n name m (Early name (Asked name jsonObj)) :=
    doIf_triple (fun _ => pkg_triple rfl fun _ hc => hc) (stable_on hasked) fun _ _ _ hw => hw
  refine .bind hversions fun _ => readIntl_triple hasked fun backupDir => ?_
  refine .bind (op_triple (ψ := fun _ => Early name (Asked name jsonObj))
    ⟨by simp [Op.on], by simp [Op.kind, Assign.kind]⟩ hasked (fun _ => hasked)
    fun b v _ hv => ⟨fun h => hv.1 (h.resolve_right id), hv.2⟩) fun _ => ?_
  refine readComp_triple (ρ := fun pkg v => versionToUpdate pkg = askedVersion jsonObj ∧
    Early name (·.name = some name) v) hasked
    (fun v hv => ⟨hv.2.2.2.2, hv.1, hv.2.1, hv.2.2.1, hv.2.2.2.1⟩) fun pkg =>
    of_const fun hver => ?_
  rw [hver]
  refine .bind (prepareFromSource_triple hm jsonObj _) fun state => ?_
  refine .bind (.ite (fun hstate => ?_) fun hstate => prepareUndone_triple hstate st) fun _ => ?_
  · rw [hstate]
    exact prepareDone_triple
  exact .bind (final_assign (Or.inl rfl)) fun _ => final_assign (Or.inr rfl)

/-- If the package was in the stage PREPARE_UPDATE_DONE, no confirm-update can begin. -/
def Staged (name : String) (jsonObj : Json) (st : UaStage) (v : View) : Prop :=
  (st = .prepareUpdateDone → v.stage name = .prepareUpdateDone ∧ ¬v.begun) ∧
    Early name (Named name jsonObj) v

theorem settled_staged (jsonObj : Json) (st : UaStage) :
    Settled name (Staged name jsonObj st) := by
  intro v v' ⟨hdone, hearly⟩ hrely
  refine ⟨fun hst => ?_, settled_early _ v v' hearly hrely⟩
  obtain ⟨hstage, hnot⟩ := hdone hst
  obtain ⟨hstage', hbegun⟩ := hrely.done hstage
  exact ⟨hstage', fun h => hnot (hbegun h)⟩

/-- A package that was prepared before is reported as such. -/
theorem prepareFastPath_triple (jsonObj : Json) :
    (outline cfg u n name m cache version).Triple (.worker u n)
      (On u n name m (Staged name jsonObj .prepareUpdateDone)) (prepareFastPath u)
      fun _ => On u n name m (Final name version) := by
  have hstaged : Settled name (Staged name jsonObj .prepareUpdateDone) := settled_staged _ _
  have hmarked : Settled name fun v : View => v.marked ∧ v.entry = .asBefore ∧ ¬v.begun ∧
      v.stage name = .prepareUpdateDone := by
    intro v v' ⟨hmarked, hentry, hnot, hstage⟩ hrely
    obtain ⟨hstage', hbegun⟩ := hrely.done hstage
    have hnot' : ¬v'.begun := fun h => hnot (hbegun h)
    exact ⟨hrely.marked hmarked, (hrely.entry hnot').trans hentry, hnot', hstage'⟩
  refine readComp_triple (ρ := fun b v => b = some name ∧ Staged name jsonObj .prepareUpdateDone v)
    hstaged (fun v hv => ⟨hv.2.2.2.2.1, hv⟩) fun pkgName => of_const fun hname => ?_
  rw [hname]
  refine readComp_triple (ρ := fun _ => Staged name jsonObj .prepareUpdateDone) hstaged
    (fun _ hv => hv) fun ver => ?_
  refine .bind (op_triple (ψ := fun _ v => v.marked ∧ v.entry = .asBefore ∧ ¬v.begun ∧
    v.stage name = .prepareUpdateDone) ⟨by simp [Op.on], by simp [Op.kind, Mark.kind]⟩ hstaged
    (fun _ => hmarked) fun b v _ hv => ?_) fun _ => ?_
  · obtain ⟨hstage, hnot⟩ := hv.1 rfl
    exact ⟨Or.inr ⟨rfl, rfl⟩, hv.2.2.2.1 hnot, hnot, hstage⟩
  · have hall : (sendInstallStatus u .ready none .none).All (Loud u) :=
      (sendInstallStatus_all _ _ _).mono fun _ ho => ho.1
    refine .post (ignoring_triple (.post (loud_triple hall hmarked fun _ _ hv => hv)
      fun _ w _ hw => hw.1) (stable_on hmarked)) fun _ w _ hw _ => ?_
    exact ⟨hw.2.2.2, Or.inr ⟨hw.1, hw.2.1, hw.2.2.1⟩⟩

theorem prepareInStage_triple (hm : join cache [some name, some manifestPkg] = some m)
    (jsonObj : Json) (st : UaStage) :
    (outline cfg u n name m cache (askedVersion jsonObj)).Triple (.worker u n)
      (On u n name m (Staged name jsonObj st)) (prepareInStage u jsonObj st)
      fun _ => On u n name m (Final name (askedVersion jsonObj)) := by
  have hstaged : Settled name (Staged name jsonObj st) := settled_staged _ _
  have hcampaign : (doIf (getCampaignIdFromJson jsonObj).isSome
      (assignIntl (.curCampaignId (getCampaignIdFromJson jsonObj)))).All (Quiet u) := by
    simp [Quiet, Loud, Within, Op.on, Op.kind, AssignIntl.kind, Reports]
  refine .bind (quiet_triple hcampaign hstaged) fun _ => of_returns fun _ => ?_
  refine readComp_triple (ρ := fun _ => Staged name jsonObj st) hstaged (fun _ hv => hv)
    fun pkgName => ?_
  refine readComp_triple (ρ := fun _ => Staged name jsonObj st) hstaged (fun _ hv => hv)
    fun ver => ?_
  refine .bind (quiet_triple (p := mark _) ?_ hstaged) fun _ => of_returns fun _ => ?_
  · rw [all_mark]
    simp [Quiet, Loud, Within, Op.on, Op.kind, Mark.kind, Reports]
  refine .bind (quiet_triple (isMarkedPrepared_quiet st) hstaged) fun prepared =>
    of_returns fun hprepared => ?_
  cases prepared with
  | true =>
    rw [isMarkedPrepared_stage hprepared]
    exact prepareFastPath_triple jsonObj
  | false =>
    exact .pre (prepareUpdate_triple hm jsonObj st) fun w _ hw => hw.2

theorem parsePrepareUpdate_triple {jsonObj : Json}
    (hname : getPkgNameFromJson jsonObj none = (eUaOk, some name)) :
    (outline cfg u n name m cache version).Triple (.worker u n)
      (On u n name m (Early name fun _ => True)) (parsePrepareUpdate u jsonObj)
      fun parsed => On u n name m
        (Early name fun pkg => parsed = true → Named name jsonObj pkg) := by
  refine .bind (pkg_triple (r := fun _ => True) rfl fun _ _ => trivial) fun _ => ?_
  refine .bind (pkg_triple (r := fun _ => True) rfl fun _ _ => trivial) fun _ =>
    .ite (fun _ => ?_) fun _ => ?_
  · unfold parsePrepareName
    rw [hname]
    refine .bind (pkg_triple (r := (·.name = some name)) rfl fun _ _ => rfl) fun _ => ?_
    refine .bind (pkg_triple (r := Named name jsonObj) rfl fun _ hc => ⟨hc, rfl⟩) fun _ => ?_
    exact .pure (stable_on (settled_early _)) fun w _ hw => ⟨hw.1, hw.2.1, hw.2.2.1,
      fun _ => hw.2.2.2⟩
  · exact .pure (stable_on (settled_early _)) fun w _ hw => ⟨hw.1, hw.2.1, hw.2.2.1, by simp⟩

theorem processPrepareUpdate_triple (hm : join cache [some name, some manifestPkg] = some m)
    {jsonObj : Json} (hname : getPkgNameFromJson jsonObj none = (eUaOk, some name)) :
    (outline cfg u n name m cache (askedVersion jsonObj)).Triple (.worker u n)
      (On u n name m (Early name fun _ => True)) (processPrepareUpdate u jsonObj)
      fun _ => On u n name m (Final name (askedVersion jsonObj)) := by
  refine .bind (parsePrepareUpdate_triple hname) fun parsed => ?_
  refine doIf_triple (fun hparsed => ?_) (stable_on (settled_early _)) fun _ w _ hw h =>
    absurd h hw.1
  refine readComp_triple (ρ := fun st => Staged name jsonObj st) (settled_early _)
    (fun v hv => ?_) fun st => ?_
  · have hnamed := hv.2.2.2 hparsed
    rw [hnamed.1]
    exact ⟨fun hdone => ⟨hdone, fun hb => hv.2.1 hb hdone⟩, hv.1, hv.2.1, hv.2.2.1, hnamed⟩
  · exact doIf_triple (fun _ => prepareInStage_triple hm jsonObj st)
      (stable_on (settled_staged jsonObj st)) fun _ w _ hw h => absurd h hw.2.1

end Worker

/-! The confirm-update. -/

section Confirm

attribute [local simp] Confirms Within Op.kind Op.on ExtOp.kind Assign.kind AssignIntl.kind

theorem confirmCleanup_all (info : ConfirmInfo) (cacheDir backupDir : Option String) :
    (confirmCleanup u info cacheDir backupDir).All (Confirms u name) := by
  unfold confirmCleanup
  split
  · simp [cleanupBackups, readRbType]
  · simp

end Confirm

theorem stable_begun : (outline cfg u n name m cache version).Stable (.runner u)
    fun w => Has (.runner u) (SetsStage u name) w.trace :=
  fun _ _ _ h hrely _ => hrely.2 h

theorem confirm_grants {o : Op} {b : o.Ans} {w w' : World} (ho : Confirms u name o)
    (hbegun : ∀ path, o = .remove path → Has (.runner u) (SetsStage u name) w.trace)
    (hinv : (outline cfg u n name m cache version).inv w)
    (hact : (race cfg (Harmless u name m)).act (.runner u) o b w w') :
    (outline cfg u n name m cache version).Grants (.runner u) o b w w' :=
  grants hinv hact fun _ => confirms_rely ho hbegun hact

/-- Once it has set the stage, the confirm-update may remove the manifest. -/
theorem confirm_rest {α : Type} {p : UaProg α} (hp : p.All (Confirms u name)) :
    (outline cfg u n name m cache version).Triple (.runner u)
      (fun w => Has (.runner u) (SetsStage u name) w.trace) p fun _ _ => True := by
  refine .post (.frame (G := Confirms u name) stable_begun (fun o b w w' ho hinv hw hact => ?_) hp)
    fun _ _ _ _ => trivial
  refine ⟨confirm_grants ho (fun _ _ => hw) hinv hact, ?_⟩
  rw [hact.1.2, has_cons]
  exact Or.inr hw

theorem stable_true : (outline cfg u n name m cache version).Stable (.runner u) fun _ => True :=
  fun _ _ _ _ _ _ => trivial

theorem processConfirmUpdate_triple {jsonObj : Json}
    (hname : getPkgNameFromJson jsonObj none = (eUaOk, some name)) :
    (outline cfg u n name m cache version).Triple (.runner u) (fun _ => True)
      (processConfirmUpdate u jsonObj) fun _ _ => True := by
  have hinfo : (ConfirmInfo.ofJson jsonObj).name.2 = some name := congrArg Prod.snd hname
  refine .read_bind (R := fun _ _ => True) stable_true (fun _ _ _ => trivial) fun st => ?_
  refine doIf_triple (fun _ => .ite (fun _ => ?_) fun _ => ?_) stable_true fun _ _ _ _ => trivial
  · unfold confirmUpdate
    rw [hinfo]
    refine .perform_bind (R := fun _ w => Has (.runner u) (SetsStage u name) w.trace) stable_true
      (fun w b w' hinv _ hact => ?_) fun _ => confirm_rest ?_
    · refine ⟨confirm_grants ?_ (by simp) hinv hact, ?_⟩
      · simp [Confirms, Within, Op.on, Op.kind, Assign.kind]
      · rw [hact.1.2, has_cons]
        exact Or.inl ⟨rfl, rfl, rfl⟩
    · simp [confirmCleanup_all, confirmDeltaCleanup, removeIfFound, Confirms, Within, Op.on,
        Op.kind, Assign.kind, ExtOp.kind]
  · refine doIf_triple (fun _ => .perform stable_true (fun _ => stable_true)
      fun w b w' hinv _ hact => ⟨confirm_grants ?_ (by simp) hinv hact, trivial⟩)
      stable_true fun _ _ _ _ => trivial
    simp [Confirms, Within, Op.on, Op.kind, Assign.kind]

theorem outline_sound : (outline cfg u n name m cache version).Sound where
  init := fun _ h => h.elim
  restart := fun _ _ _ h => h.elim
  stable := by
    intro t w w' _ hpost hrely _ ht
    exact settled_final version _ _ (hpost ht) (hrely.1 ht)
  arrive := fun _ _ _ _ _ _ h => h.elim
  body := fun _ _ _ _ h => h.elim

/-- In the runs that meet the condition, a package that was reported ready stays prepared. -/
theorem kept_of_harmless {confirm prepare : Json} {s : Shared} {c : AgentConfiguration}
    (hconfirm : getPkgNameFromJson confirm none = (eUaOk, some name))
    (hprepare : getPkgNameFromJson prepare none = (eUaOk, some name))
    (hmanifest : join s.intl.cacheDir [some name, some manifestPkg] = some m)
    (hrun : Relation.ReflTransGen (race cfg (Harmless u name m)).Step
      (bothBegin u n confirm prepare s) c)
    (hended : c.Idle (.worker u n)) (hready : Has (.worker u n) Reports c.st.trace) :
    Kept u n name m prepare c.st := by
  let O := outline cfg u n name m s.intl.cacheDir (askedVersion prepare)
  have hbegin : O.Holds (bothBegin u n confirm prepare s) := by
    refine ⟨rfl, fun t => ?_⟩
    by_cases hworker : t = .worker u n
    · subst hworker
      simp only [bothBegin, Function.update_self]
      refine Outline.wp_mono (fun _ w _ hw _ => hw)
        (processPrepareUpdate_triple hmanifest hprepare _ rfl ⟨?_, ?_, fun _ => rfl, trivial⟩)
      · intro ⟨o, b, hmem, _⟩
        cases hmem
      · intro ⟨o, b, hmem, _⟩
        cases hmem
    · by_cases hrunner : t = .runner u
      · subst hrunner
        simp only [bothBegin, Function.update_of_ne hworker, Function.update_self]
        exact Outline.wp_mono (fun _ w _ _ ht => absurd ht hworker)
          (processConfirmUpdate_triple hconfirm _ rfl trivial)
      · simp only [bothBegin, Function.update_of_ne hworker, Function.update_of_ne hrunner]
        exact fun _ _ _ ht => absurd ht hworker
  have hholds : O.Holds c := by
    clear hended hready
    induction hrun with
    | refl => exact hbegin
    | tail _ hstep ih => exact outline_sound.step ih hstep
  have hpost := hholds.2 (.worker u n)
  rw [hended] at hpost
  obtain ⟨hstage, hentry⟩ := hpost c.st .refl hholds.1 rfl hready
  refine ⟨hstage, hentry.imp id fun h => ⟨h.1, h.2.1⟩⟩

/-! A confirm-update that ends before the entry is written, and one that is late. -/

def prepareTwo : Json := packageMessage bmtPrepareUpdate [] "pkg" "2" (downloadedFile "2")

def confirmOne : Json := packageMessage bmtConfirmUpdate [] "pkg" "1" []

/-- The agent has been restarted, so that the package is in no stage. -/
def restarted : Shared := (sampleConfig false 1).started .empty .empty

/-- The configuration after the steps of the two handlers in an order. -/
def raced (C : Tid → Event → World → Prop) [∀ t e w, Decidable (C t e w)]
    (order : List (Tid × Nat)) : AgentConfiguration :=
  let P : Player (race (sampleConfig false 1) C) :=
    ⟨(player (sampleConfig false 1) C (usualOracle "1")).answer,
      (player (sampleConfig false 1) C (usualOracle "1")).sound⟩
  P.play (order.map fun x => .steps x.1 x.2) (bothBegin 0 0 confirmOne prepareTwo restarted)

theorem raced_run (C : Tid → Event → World → Prop) [∀ t e w, Decidable (C t e w)]
    (order : List (Tid × Nat)) : Relation.ReflTransGen (race (sampleConfig false 1) C).Step
      (bothBegin 0 0 confirmOne prepareTwo restarted) (raced C order) :=
  Player.play_run _ _ _

def isReport : Event → Bool
  | .did (.worker 0 0) (.ext (.uaSendMessage (.updateStatus m))) _ => m.status = .ready
  | _ => false

theorem has_of_any {h : List Event} (hany : h.any isReport = true) :
    Has (.worker 0 0) Reports h := by
  obtain ⟨e, hmem, he⟩ := List.any_eq_true.mp hany
  unfold isReport at he
  split at he
  · exact ⟨_, _, hmem, by simpa [Reports] using he⟩
  · cases he

/-- The confirm-update begins first and ends while the preparation is going on. -/
def inTime : List (Tid × Nat) :=
  [(.runner 0, 3), (.worker 0 0, 12), (.runner 0, 40), (.worker 0 0, 80)]

def inTimeEnd : AgentConfiguration := raced (Harmless 0 "pkg" "/cache/pkg/manifest_pkg.xml") inTime

theorem kept_of_harmless_example :
    Kept 0 0 "pkg" "/cache/pkg/manifest_pkg.xml" prepareTwo inTimeEnd.st := by
  have hreport : inTimeEnd.st.trace.any isReport = true := by decide +kernel
  have hidle : isIdle (inTimeEnd.pool (.worker 0 0)) = true := by decide +kernel
  exact kept_of_harmless (by decide +kernel) (by decide +kernel) (by decide +kernel)
    (raced_run _ inTime) (idle_of_isIdle hidle) (has_of_any hreport)

/-- The confirm-update looks at the stage, and then the whole preparation takes place. -/
def late : List (Tid × Nat) := [(.runner 0, 1), (.worker 0 0, 80), (.runner 0, 40)]

def lateEnd : AgentConfiguration := raced Anything late

/-- A late confirm-update destroys a preparation that was reported ready. -/
theorem late_confirm_destroys :
    ¬∀ (cfg : AgentConfig) (u : UaccPtr) (n : Nat) (name m : String) (confirm prepare : Json)
      (s : Shared) (c : AgentConfiguration),
      getPkgNameFromJson confirm none = (eUaOk, some name) →
      getPkgNameFromJson prepare none = (eUaOk, some name) →
      join s.intl.cacheDir [some name, some manifestPkg] = some m →
      Relation.ReflTransGen (race cfg Anything).Step (bothBegin u n confirm prepare s) c →
      c.Idle (.runner u) → c.Idle (.worker u n) → Has (.worker u n) Reports c.st.trace →
      Kept u n name m prepare c.st := by
  intro hall
  have hreport : lateEnd.st.trace.any isReport = true := by decide +kernel
  have hrunner : isIdle (lateEnd.pool (.runner 0)) = true := by decide +kernel
  have hworker : isIdle (lateEnd.pool (.worker 0 0)) = true := by decide +kernel
  have hkept := hall (sampleConfig false 1) 0 0 "pkg" "/cache/pkg/manifest_pkg.xml" confirmOne
    prepareTwo restarted lateEnd (by decide +kernel) (by decide +kernel) (by decide +kernel)
    (raced_run _ late) (idle_of_isIdle hrunner) (idle_of_isIdle hworker) (has_of_any hreport)
  have hstage : stageOf lateEnd.st.shared 0 "pkg" = .confirmUpdateDone := by decide +kernel
  have hdone := hkept.stage
  rw [hstage] at hdone
  cases hdone

end EsyncUa.LateConfirms
