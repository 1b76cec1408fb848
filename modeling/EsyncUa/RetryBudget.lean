import EsyncUa.Passages
import EsyncUa.Rehearsals
import EsyncUa.Rules

/-!
The installations of a package that fail. The component counts them, and up to the limit it
answers them with the plain failure, then with a rollback or a terminal failure. The counter
belongs to the component, so the messages for its other packages count on it too. If the
counter is 0 when the package fails first, and none of them touches it from there on, then
the failures of the package have their whole budget.
-/
namespace EsyncUa.RetryBudget

open EsyncUa.JsonProperties EsyncUa.Components EsyncUa.Programs EsyncUa.Operations
open EsyncUa.Installation EsyncUa.Updater EsyncUa.Messages EsyncUa.Machines EsyncUa.Agents
open EsyncUa.Schedules EsyncUa.SoleRuns EsyncUa.Footprints EsyncUa.Frames EsyncUa.Outlines
open EsyncUa.Rules EsyncUa.Rehearsals EsyncUa.Passages

/-! The handling of a message, up to the end of the installation and from there on. -/

/-- What a ready-update has come to. -/
inductive Installed
  | not | rolledBack (updateSts : InstallState) | first (updateSts : InstallState)
  deriving DecidableEq

def installRequested (u : UaccPtr) : UaProg Installed := do
  let rebootSupport ← readIntl (·.rebootSupport)
  match ← readComp u (·.updatePkg.rollbackVersion) with
  | some rollbackVersion => do
      let updateSts ← updateStartRollbackOperations u rollbackVersion rebootSupport
      pure (.rolledBack updateSts)
  | none => do
      let retryCnt ← readComp u (·.retryCnt)
      assign u (.retryCnt (retryCnt + 1))
      let updateSts ← updateStartInstallOperations u rebootSupport
      pure (.first updateSts)

def installParsed (u : UaccPtr) (jsonObj : Json) (err : Rc) : UaProg Installed := do
  let name ← readComp u (·.updatePkg.name)
  if err = eUaOk then
    mark (.readyUpdateParsed u name jsonObj)
    let name ← readComp u (·.updatePkg.name)
    assign u (.updateStage name .readyUpdateStarted)
    let cid ← readIntl (·.curCampaignId)
    assign u (.preparedVersion name none cid)
    chooseRbType u
    installRequested u
  else
    readyUpdateFailed u
    pure .not

/-- A ready-update up to the end of its installation. -/
def tillInstall (u : UaccPtr) (jsonObj : Json) : UaProg Installed := do
  let dmcHandlerDone ← readIntl (·.dmcHandlerDone)
  if dmcHandlerDone then
    assign u (.curMsg (some jsonObj))
    let cacheDir ← readIntl (·.cacheDir)
    let backupDir ← readIntl (·.backupDir)
    let err ← updateParseJsonReadyUpdate u jsonObj cacheDir backupDir
    installParsed u jsonObj err
  else
    mark (.readyUpdateDropped u jsonObj)
    pure .not

/-- What follows the report of the installation. -/
def afterReport (u : UaccPtr) (jsonObj : Json) (updateSts : InstallState) : UaProg Unit := do
  readyUpdateBackup u updateSts
  let name ← readComp u (·.updatePkg.name)
  assignIntl (.customMessage name none)
  assign u (.updateStage name .readyUpdateDone)
  let cleanupOk ← op (.testCleanupOk u)
  doIf cleanupOk (deferredConfirm u jsonObj)
  readyUpdateRelease u

/-- A ready-update from the end of its installation on. -/
def fromInstall (u : UaccPtr) (jsonObj : Json) : Installed → UaProg Unit
  | .not => pure ()
  | .rolledBack updateSts => afterReport u jsonObj updateSts
  | .first updateSts => do
      let updateSts ← afterInstall u updateSts
      afterReport u jsonObj updateSts

theorem ite_bind {α β : Type} {c : Prop} [Decidable c] (p q : UaProg α) (f : α → UaProg β) :
    (if c then p else q) >>= f = if c then p >>= f else q >>= f := by
  by_cases hc : c
  · rw [if_pos hc, if_pos hc]
  · rw [if_neg hc, if_neg hc]

theorem installRequested_bind (u : UaccPtr) (jsonObj : Json) :
    installRequested u >>= fromInstall u jsonObj =
      readyUpdateInstall u >>= afterReport u jsonObj := by
  simp only [installRequested, readyUpdateInstall, bind_assoc]
  refine congrArg _ (funext fun rebootSupport => congrArg _ (funext fun rollbackVersion => ?_))
  cases rollbackVersion with
  | some version => simp only [bind_assoc, pure_bind, fromInstall]
  | none => simp only [firstInstall, bind_assoc, pure_bind, fromInstall]

/-- The two parts are the handling of the message. -/
theorem processReadyUpdate_eq (u : UaccPtr) (jsonObj : Json) :
    processReadyUpdate u jsonObj = tillInstall u jsonObj >>= fromInstall u jsonObj := by
  have hready : readyUpdate u jsonObj = (do
      let name ← readComp u (·.updatePkg.name)
      assign u (.updateStage name .readyUpdateStarted)
      let cid ← readIntl (·.curCampaignId)
      assign u (.preparedVersion name none cid)
      chooseRbType u
      installRequested u >>= fromInstall u jsonObj) := by
    simp only [installRequested_bind, readyUpdate]
    rfl
  have hparsed : ∀ err, readyUpdateParsed u jsonObj err =
      installParsed u jsonObj err >>= fromInstall u jsonObj := by
    intro err
    simp only [readyUpdateParsed, installParsed, bind_assoc, ite_bind, hready, pure_bind]
    refine congrArg _ (funext fun name => ?_)
    split
    · rfl
    · exact (bind_pure _).symm
  simp only [processReadyUpdate, tillInstall, bind_assoc, ite_bind, hparsed, pure_bind]
  refine congrArg _ (funext fun dmcHandlerDone => ?_)
  split
  · rfl
  · exact (bind_pure _).symm

/-! What a handled message does to the component. -/

/-- What the handling of a message depends on in its component. -/
structure Fields where
  package : Option String
  counter : Int32
  limit : Int32
  versions : Bool
  error : UpdateErr

def fields (c : UaComponentContext) : Fields :=
  ⟨c.updatePkg.name, c.retryCnt, c.maxRetry, c.updatePkg.rollbackVersions.isSome, c.updateError⟩

def isBy (t : Tid) : Event → Bool
  | .did t' _ _ => t' = t
  | _ => false

/-- What the thread itself has done. -/
def own (t : Tid) (h : List Event) : List Event := h.filter (isBy t)

/-- What the thread has done between two states. -/
def since (t : Tid) (w w' : World) : List Event :=
  (own t w'.trace).take ((own t w'.trace).length - (own t w.trace).length)

/-- The thread `t` handles the message; meanwhile the other threads leave alone what it
depends on in the component. -/
def handling (cfg : AgentConfig) (u : UaccPtr) (t : Tid) : Outline (runsWhere cfg Anything) where
  inv := fun _ => True
  rely := fun t' w w' => t' = t → fields (w'.shared.comp u) = fields (w.shared.comp u) ∧
    own t w'.trace = own t w.trace
  guar := fun _ _ _ => True
  start := fun _ _ _ => True
  post := fun _ _ => True

/-- The report of a failure with neither a rollback nor a terminal failure. -/
def isPlainFailure : Event → Bool
  | .did _ (.ext (.uaSendMessage (.updateStatus m))) _ =>
      m.status = .failed && m.rollbackVersion.isNone && m.rollbackVersions.isNone &&
        !m.terminalFailure
  | _ => false

/-- A rollback version is chosen for the component, or a terminal failure is reported. -/
def escalates (u : UaccPtr) : Event → Bool
  | .did _ (.assign u' (.pkgRollbackVersion version)) _ => u' = u && version.isSome
  | .did _ (.ext (.uaSendMessage (.updateStatus m))) _ => m.terminalFailure
  | _ => false

/-- The counter of the component is set. -/
def setsCounter (u : UaccPtr) : Event → Bool
  | .did _ (.assign u' (.retryCnt _)) _ => u' = u
  | _ => false

/-- A confirm-update that came during the installation is to be made up for. -/
def confirms (u : UaccPtr) : Event → Bool
  | .did _ (.testCleanupOk u') b => u' = u && b
  | _ => false

/-- The package has been prepared for installation. -/
def prepares (u : UaccPtr) (name : String) : Event → Bool
  | .did _ (.mark (.prepareInstallReturned u' name' _ state)) _ =>
      u' = u && name' = some name && state = .ready
  | _ => false

/-- The failure is answered plainly. -/
def Plain (u : UaccPtr) (tr : List Event) : Prop :=
  tr.any isPlainFailure = true ∧ tr.any (escalates u) = false

/-- The failure starts the rollback or is terminal. -/
def Escalated (u : UaccPtr) (tr : List Event) : Prop := tr.any (escalates u) = true

/-- A message that the component handles. -/
inductive Message
  | prepareUpdate (jsonObj : Json)
  | readyUpdate (jsonObj : Json)
  | confirmUpdate (jsonObj : Json)

def Message.json : Message → Json
  | prepareUpdate jsonObj | readyUpdate jsonObj | confirmUpdate jsonObj => jsonObj

def Message.program (u : UaccPtr) : Message → UaProg Unit
  | prepareUpdate jsonObj => processPrepareUpdate u jsonObj
  | readyUpdate jsonObj => processReadyUpdate u jsonObj
  | confirmUpdate jsonObj => processConfirmUpdate u jsonObj

def Message.isPrepare : Message → Bool
  | prepareUpdate _ => true
  | _ => false

/-- The name of the package that a message is about. -/
def Message.package (msg : Message) : Option String := (getPkgNameFromJson msg.json none).2

/-- The thread handles the message. -/
def Handled (cfg : AgentConfig) (u : UaccPtr) (t : Tid) (msg : Message) (w w' : World) : Prop :=
  Passes (handling cfg u t) t (msg.program u) w () w'

/-- A ready-update for the package without rollback version but with rollback versions. -/
structure Retriable (name : String) (jsonObj : Json) : Prop where
  name : (getPkgNameFromJson jsonObj none).2 = some name
  version : (getPkgRollbackVersionFromJson jsonObj none).2 = none
  versions : (getPkgRollbackVersionsFromJson jsonObj none).2.isSome

/-- The ready-update is handled, and its installation fails in the state `w₁`. -/
structure Fails (cfg : AgentConfig) (u : UaccPtr) (t : Tid) (jsonObj : Json) (w w₁ w' : World) :
    Prop where
  install : Passes (handling cfg u t) t (tillInstall u jsonObj) w (.first .failed) w₁
  rest : Passes (handling cfg u t) t (fromInstall u jsonObj (.first .failed)) w₁ () w'

theorem Fails.handled {cfg : AgentConfig} {u : UaccPtr} {t : Tid} {jsonObj : Json}
    {w w₁ w' : World} (h : Fails cfg u t jsonObj w w₁ w') :
    Handled cfg u t (.readyUpdate jsonObj) w w' := by
  rw [Handled, Message.program, processReadyUpdate_eq]
  exact passes_bind h.install h.rest

/-- The run of a component from the state `w₀`. In it the installations of the package fail;
`answers` is what followed each of them, the newest first. The other messages meet the
condition `C`. Nothing is said of what the counter is in `w₀`. -/
inductive Run (cfg : AgentConfig) (u : UaccPtr) (name : String)
    (C : Message → List Event → Prop) (w₀ : World) : World → List (List Event) → Prop
  | start : Run cfg u name C w₀ w₀ []
  | failure (w w₁ w' answers t jsonObj) (hrun : Run cfg u name C w₀ w answers)
      (hmsg : Retriable name jsonObj) (hfails : Fails cfg u t jsonObj w w₁ w')
      (hconfirm : (since t w₁ w').any (confirms u) = false) :
      Run cfg u name C w₀ w' (since t w₁ w' :: answers)
  | other (w w' answers t msg) (hrun : Run cfg u name C w₀ w answers)
      (hhandled : Handled cfg u t msg w w') (hC : C msg (since t w w')) :
      Run cfg u name C w₀ w' answers

/-- What may come in between: messages for other packages, and prepare-updates for the package
that do not succeed. -/
def Between (u : UaccPtr) (name : String) (msg : Message) (tr : List Event) : Prop :=
  msg.package ≠ some name ∨ msg.isPrepare = true ∧ tr.any (prepares u name) = false

/-- A message for another package that leaves the counter alone. -/
def Untouched (u : UaccPtr) (name : String) (msg : Message) (tr : List Event) : Prop :=
  Between u name msg tr ∧ (msg.package ≠ some name → tr.any (setsCounter u) = false)

/-- The first failures of the package, as many as the limit says, are answered plainly, and the
next ones are not. -/
def WithinBudget (u : UaccPtr) (w : World) (answers : List (List Event)) : Prop :=
  ∀ newer tr older, answers = newer ++ tr :: older →
    if (older.length : Int) < (w.shared.comp u).maxRetry.toInt then Plain u tr
    else Escalated u tr

/-! What one operation does to the fields, and rules for parts of the handling. -/

def Fields.assign (f : Fields) : Assign → Fields
  | .retryCnt value => { f with counter := value }
  | .updatePkg pkg => { f with package := pkg.name, versions := pkg.rollbackVersions.isSome }
  | .pkgName name => { f with package := name }
  | .pkgRollbackVersions versions => { f with versions := versions.isSome }
  | .updateError ue => { f with error := ue }
  | _ => f

def Fields.after (f : Fields) : Op → Fields
  | .assign _ x => f.assign x
  | _ => f

theorem fields_apply (x : Assign) (c : UaComponentContext) :
    fields (Assign.apply x c) = (fields c).assign x := by
  cases x <;> rfl

/-- An operation that changes the component by nothing but an assignment. -/
def Fits (u : UaccPtr) (o : Op) : Prop :=
  (∀ u', Op.on o = some u' → u' = u) ∧ Op.kind o ≠ .setContext

variable {cfg : AgentConfig} {u : UaccPtr} {t : Tid} {α β : Type}

theorem fits_of_within {K : List Kind} {o : Op} (h : Within u K o) (hks : .setContext ∉ K) :
    Fits u o := by
  refine ⟨h.1, fun hkind => hks ?_⟩
  rw [← hkind]
  exact h.2

theorem fits_assign (x : Assign) : Fits u (.assign u x) := by
  refine ⟨fun _ hon => (Option.some.inj hon).symm, ?_⟩
  cases x <;> simp [Op.kind, Assign.kind]

theorem effect_fields {s s' : Shared} {o : Op} {b : o.Ans} (h : effect cfg t s o b = some s')
    (ho : Fits u o) : fields (s'.comp u) = (fields (s.comp u)).after o := by
  by_cases hassign : ∃ u' x, o = .assign u' x
  · obtain ⟨u', x, rfl⟩ := hassign
    obtain rfl := ho.1 u' rfl
    cases h
    rw [setComp_self]
    exact fields_apply x _
  · have hafter : (fields (s.comp u)).after o = fields (s.comp u) := by
      cases o with
      | assign u' x => exact absurd ⟨u', x, rfl⟩ hassign
      | _ => rfl
    rw [hafter]
    have hchange := effect_comp h u
    generalize s'.comp u = c at hchange
    cases hchange with
    | assign x => exact absurd ⟨u, x, rfl⟩ hassign
    | setContext cc => exact absurd rfl ho.2
    | _ => rfl

/-- The thread's own events since the history `H` and the fields satisfy `ψ`. -/
def On (u : UaccPtr) (t : Tid) (H : List Event) (ψ : Fields → List Event → Prop) (w : World) :
    Prop :=
  ∃ tr, own t w.trace = tr ++ H ∧ ψ (fields (w.shared.comp u)) tr

variable {H : List Event} {ψ : Fields → List Event → Prop}

theorem stable_on : (handling cfg u t).Stable t (On u t H ψ) := by
  intro w w' _ hw hrely _
  obtain ⟨tr, htrace, hψ⟩ := hw
  obtain ⟨hfields, hown⟩ := hrely rfl
  rw [← hfields] at hψ
  exact ⟨tr, hown.trans htrace, hψ⟩

theorem on_mono {χ : Fields → List Event → Prop} {w : World} (h : ∀ f tr, ψ f tr → χ f tr)
    (hw : On u t H ψ w) : On u t H χ w := by
  obtain ⟨tr, htrace, hψ⟩ := hw
  exact ⟨tr, htrace, h _ tr hψ⟩

theorem grants {o : Op} {b : o.Ans} {w w' : World} :
    (handling cfg u t).Grants t o b w w' where
  inv := trivial
  guar := trivial
  rely := fun _ hne _ h => absurd h hne
  fork := fun _ _ _ _ _ => trivial

theorem on_step {χ : Fields → List Event → Prop} {o : Op} {b : o.Ans} {w w' : World}
    (ho : Fits u o) (hw : On u t H ψ w)
    (hact : (runsWhere cfg Anything).act t o b w w')
    (h : ∀ f tr, ψ f tr → χ (f.after o) (.did t o b :: tr)) : On u t H χ w' := by
  obtain ⟨tr, htrace, hψ⟩ := hw
  obtain ⟨⟨heffect, htrace'⟩, -⟩ := hact
  refine ⟨.did t o b :: tr, ?_, ?_⟩
  · rw [htrace', own, List.filter_cons_of_pos (by simp [isBy]), ← own, htrace]
    rfl
  · rw [effect_fields heffect ho]
    exact h _ _ hψ

theorem op_triple {o : Op} {χ : o.Ans → Fields → List Event → Prop} (ho : Fits u o)
    (h : ∀ b f tr, ψ f tr → χ b (f.after o) (.did t o b :: tr)) :
    (handling cfg u t).Triple t (On u t H ψ) (op o) fun b => On u t H (χ b) :=
  .perform stable_on (fun _ => stable_on) fun _ b _ _ hw hact =>
    ⟨grants, on_step ho hw hact (h b)⟩

/-- A part whose operations keep a fact. -/
theorem part_triple {p : UaProg α} {G : Op → Prop} (hp : p.All G) (hG : ∀ o, G o → Fits u o)
    (h : ∀ o b f tr, G o → ψ f tr → ψ (f.after o) (.did t o b :: tr)) :
    (handling cfg u t).Triple t (On u t H ψ) p fun _ => On u t H ψ :=
  .post (.frame stable_on (fun o b _ _ ho _ hw hact =>
    ⟨grants, on_step (hG o ho) hw hact fun f tr => h o b f tr ho⟩) hp) fun _ _ _ hw => hw.1

theorem readComp_triple {f : UaComponentContext → β} {k : β → UaProg α}
    {χ : β → Fields → List Event → Prop} {Q : α → World → Prop}
    (hχ : ∀ c tr, ψ (fields c) tr → χ (f c) (fields c) tr)
    (hk : ∀ b, (handling cfg u t).Triple t (On u t H (χ b)) (k b) Q) :
    (handling cfg u t).Triple t (On u t H ψ) (readComp u f >>= k) Q :=
  .read_bind stable_on (fun w _ hw => by
    obtain ⟨tr, htrace, hψ⟩ := hw
    exact ⟨tr, htrace, hχ (w.shared.comp u) tr hψ⟩) hk

theorem readIntl_triple {f : UaInternal → β} {k : β → UaProg α} {Q : α → World → Prop}
    (hk : ∀ b, (handling cfg u t).Triple t (On u t H ψ) (k b) Q) :
    (handling cfg u t).Triple t (On u t H ψ) (readIntl f >>= k) Q :=
  .read_bind stable_on (fun _ _ hw => hw) hk

theorem on_const {c : Prop} {p : UaProg α} {Q : α → World → Prop}
    (h : c → (handling cfg u t).Triple t (On u t H ψ) p Q) :
    (handling cfg u t).Triple t (On u t H fun f tr => c ∧ ψ f tr) p Q := by
  intro w hinv hw
  obtain ⟨tr, htrace, hc, hψ⟩ := hw
  exact h hc w hinv ⟨tr, htrace, hψ⟩

theorem pure_triple {a : α} {χ : α → Fields → List Event → Prop}
    (h : ∀ f tr, ψ f tr → χ a f tr) :
    (handling cfg u t).Triple t (On u t H ψ) (Prog.pure a) fun a => On u t H (χ a) :=
  .pure stable_on fun _ _ hw => on_mono h hw

theorem pre_triple {ψ' : Fields → List Event → Prop} {p : UaProg α} {Q : α → World → Prop}
    (hp : (handling cfg u t).Triple t (On u t H ψ) p Q) (h : ∀ f tr, ψ' f tr → ψ f tr) :
    (handling cfg u t).Triple t (On u t H ψ') p Q :=
  hp.pre fun _ _ hw => on_mono h hw

theorem post_triple {P : World → Prop} {χ χ' : Fields → List Event → Prop} {p : UaProg α}
    (hp : (handling cfg u t).Triple t P p fun _ => On u t H χ) (h : ∀ f tr, χ f tr → χ' f tr) :
    (handling cfg u t).Triple t P p fun _ => On u t H χ' :=
  hp.post fun _ _ _ hw => on_mono h hw

/-! The fields that an operation leaves alone. -/

theorem after_counter {o : Op} (h : Op.kind o ≠ .retryCnt) (f : Fields) :
    (f.after o).counter = f.counter := by
  cases o with
  | assign u' x =>
    cases x with
    | retryCnt value => exact absurd rfl h
    | _ => rfl
  | _ => rfl

theorem after_limit (o : Op) (f : Fields) : (f.after o).limit = f.limit := by
  cases o with
  | assign u' x => cases x <;> rfl
  | _ => rfl

theorem after_versions {o : Op} (h : Op.kind o ≠ .pkg) (f : Fields) :
    (f.after o).versions = f.versions := by
  cases o with
  | assign u' x =>
    cases x with
    | updatePkg pkg => exact absurd rfl h
    | pkgRollbackVersions versions => exact absurd rfl h
    | _ => rfl
  | _ => rfl

theorem after_package {o : Op} (h : Op.kind o ≠ .pkg) (f : Fields) :
    (f.after o).package = f.package := by
  cases o with
  | assign u' x =>
    cases x with
    | updatePkg pkg => exact absurd rfl h
    | pkgName name => exact absurd rfl h
    | _ => rfl
  | _ => rfl

theorem ne_of_within {K : List Kind} {o : Op} {k : Kind} (h : Within u K o) (hk : k ∉ K) :
    Op.kind o ≠ k := by
  intro heq
  rw [← heq] at hk
  exact hk h.2

/-! The installation counts, and nothing else does. -/

section Parts

attribute [local simp] Within Op.kind Op.on ExtOp.kind Assign.kind AssignIntl.kind Mark.kind
  Mutex.kind

/-- The counter and the limit. -/
def Counts (n m : Int32) (f : Fields) (_ : List Event) : Prop := f.counter = n ∧ f.limit = m

/-- The rollback versions are there too, in the case `c`. -/
def Knows (n m : Int32) (c : Prop) (f : Fields) (_ : List Event) : Prop :=
  f.counter = n ∧ f.limit = m ∧ (c → f.versions = true)

variable {n m : Int32}

theorem counts_part {K : List Kind} {p : UaProg α} (hp : p.All (Within u K))
    (hK : .setContext ∉ K ∧ .retryCnt ∉ K) :
    (handling cfg u t).Triple t (On u t H (Counts n m)) p fun _ => On u t H (Counts n m) :=
  part_triple hp (fun _ ho => fits_of_within ho hK.1) fun _ _ _ _ ho hψ =>
    ⟨(after_counter (ne_of_within ho hK.2) _).trans hψ.1, (after_limit ..).trans hψ.2⟩

theorem knows_part {K : List Kind} {c : Prop} {p : UaProg α} (hp : p.All (Within u K))
    (hK : .setContext ∉ K ∧ .retryCnt ∉ K ∧ .pkg ∉ K) :
    (handling cfg u t).Triple t (On u t H (Knows n m c)) p
      fun _ => On u t H (Knows n m c) :=
  part_triple hp (fun _ ho => fits_of_within ho hK.1) fun _ _ _ _ ho hψ =>
    ⟨(after_counter (ne_of_within ho hK.2.1) _).trans hψ.1, (after_limit ..).trans hψ.2.1,
      fun hc => (after_versions (ne_of_within ho hK.2.2) _).trans (hψ.2.2 hc)⟩

theorem getArray_some {json : Json} {path : List (Option String)}
    (h : (getArray json path none).2.isSome) (old : Option (List Json)) :
    (getArray json path old).2.isSome := by
  simp only [getArray] at h ⊢
  split
  · rename_i hok
    rw [if_pos hok] at h
    cases hvalue : (jsonGetProperty .array json path none).2.bind Json.array? with
    | none => simp [hvalue] at h
    | some value => simp
  · rename_i herr
    rw [if_neg herr] at h
    cases h

variable {jsonObj : Json}

theorem parseFileInfo_triple (hversions : (getPkgRollbackVersionsFromJson jsonObj none).2.isSome) :
    (handling cfg u t).Triple t (On u t H (Counts n m)) (parseFileInfo u jsonObj)
      fun _ => On u t H (Knows n m True) := by
  refine readComp_triple (χ := fun _ => Counts n m) (fun _ _ hψ => hψ) fun rollbackVersion => ?_
  refine .bind (counts_part (K := [.pkg]) (by simp) (by decide)) fun _ => ?_
  refine readComp_triple (χ := fun _ => Counts n m) (fun _ _ hψ => hψ) fun versions => ?_
  refine .bind (op_triple (χ := fun _ => Knows n m True)
    (fits_assign _)
    fun b f tr hψ => ⟨hψ.1, hψ.2, fun _ => getArray_some hversions versions⟩) fun _ => ?_
  refine knows_part (K := [.env, .fileInfo]) ?_ (by decide)
  simp only [Prog.all_bind, all_readComp, all_ext, true_and]
  refine fun _ _ _ _ => ⟨by simp, fun reply _ => ?_⟩
  cases reply <;> simp [parseInfoFromMsg_within]

/-- A message that is parsed without error has its rollback versions in the component. -/
theorem updateParse_triple (hversions : (getPkgRollbackVersionsFromJson jsonObj none).2.isSome)
    (cacheDir backupDir : Option String) :
    (handling cfg u t).Triple t (On u t H (Counts n m))
      (updateParseJsonReadyUpdate u jsonObj cacheDir backupDir)
      fun err => On u t H (Knows n m (err = eUaOk)) := by
  have hidentity : (parseIdentity u jsonObj).All (Within u [.pkg, .campaign]) := by
    simp [parseIdentity, parseName]
  have hmanifests : (assignManifests u cacheDir backupDir).All (Within u [.manifests]) := by
    simp [assignManifests]
  have hfailed : (parseFailed u).All (Within u [.manifests, .progress]) := by
    simp [parseFailed]
  refine .bind (counts_part hidentity (by decide)) fun err => ?_
  have hparsed : (handling cfg u t).Triple t (On u t H (Counts n m))
      (if err = eUaOk then parseVersions u jsonObj cacheDir backupDir else pure err)
      fun err => On u t H (Knows n m (err = eUaOk)) := by
    refine .ite (fun _ => ?_) fun herr => ?_
    · refine .bind (counts_part hmanifests (by decide)) fun _ => ?_
      refine readComp_triple (χ := fun _ => Counts n m) (fun _ _ hψ => hψ) fun old => ?_
      refine .bind (counts_part (K := [.pkg]) (by simp) (by decide)) fun _ => ?_
      refine .ite (fun _ => ?_) fun hversion => ?_
      · exact .post (parseFileInfo_triple hversions) fun _ _ _ hw =>
          on_mono (fun _ _ hψ => ⟨hψ.1, hψ.2.1, fun _ => hψ.2.2 trivial⟩) hw
      · exact pure_triple fun _ _ hψ => ⟨hψ.1, hψ.2, fun hok => absurd hok hversion⟩
    · exact pure_triple fun _ _ hψ => ⟨hψ.1, hψ.2, fun hok => absurd hok herr⟩
  refine .bind hparsed fun err => ?_
  refine .bind (knows_part (K := [.manifests, .progress]) ?_ (by decide))
    fun _ => .pure stable_on fun _ _ hw => hw
  rw [all_doIf]
  exact fun _ => hfailed

/-- A first installation that has ended has been counted. -/
def Counted (n m : Int32) (r : Installed) (f : Fields) (_ : List Event) : Prop :=
  ∀ updateSts, r = .first updateSts → f.counter = n + 1 ∧ f.limit = m ∧ f.versions = true

theorem installRequested_triple :
    (handling cfg u t).Triple t (On u t H (Knows n m True)) (installRequested u)
      fun r => On u t H (Counted n m r) := by
  refine readIntl_triple fun rebootSupport => ?_
  refine readComp_triple (χ := fun _ => Knows n m True) (fun _ _ hψ => hψ)
    fun rollbackVersion => ?_
  cases rollbackVersion with
  | some version =>
    have hrollback : (updateStartRollbackOperations u version rebootSupport).All
        (Within u rollbackKinds) :=
      updateStartRollbackOperations_within u _ (fun _ hk => hk) version rebootSupport
    refine .bind (pre_triple (counts_part (n := n) (m := m) hrollback (by decide))
      fun _ _ hψ => ⟨hψ.1, hψ.2.1⟩) fun updateSts => pure_triple fun _ _ _ _ heq => ?_
    cases heq
  | none =>
    refine readComp_triple (χ := fun retryCnt f tr => retryCnt = n ∧ Knows n m True f tr)
      (fun _ _ hψ => ⟨hψ.1, hψ⟩) fun retryCnt => on_const fun hcount => ?_
    refine .bind (op_triple (χ := fun _ => Knows (n + 1) m True)
      (fits_assign _) fun b f tr hψ =>
        ⟨by rw [hcount]; rfl, hψ.2⟩) fun _ => ?_
    refine .bind (knows_part
      (updateStartInstallOperations_within u _ (fun _ hk => hk) rebootSupport)
      (by decide)) fun updateSts => ?_
    exact pure_triple fun _ _ hψ _ _ => ⟨hψ.1, hψ.2.1, hψ.2.2 trivial⟩

theorem installParsed_triple (err : Rc) :
    (handling cfg u t).Triple t (On u t H (Knows n m (err = eUaOk)))
      (installParsed u jsonObj err) fun r => On u t H (Counted n m r) := by
  refine readComp_triple (χ := fun _ => Knows n m (err = eUaOk)) (fun _ _ hψ => hψ)
    fun name => .ite (fun hok => ?_) fun herr => ?_
  · refine .bind (knows_part (K := [.started]) (by simp) (by decide)) fun _ => ?_
    refine readComp_triple (χ := fun _ => Knows n m (err = eUaOk)) (fun _ _ hψ => hψ)
      fun name => ?_
    refine .bind (knows_part (K := [.stage]) (by simp) (by decide))
      fun _ => readIntl_triple fun cid => ?_
    refine .bind (knows_part (K := [.prepared]) (by simp) (by decide)) fun _ => ?_
    refine .bind (knows_part (K := [.ctrl]) ?_ (by decide)) fun _ => ?_
    · simp [chooseRbType, readRbType]
    · exact pre_triple installRequested_triple fun _ _ hψ =>
        ⟨hψ.1, hψ.2.1, fun _ => hψ.2.2 hok⟩
  · have hfailed : (readyUpdateFailed u).All (Within u sendKinds) := by
      simp [readyUpdateFailed, sendInstallStatus_within]
    refine .bind (knows_part hfailed (by decide)) fun _ =>
      pure_triple fun _ _ _ _ heq => ?_
    cases heq

theorem tillInstall_triple (hversions : (getPkgRollbackVersionsFromJson jsonObj none).2.isSome) :
    (handling cfg u t).Triple t (On u t H (Counts n m)) (tillInstall u jsonObj)
      fun r => On u t H (Counted n m r) := by
  refine readIntl_triple fun dmcHandlerDone => .ite (fun _ => ?_) fun _ => ?_
  · refine .bind (counts_part (K := [.curMsg]) (by simp) (by decide)) fun _ => ?_
    refine readIntl_triple fun cacheDir => readIntl_triple fun backupDir => ?_
    exact .bind (updateParse_triple hversions cacheDir backupDir) fun err =>
      installParsed_triple err
  · refine .bind (counts_part (K := [.dropped]) (by simp) (by decide)) fun _ =>
      pure_triple fun _ _ _ _ heq => ?_
    cases heq

/-! A failure is answered by the counter and the limit. -/

theorem escalates_of_kind {o : Op} {b : o.Ans} (hpkg : Op.kind o ≠ .pkg)
    (hsend : Op.kind o ≠ .send) : escalates u (.did t o b) = false := by
  cases o with
  | assign u' x =>
    cases x with
    | pkgRollbackVersion version => exact absurd rfl hpkg
    | _ => rfl
  | ext o =>
    cases o with
    | uaSendMessage msg => exact absurd rfl hsend
    | _ => rfl
  | _ => rfl

/-- What a report of an installation says of a rollback and of a terminal failure. -/
def Tells (state : InstallState) (pkgFile : Option PkgFile) (ue : UpdateErr) (msg : UpdateStatus) :
    Prop :=
  msg.status = state ∧ (pkgFile = none → msg.rollbackVersion = none ∧ msg.rollbackVersions = none) ∧
    msg.terminalFailure = decide (state = .failed ∧ ue = .terminalFailure ∧ pkgFile.isSome)

/-- A fact that the operations before the message keep, and what the message makes of it. -/
theorem report_triple {χ : Fields → List Event → Prop} (state : InstallState)
    (pkgFile : Option PkgFile) (ue : UpdateErr)
    (hkeep : ∀ o b f tr, Within u [.env, .seqOut, .replyId] o → ψ f tr →
      ψ (f.after o) (.did t o b :: tr))
    (hsend : ∀ msg b f tr, Tells state pkgFile ue msg → ψ f tr →
      χ f (.did t (.ext (.uaSendMessage (.updateStatus msg))) b :: tr)) :
    (handling cfg u t).Triple t (On u t H ψ)
      (ignoring (sendInstallStatus u state pkgFile ue)) fun _ => On u t H χ := by
  have hpart : ∀ {β : Type} {p : UaProg β}, p.All (Within u [.env, .seqOut, .replyId]) →
      (handling cfg u t).Triple t (On u t H ψ) p fun _ => On u t H ψ := by
    intro β p hp
    exact part_triple hp (fun _ ho => fits_of_within ho (by simp)) hkeep
  refine ignoring_triple ?_ stable_on
  refine readComp_triple (χ := fun _ => ψ) (fun _ _ hψ => hψ) fun pkgInfo => ?_
  refine orCrash_bind fun name _ => orCrash_bind fun type _ => orCrash_bind fun version _ => ?_
  refine readIntl_triple fun customMsg => ?_
  refine .bind (hpart (statusVersionList_within u _ (by simp) _ _ _)) fun versionList => ?_
  refine .bind (hpart (by simp [statusSequence])) fun sequence => ?_
  refine .bind (hpart (by simp [statusReplyId])) fun replyId => ?_
  refine op_triple (χ := fun _ => χ) (fits_of_within (K := [.send]) (by simp) (by simp))
    fun b f tr hψ => hsend _ b f tr ⟨rfl, ?_, rfl⟩ hψ
  rintro rfl
  exact ⟨rfl, by simp⟩

/-- The failure has not been answered yet. -/
def Unanswered (u : UaccPtr) (n m : Int32) (f : Fields) (tr : List Event) : Prop :=
  f.counter = n ∧ f.limit = m ∧ tr.any (escalates u) = false

/-- The failure has been answered as the counter says. -/
def Answered (u : UaccPtr) (n m : Int32) (f : Fields) (tr : List Event) : Prop :=
  f.counter = n ∧ f.limit = m ∧ if n ≤ m then Plain u tr else Escalated u tr

theorem unanswered_step {K : List Kind} {o : Op} {b : o.Ans} {f : Fields} {tr : List Event}
    (ho : Within u K o) (hK : .retryCnt ∉ K ∧ .pkg ∉ K ∧ .send ∉ K)
    (h : Unanswered u n m f tr) : Unanswered u n m (f.after o) (.did t o b :: tr) := by
  obtain ⟨hcounter, hlimit, htr⟩ := h
  refine ⟨(after_counter (ne_of_within ho hK.1) f).trans hcounter,
    (after_limit o f).trans hlimit, ?_⟩
  rw [List.any_cons, htr,
    escalates_of_kind (ne_of_within ho hK.2.1) (ne_of_within ho hK.2.2)]
  rfl

/-- An operation that is no answer itself leaves the answer as it is. -/
theorem answered_step {o : Op} {b : o.Ans} {f : Fields} {tr : List Event}
    (hretry : Op.kind o ≠ .retryCnt) (hnot : n ≤ m → escalates u (.did t o b) = false)
    (h : Answered u n m f tr) : Answered u n m (f.after o) (.did t o b :: tr) := by
  obtain ⟨hcounter, hlimit, hanswer⟩ := h
  refine ⟨(after_counter hretry f).trans hcounter, (after_limit o f).trans hlimit, ?_⟩
  by_cases hle : n ≤ m
  · rw [if_pos hle] at hanswer ⊢
    refine ⟨?_, ?_⟩
    · rw [List.any_cons, hanswer.1, Bool.or_true]
    · rw [List.any_cons, hanswer.2, hnot hle]
      rfl
  · rw [if_neg hle] at hanswer ⊢
    rw [Escalated, List.any_cons, hanswer, Bool.or_true]

theorem answered_part {K : List Kind} {p : UaProg α} (hp : p.All (Within u K))
    (hK : .setContext ∉ K ∧ .retryCnt ∉ K) (hle : n ≤ m → .pkg ∉ K ∧ .send ∉ K) :
    (handling cfg u t).Triple t (On u t H (Answered u n m)) p
      fun _ => On u t H (Answered u n m) :=
  part_triple hp (fun _ ho => fits_of_within ho hK.1) fun _ _ _ _ ho hψ =>
    answered_step (ne_of_within ho hK.2) (fun h => escalates_of_kind
      (ne_of_within ho (hle h).1) (ne_of_within ho (hle h).2)) hψ

theorem installRetry_triple (hle : n ≤ m) :
    (handling cfg u t).Triple t (On u t H (Unanswered u n m)) (installRetry u)
      fun _ => On u t H (Answered u n m) := by
  refine .bind (report_triple (χ := Answered u n m) .failed none .none
    (fun o b f tr ho hψ => unanswered_step ho (by decide) hψ) ?_)
    fun _ => .pure stable_on fun _ _ hw => hw
  intro msg b f tr htells hψ
  obtain ⟨hstatus, hfile, hterminal⟩ := htells
  obtain ⟨hcounter, hlimit, htr⟩ := hψ
  obtain ⟨hversion, hversions⟩ := hfile rfl
  refine ⟨hcounter, hlimit, ?_⟩
  rw [if_pos hle]
  constructor
  · simp [isPlainFailure, hstatus, hversion, hversions, hterminal]
  · simpa [escalates, hterminal] using htr

theorem installTerminalFailure_triple (hle : ¬n ≤ m) :
    (handling cfg u t).Triple t (On u t H (Counts n m)) (installTerminalFailure u)
      fun _ => On u t H (Answered u n m) := by
  refine .bind (op_triple (χ := fun _ f tr => f.error = .terminalFailure ∧ Counts n m f tr)
    (fits_assign _) fun b f tr hψ => ⟨rfl, hψ⟩)
    fun _ => ?_
  refine readComp_triple (χ := fun _ f tr => f.error = .terminalFailure ∧ Counts n m f tr)
    (fun _ _ hψ => hψ) fun fileInfo => ?_
  refine readComp_triple (χ := fun ue f tr => ue = UpdateErr.terminalFailure ∧ Counts n m f tr)
    (fun _ _ hψ => hψ) fun ue => on_const fun hue => ?_
  subst hue
  refine .bind (report_triple (χ := Answered u n m) .failed (some fileInfo) .terminalFailure
    (fun o b f tr ho hψ => ⟨(after_counter (ne_of_within ho (by simp)) f).trans hψ.1,
      (after_limit o f).trans hψ.2⟩) ?_) fun _ => .pure stable_on fun _ _ hw => hw
  intro msg b f tr htells hψ
  refine ⟨hψ.1, hψ.2, ?_⟩
  rw [if_neg hle]
  simp [Escalated, escalates, htells.2.2]

theorem updateSendRollbackIntent_triple (hle : ¬n ≤ m) (rbVersion : String) :
    (handling cfg u t).Triple t (On u t H (Counts n m))
      (updateSendRollbackIntent u (some rbVersion)) fun _ => On u t H (Answered u n m) := by
  refine .bind (op_triple (χ := fun _ => Answered u n m)
    (fits_assign _) fun b f tr hψ => ⟨hψ.1, hψ.2, ?_⟩)
    fun _ => ?_
  · rw [if_neg hle]
    simp [Escalated, escalates]
  · refine answered_part (K := intentKinds) ?_ (by decide) fun h => absurd h hle
    have hintent := updateSendRollbackIntent_within u intentKinds (fun _ hk => hk)
      (some rbVersion)
    simp only [updateSendRollbackIntent, Prog.all_bind] at hintent
    simp only [Prog.all_bind]
    exact hintent.2 () ⟨(), rfl⟩

theorem installRollback_triple (hle : ¬n ≤ m) :
    (handling cfg u t).Triple t (On u t H (Counts n m)) (installRollback u)
      fun _ => On u t H (Answered u n m) := by
  refine readComp_triple (χ := fun _ => Counts n m) (fun _ _ hψ => hψ) fun version => ?_
  refine .bind (counts_part (updateGetNextRollbackVersion_within u [.env] (by simp) version)
    (by decide)) fun next => ?_
  cases next with
  | some rbVersion =>
    exact .bind (ignoring_triple (updateSendRollbackIntent_triple hle rbVersion) stable_on)
      fun _ => .pure stable_on fun _ _ hw => hw
  | none => exact installTerminalFailure_triple hle

/-- A counted failure of a package with rollback versions. -/
def Due (n m : Int32) (f : Fields) (tr : List Event) : Prop :=
  f.counter = n ∧ f.limit = m ∧ f.versions = true ∧ tr = []

theorem installFailed_triple :
    (handling cfg u t).Triple t (On u t H (Due n m)) (installFailed u)
      fun _ => On u t H (Answered u n m) := by
  refine readComp_triple (χ := fun retryCnt f tr => retryCnt = n ∧ Due n m f tr)
    (fun _ _ hψ => ⟨hψ.1, hψ⟩) fun retryCnt => on_const fun hcounter => ?_
  refine readComp_triple (χ := fun maxRetry f tr => maxRetry = m ∧ Due n m f tr)
    (fun _ _ hψ => ⟨hψ.2.1, hψ⟩) fun maxRetry => on_const fun hlimit => ?_
  refine readComp_triple (χ := fun versions f tr => versions.isSome = true ∧ Due n m f tr)
    (fun _ _ hψ => ⟨hψ.2.2.1, hψ⟩) fun versions => on_const fun hversions => ?_
  rw [hcounter, hlimit]
  refine .ite (fun hle => ?_) fun hle => ?_
  · refine pre_triple (installRetry_triple hle) fun _ _ hψ => ⟨hψ.1, hψ.2.1, ?_⟩
    rw [hψ.2.2.2]
    rfl
  · rw [if_pos hversions]
    exact pre_triple (installRollback_triple hle) fun _ _ hψ => ⟨hψ.1, hψ.2.1⟩

theorem afterInstall_triple :
    (handling cfg u t).Triple t (On u t H (Due n m)) (afterInstall u .failed)
      fun _ => On u t H (Answered u n m) := by
  refine .bind installFailed_triple fun updateSts => ?_
  refine .bind (answered_part (K := [.env, .remove]) ?_ (by decide) fun _ => by decide)
    fun _ => .pure stable_on fun _ _ hw => hw
  rw [all_doIf]
  simp [removeUpdateManifest]

/-- No confirm-update was waiting, and the failure has been answered. -/
def Ended (u : UaccPtr) (n m : Int32) (f : Fields) (tr : List Event) : Prop :=
  tr.any (confirms u) = false → Answered u n m f tr

theorem readyUpdateRelease_triple :
    (handling cfg u t).Triple t (On u t H (Answered u n m)) (readyUpdateRelease u)
      fun _ => On u t H (Answered u n m) := by
  have hall : (readyUpdateRelease u).All fun o =>
      Within u [.curMsg, .manifests, .fileInfo, .campaign, .pkg, .progress, .answer] o ∧
        ∀ b, escalates u (.did t o b) = false := by
    simp [readyUpdateRelease, updateReleaseCompContext, escalates]
  exact part_triple hall (fun _ ho => fits_of_within ho.1 (by simp)) fun _ b _ _ ho hψ =>
    answered_step (ne_of_within ho.1 (by simp)) (fun _ => ho.2 b) hψ

theorem afterReport_triple (updateSts : InstallState) :
    (handling cfg u t).Triple t (On u t H (Answered u n m)) (afterReport u jsonObj updateSts)
      fun _ => On u t H (Ended u n m) := by
  refine .bind (answered_part (readyUpdateBackup_within u [.env, .lock] (fun _ hk => hk) updateSts)
    (by decide) fun _ => by decide) fun _ => ?_
  refine readComp_triple (χ := fun _ => Answered u n m) (fun _ _ hψ => hψ) fun name => ?_
  refine .bind (answered_part (K := [.ctrl]) (by simp) (by decide) fun _ => by decide) fun _ => ?_
  refine .bind (answered_part (K := [.stage]) (by simp) (by decide) fun _ => by decide) fun _ => ?_
  refine .bind (op_triple (χ := fun cleanupOk f tr =>
    (cleanupOk = true → tr.any (confirms u) = true) ∧ Answered u n m f tr)
    (fits_of_within (K := [.testCleanup]) (by simp) (by simp)) fun b f tr hψ => ⟨?_, ?_⟩)
    fun cleanupOk => ?_
  · rintro rfl
    simp [confirms]
  · exact answered_step (by simp) (fun _ => rfl) hψ
  · cases cleanupOk with
    | false =>
      exact post_triple (pre_triple readyUpdateRelease_triple fun _ _ hψ => hψ.2)
        fun _ _ hψ _ => hψ
    | true =>
      have hall : (do deferredConfirm u jsonObj; readyUpdateRelease u).All
          (Within u readyUpdateKinds) := by
        simp [deferredConfirm, processConfirmUpdate_within, readyUpdateRelease,
          updateReleaseCompContext_within]
      refine post_triple (pre_triple (part_triple (ψ := fun _ tr => tr.any (confirms u) = true)
        hall (fun _ ho => fits_of_within ho (by decide)) fun o b f tr _ hψ => ?_)
        fun _ _ hψ => hψ.1 rfl) fun _ _ hψ hno => ?_
      · rw [List.any_cons, hψ, Bool.or_true]
      · rw [hψ] at hno
        cases hno

theorem fromInstall_triple :
    (handling cfg u t).Triple t (On u t H (Due n m)) (fromInstall u jsonObj (.first .failed))
      fun _ => On u t H (Ended u n m) :=
  .bind afterInstall_triple fun updateSts => afterReport_triple updateSts

/-! A message that is no failure of the package. -/

/-- The counter is as it was, unless it has been set. -/
def Quiet (u : UaccPtr) (n m : Int32) (f : Fields) (tr : List Event) : Prop :=
  f.limit = m ∧ (tr.any (setsCounter u) = false → f.counter = n)

theorem quiet_step {o : Op} {b : o.Ans} {f : Fields} {tr : List Event} (ho : Fits u o)
    (h : Quiet u n m f tr) : Quiet u n m (f.after o) (.did t o b :: tr) := by
  refine ⟨(after_limit o f).trans h.1, fun hno => ?_⟩
  rw [List.any_cons, Bool.or_eq_false_iff] at hno
  rw [after_counter ?_ f, h.2 hno.2]
  intro hkind
  cases o with
  | assign u' x =>
    obtain rfl := ho.1 u' rfl
    cases x with
    | retryCnt value => simp [setsCounter] at hno
    | _ => cases hkind
  | ext o =>
    cases o with
    | callback u' f ctl => cases f <;> cases hkind
    | _ => cases hkind
  | assignIntl x => cases x <;> cases hkind
  | mark x => cases x <;> cases hkind
  | mutexLock lock | mutexUnlock lock => cases lock <;> cases hkind
  | _ => cases hkind

theorem program_fits (msg : Message) : (msg.program u).All (Fits u) := by
  cases msg with
  | prepareUpdate jsonObj =>
    exact (processPrepareUpdate_within u prepareKinds (fun _ hk => hk) jsonObj).mono
      fun _ ho => fits_of_within ho (by decide)
  | readyUpdate jsonObj =>
    exact (processReadyUpdate_within u readyUpdateKinds (fun _ hk => hk) jsonObj).mono
      fun _ ho => fits_of_within ho (by decide)
  | confirmUpdate jsonObj =>
    exact (processConfirmUpdate_within u confirmKinds (fun _ hk => hk) jsonObj).mono
      fun _ ho => fits_of_within ho (by decide)

theorem program_triple (msg : Message) :
    (handling cfg u t).Triple t (On u t H (Quiet u n m)) (msg.program u)
      fun _ => On u t H (Quiet u n m) :=
  part_triple (program_fits msg) (fun _ ho => ho) fun _ _ _ _ ho hψ => quiet_step ho hψ

/-! A prepare-update of the package that does not succeed. -/

/-- The counter is as it was, unless the package has been prepared. -/
def Spared (u : UaccPtr) (name : String) (n m : Int32) (f : Fields) (tr : List Event) : Prop :=
  f.limit = m ∧ (tr.any (prepares u name) = false → f.counter = n)

/-- The component has the name of the package too. -/
def Named (u : UaccPtr) (name : String) (n m : Int32) (f : Fields) (tr : List Event) : Prop :=
  f.package = some name ∧ Spared u name n m f tr

variable {name : String}

theorem spared_step {o : Op} {b : o.Ans} {f : Fields} {tr : List Event}
    (hretry : Op.kind o ≠ .retryCnt) (h : Spared u name n m f tr) :
    Spared u name n m (f.after o) (.did t o b :: tr) := by
  refine ⟨(after_limit o f).trans h.1, fun hno => (after_counter hretry f).trans (h.2 ?_)⟩
  rw [List.any_cons, Bool.or_eq_false_iff] at hno
  exact hno.2

theorem spared_part {K : List Kind} {p : UaProg α} (hp : p.All (Within u K))
    (hK : .setContext ∉ K ∧ .retryCnt ∉ K) :
    (handling cfg u t).Triple t (On u t H (Spared u name n m)) p
      fun _ => On u t H (Spared u name n m) :=
  part_triple hp (fun _ ho => fits_of_within ho hK.1) fun _ _ _ _ ho hψ =>
    spared_step (ne_of_within ho hK.2) hψ

theorem named_part {K : List Kind} {p : UaProg α} (hp : p.All (Within u K))
    (hK : .setContext ∉ K ∧ .retryCnt ∉ K ∧ .pkg ∉ K) :
    (handling cfg u t).Triple t (On u t H (Named u name n m)) p
      fun _ => On u t H (Named u name n m) :=
  part_triple hp (fun _ ho => fits_of_within ho hK.1) fun _ _ _ _ ho hψ =>
    ⟨(after_package (ne_of_within ho hK.2.2) _).trans hψ.1,
      spared_step (ne_of_within ho hK.2.1) hψ.2⟩

/-- A package that is ready has been prepared. -/
def Ready (u : UaccPtr) (name : String) (n m : Int32) (state : InstallState) (f : Fields)
    (tr : List Event) : Prop :=
  Named u name n m f tr ∧ (state = .ready → tr.any (prepares u name) = true)

theorem ready_part {K : List Kind} {state : InstallState} {p : UaProg α}
    (hp : p.All (Within u K)) (hK : .setContext ∉ K ∧ .retryCnt ∉ K ∧ .pkg ∉ K) :
    (handling cfg u t).Triple t (On u t H (Ready u name n m state)) p
      fun _ => On u t H (Ready u name n m state) :=
  part_triple hp (fun _ ho => fits_of_within ho hK.1) fun _ _ _ _ ho hψ =>
    ⟨⟨(after_package (ne_of_within ho hK.2.2) _).trans hψ.1.1,
      spared_step (ne_of_within ho hK.2.1) hψ.1.2⟩, fun hstate => by
        rw [List.any_cons, hψ.2 hstate, Bool.or_true]⟩

theorem prepareAndReport_triple (pkgFile : PkgFile) (bck : Bool) :
    (handling cfg u t).Triple t (On u t H (Named u name n m))
      (prepareAndReport u jsonObj pkgFile bck)
      fun state => On u t H (Ready u name n m state) := by
  refine orCrash_bind fun sha _ => orCrash_bind fun deltaSha _ => readIntl_triple fun cacheDir => ?_
  refine readComp_triple (χ := fun pkgName f tr => pkgName = some name ∧ Named u name n m f tr)
    (fun _ _ hψ => ⟨hψ.1, hψ⟩) fun pkgName => on_const fun hname => ?_
  subst hname
  refine .bind (named_part (K := [.manifests]) (by simp) (by decide)) fun _ => ?_
  refine .bind (named_part (prepareInstallAction_within u [.env] (by simp) _ _ _ _)
    (by decide)) fun prepared => ?_
  refine .bind (op_triple (χ := fun _ => Ready u name n m prepared.state)
    (fits_of_within (K := [.preparation]) (by simp) (by simp)) fun b f tr hψ =>
      ⟨⟨hψ.1, spared_step (by simp) hψ.2⟩, ?_⟩) fun _ => ?_
  · intro hstate
    simp [prepares, hstate]
  · have hquery : (doIf (prepared.state = .ready) sendQueryUpdates).All
        (Within u [.env, .query, .send]) := by
      rw [all_doIf]
      exact fun _ => sendQuery_within u _ (fun _ hk => hk) _
    refine .bind (ready_part hquery (by decide)) fun _ => ?_
    refine .bind (ready_part (K := sendKinds) ?_ (by decide)) fun _ => ?_
    · rw [all_ignoring]
      exact sendInstallStatus_within u _ (fun _ hk => hk) _ _ _
    refine .bind (ready_part (K := [.manifests]) (by simp) (by decide))
      fun _ => .pure stable_on fun _ _ hw => hw

theorem prepareFromSource_triple (version : Option String) :
    (handling cfg u t).Triple t (On u t H (Named u name n m))
      (prepareFromSource u jsonObj version)
      fun state => On u t H (Ready u name n m state) := by
  have hsource : (prepareSource u jsonObj version).All (Within u [.env]) := by
    simp only [prepareSource, Prog.all_ite, Prog.all_bind, all_readComp, all_ext, true_and]
    refine ⟨by simp, fun _ manifest _ => ⟨by simp, fun reply _ => ?_⟩⟩
    cases reply <;> simp
  refine .bind (named_part hsource (by decide)) fun source => ?_
  cases source with
  | some source => exact prepareAndReport_triple source.1 source.2
  | none =>
    refine .bind (named_part (K := sendKinds) ?_ (by decide)) fun _ =>
      pure_triple fun _ _ hψ => ⟨hψ, by simp⟩
    rw [all_ignoring]
    exact sendInstallStatus_within u _ (fun _ hk => hk) _ _ _

theorem prepareUpdate_triple (st : UaStage) :
    (handling cfg u t).Triple t (On u t H (Named u name n m)) (prepareUpdate u jsonObj st)
      fun _ => On u t H (Spared u name n m) := by
  have hpkg : ∀ x, (∀ f : Fields, (f.assign x).package = f.package) → Assign.kind x = .pkg →
      (handling cfg u t).Triple t (On u t H (Named u name n m)) (assign u x)
        fun _ => On u t H (Named u name n m) := by
    intro x hname hkind
    have hop : Op.kind (.assign u x) = .pkg := hkind
    exact op_triple (fits_assign x) fun b f tr hψ =>
      ⟨(hname f).trans hψ.1, spared_step (by rw [hop]; decide) hψ.2⟩
  refine readComp_triple (χ := fun _ => Named u name n m) (fun _ _ hψ => hψ) fun pkgName => ?_
  refine .bind (named_part (K := [.stage]) (by simp) (by decide)) fun _ => ?_
  refine .bind (hpkg _ (fun _ => rfl) rfl) fun _ => ?_
  refine .bind (doIf_triple (fun _ => hpkg _ (fun _ => rfl) rfl) stable_on fun _ _ _ hw => hw)
    fun _ => readIntl_triple fun backupDir => ?_
  refine .bind (named_part (K := [.manifests]) (by simp) (by decide)) fun _ => ?_
  refine readComp_triple (χ := fun _ => Named u name n m) (fun _ _ hψ => hψ) fun pkgInfo => ?_
  refine .bind (prepareFromSource_triple _) fun state => ?_
  refine .bind (R := fun _ => On u t H (Spared u name n m)) (.ite (fun hstate => ?_) fun _ => ?_)
    fun _ => .bind (spared_part (K := [.manifests]) (by simp) (by decide)) fun _ =>
      spared_part (K := [.pkg]) (by simp) (by decide)
  · -- the counter may be set now
    have hdone : (prepareDone u).All (Within u prepareKinds) := by simp [prepareDone]
    refine post_triple (pre_triple (part_triple
      (ψ := fun f tr => f.limit = m ∧ tr.any (prepares u name) = true) hdone
      (fun _ ho => fits_of_within ho (by decide)) fun o b f tr _ hψ => ?_)
      fun _ _ hψ => ⟨hψ.1.2.1, hψ.2 hstate⟩) fun _ _ hψ => ⟨hψ.1, fun hno => ?_⟩
    · exact ⟨(after_limit o f).trans hψ.1, by rw [List.any_cons, hψ.2, Bool.or_true]⟩
    · rw [hψ.2] at hno
      cases hno
  · refine pre_triple (spared_part (K := [.stage]) ?_ (by decide)) fun _ _ hψ => hψ.1.2
    simp [prepareUndone]

theorem parsePrepareUpdate_triple (hname : (getPkgNameFromJson jsonObj none).2 = some name) :
    (handling cfg u t).Triple t (On u t H (Spared u name n m)) (parsePrepareUpdate u jsonObj)
      fun parsed => On u t H fun f tr =>
        (parsed = true → f.package = some name) ∧ Spared u name n m f tr := by
  refine .bind (spared_part (K := [.pkg]) (by simp) (by decide)) fun _ => ?_
  refine .bind (spared_part (K := [.pkg]) (by simp) (by decide)) fun _ =>
    .ite (fun _ => ?_) fun _ => ?_
  · refine .bind (op_triple (χ := fun _ => Named u name n m)
      (fits_assign _) fun b f tr hψ =>
        ⟨hname, spared_step (by simp) hψ⟩) fun _ => .ite (fun _ => ?_) fun _ => ?_
    · refine .bind (op_triple (χ := fun _ => Named u name n m)
        (fits_assign _) fun b f tr hψ =>
          ⟨hψ.1, spared_step (by simp) hψ.2⟩) fun _ => ?_
      exact pure_triple fun _ _ hψ => ⟨fun _ => hψ.1, hψ.2⟩
    · exact pure_triple fun _ _ hψ => ⟨by simp, hψ.2⟩
  · exact pure_triple fun _ _ hψ => ⟨by simp, hψ⟩

theorem prepareInStage_triple (st : UaStage) :
    (handling cfg u t).Triple t (On u t H (Named u name n m)) (prepareInStage u jsonObj st)
      fun _ => On u t H (Spared u name n m) := by
  refine .bind (named_part (K := [.campaign]) (by simp) (by decide)) fun _ => ?_
  refine readComp_triple (χ := fun _ => Named u name n m) (fun _ _ hψ => hψ) fun pkgName => ?_
  refine readComp_triple (χ := fun _ => Named u name n m) (fun _ _ hψ => hψ) fun version => ?_
  refine .bind (named_part (K := [.preparation]) (by simp) (by decide)) fun _ => ?_
  refine .bind (named_part (isMarkedPrepared_within u [.env] (by simp) st)
    (by decide)) fun prepared => .ite (fun _ => ?_) fun _ => prepareUpdate_triple st
  refine pre_triple (spared_part (K := .preparation :: sendKinds) ?_ (by decide))
    fun _ _ hψ => hψ.2
  simp [prepareFastPath, sendInstallStatus_within]

/-- A prepare-update of the package leaves the counter alone unless the package is prepared. -/
theorem processPrepareUpdate_triple
    (hname : (getPkgNameFromJson jsonObj none).2 = some name) :
    (handling cfg u t).Triple t (On u t H (Spared u name n m)) (processPrepareUpdate u jsonObj)
      fun _ => On u t H (Spared u name n m) := by
  refine .bind (parsePrepareUpdate_triple hname) fun parsed => ?_
  refine doIf_triple (fun hparsed => ?_) stable_on fun _ _ _ hw =>
    on_mono (fun _ _ hψ => hψ.2) hw
  refine readComp_triple (χ := fun _ => Named u name n m) (fun _ _ hψ => ⟨hψ.1 hparsed, hψ.2⟩)
    fun st => ?_
  exact doIf_triple (fun _ => prepareInStage_triple st) stable_on fun _ _ _ hw =>
    on_mono (fun _ _ hψ => hψ.2) hw

end Parts

/-! The runs. -/

theorem since_eq {w w' : World} {tr : List Event} (h : own t w'.trace = tr ++ own t w.trace) :
    since t w w' = tr := by
  rw [since, h]
  simp

/-- The state as the beginning of a part of the handling. -/
theorem on_begin {w : World} {ψ : Fields → List Event → Prop}
    (h : ψ (fields (w.shared.comp u)) []) : On u t (own t w.trace) ψ w := ⟨[], rfl, h⟩

theorem on_since {w w' : World} {ψ : Fields → List Event → Prop}
    (h : On u t (own t w.trace) ψ w') : ψ (fields (w'.shared.comp u)) (since t w w') := by
  obtain ⟨tr, htrace, hψ⟩ := h
  rw [since_eq htrace]
  exact hψ

theorem on_end {p : UaProg α} {χ : α → Fields → List Event → Prop} {w w' : World} {a : α}
    (htriple : (handling cfg u t).Triple t (On u t H ψ) p fun a => On u t H (χ a))
    (hw : On u t H ψ w) (hrun : Passes (handling cfg u t) t p w a w') :
    On u t H (χ a) w' :=
  passes_triple (Q := fun a => On u t H (χ a)) htriple trivial hw hrun

/-- A message for another package that sets no counter leaves it alone, and so does a
prepare-update for the package that does not succeed. -/
theorem untouched_kept {name : String} {msg : Message} {w w' : World}
    (h : Handled cfg u t msg w w') (hC : Untouched u name msg (since t w w')) :
    (w'.shared.comp u).retryCnt = (w.shared.comp u).retryCnt ∧
      (w'.shared.comp u).maxRetry = (w.shared.comp u).maxRetry := by
  obtain ⟨hbetween, hsets⟩ := hC
  by_cases hother : msg.package = some name
  · obtain hne | ⟨hprepare, hnot⟩ := hbetween
    · exact absurd hother hne
    · cases msg with
      | prepareUpdate jsonObj =>
        have hbegin : On u t (own t w.trace) (Spared u name (w.shared.comp u).retryCnt
            (w.shared.comp u).maxRetry) w := on_begin ⟨rfl, fun _ => rfl⟩
        have hend := on_since (on_end (processPrepareUpdate_triple hother) hbegin h)
        exact ⟨hend.2 hnot, hend.1⟩
      | readyUpdate jsonObj => cases hprepare
      | confirmUpdate jsonObj => cases hprepare
  · have hbegin : On u t (own t w.trace) (Quiet u (w.shared.comp u).retryCnt
        (w.shared.comp u).maxRetry) w := on_begin ⟨rfl, fun _ => rfl⟩
    have hend := on_since (on_end (program_triple msg) hbegin h)
    exact ⟨hend.2 (hsets hother), hend.1⟩

/-- One failure is counted, and answered by the counter. -/
theorem fails_answered {jsonObj : Json} {w w₁ w' : World}
    (hversions : (getPkgRollbackVersionsFromJson jsonObj none).2.isSome)
    (h : Fails cfg u t jsonObj w w₁ w')
    (hconfirm : (since t w₁ w').any (confirms u) = false) :
    Answered u ((w.shared.comp u).retryCnt + 1) (w.shared.comp u).maxRetry
      (fields (w'.shared.comp u)) (since t w₁ w') := by
  have hbegin : On u t (own t w.trace) (Counts (w.shared.comp u).retryCnt
      (w.shared.comp u).maxRetry) w := on_begin ⟨rfl, rfl⟩
  obtain ⟨tr, -, hcounted⟩ :=
    on_end (tillInstall_triple hversions) hbegin h.install
  obtain ⟨hcounter, hlimit, hsome⟩ := hcounted _ rfl
  have hdue : On u t (own t w₁.trace) (Due ((w.shared.comp u).retryCnt + 1)
      (w.shared.comp u).maxRetry) w₁ := on_begin ⟨hcounter, hlimit, hsome, rfl⟩
  have hended := on_since (on_end fromInstall_triple hdue h.rest)
  exact hended hconfirm

/-- The counter is the number of failures, and their answers are within the budget. -/
theorem run_counts {name : String} {w₀ w : World} {answers : List (List Event)}
    (hzero : (w₀.shared.comp u).retryCnt = 0)
    (hrun : Run cfg u name (Untouched u name) w₀ w answers)
    (hlen : (answers.length : Int) ≤ Int32.maxValue.toInt) :
    (w.shared.comp u).retryCnt = Int32.ofNat answers.length ∧ WithinBudget u w answers := by
  induction hrun with
  | start =>
    refine ⟨hzero, fun newer tr older heq => ?_⟩
    cases newer <;> cases heq
  | failure w w₁ w' answers t jsonObj hrun hmsg hfails hconfirm ih =>
    have hmax : Int32.maxValue.toInt = 2147483647 := rfl
    rw [List.length_cons, hmax] at hlen
    obtain ⟨hcounter, hbudget⟩ := ih (by omega)
    obtain ⟨hcounter', hlimit, hanswer⟩ := fails_answered hmsg.versions hfails hconfirm
    have hnext : (w.shared.comp u).retryCnt + 1 = Int32.ofNat (answers.length + 1) := by
      rw [hcounter, Int32.ofNat_add]
      rfl
    rw [hnext] at hcounter' hanswer
    refine ⟨hcounter', fun newer tr older heq => ?_⟩
    have hlimit' : (w'.shared.comp u).maxRetry = (w.shared.comp u).maxRetry := hlimit
    rw [hlimit']
    cases newer with
    | nil =>
      cases heq
      by_cases hle : Int32.ofNat (answers.length + 1) ≤ (w.shared.comp u).maxRetry
      · rw [if_pos hle] at hanswer
        rw [Int32.le_iff_toInt_le, Int32.toInt_ofNat_of_lt (by omega)] at hle
        rw [if_pos (by omega)]
        exact hanswer
      · rw [if_neg hle] at hanswer
        rw [Int32.le_iff_toInt_le, Int32.toInt_ofNat_of_lt (by omega)] at hle
        rw [if_neg (by omega)]
        exact hanswer
    | cons first newer =>
      cases heq
      exact hbudget newer tr older rfl
  | other w w' answers t msg hrun hhandled hC ih =>
    obtain ⟨hcounter, hbudget⟩ := ih hlen
    obtain ⟨hsame, hlimit⟩ := untouched_kept hhandled hC
    refine ⟨hsame.trans hcounter, fun newer tr older heq => ?_⟩
    rw [hlimit]
    exact hbudget newer tr older heq

def budgetConfig : AgentConfig := { sampleConfig false 1 with maxRetry := 1 }

/-- The agent has been started, and it is connected. -/
def waiting : World where
  shared :=
    { budgetConfig.started .empty .empty with
      intl := { budgetConfig.intl .empty with dmcHandlerDone := true } }
  trace := []

/-- The requests to start an installation are not replied to. -/
def played (p : UaProg α) (w : World) : Option (α × World) :=
  alone (player budgetConfig Anything (usualOracle "1")) (.worker 0 0) p w

def left (p : UaProg α) (w : World) : World := ((played p w).map Prod.snd).getD w

theorem passes_played {p : UaProg α} {w : World} {a : α}
    (h : (played p w).map Prod.fst = some a) :
    Passes (handling budgetConfig 0 (.worker 0 0)) (.worker 0 0) p w a (left p w) := by
  rw [Option.map_eq_some_iff] at h
  obtain ⟨⟨a', w'⟩, hplayed, heq⟩ := h
  cases heq
  have hleft : left p w = w' := by rw [left, hplayed]; rfl
  rw [hleft]
  exact passes_alone hplayed

def readyP : Json :=
  packageMessage bmtReadyUpdate [] "p" "2"
    (("rollback-versions", .array [.string "1"]) :: downloadedFile "2")

/-- A prepare-update for another package, with a file or without. -/
def prepareQ (file : List (String × Json)) : Json :=
  packageMessage bmtPrepareUpdate [] "q" "2" file

/-- The state after the installation of the package, and at the end of its message. -/
def failing (w : World) : World := left (tillInstall 0 readyP) w

def failed (w : World) : World := left (fromInstall 0 readyP (.first .failed)) (failing w)

def prepared (file : List (String × Json)) (w : World) : World :=
  left (processPrepareUpdate 0 (prepareQ file)) w

theorem retriable_readyP : Retriable "p" readyP :=
  ⟨by decide +kernel, by decide +kernel, by decide +kernel⟩

theorem run_failed {C : Message → List Event → Prop} {w₀ w : World}
    {answers : List (List Event)} (hrun : Run budgetConfig 0 "p" C w₀ w answers)
    (hinstall : (played (tillInstall 0 readyP) w).map Prod.fst = some (.first .failed))
    (hrest : (played (fromInstall 0 readyP (.first .failed)) (failing w)).map Prod.fst = some ())
    (hconfirm : (since (.worker 0 0) (failing w) (failed w)).any (confirms 0) = false) :
    Run budgetConfig 0 "p" C w₀ (failed w)
      (since (.worker 0 0) (failing w) (failed w) :: answers) :=
  .failure w (failing w) (failed w) answers (.worker 0 0) readyP hrun retriable_readyP
    ⟨passes_played hinstall, passes_played hrest⟩ hconfirm

theorem run_prepared {C : Message → List Event → Prop} {w₀ w : World}
    {answers : List (List Event)} (file : List (String × Json))
    (hrun : Run budgetConfig 0 "p" C w₀ w answers)
    (hhandled : (played (processPrepareUpdate 0 (prepareQ file)) w).map Prod.fst = some ())
    (hC : C (.prepareUpdate (prepareQ file)) (since (.worker 0 0) w (prepared file w))) :
    Run budgetConfig 0 "p" C w₀ (prepared file w) answers :=
  .other w (prepared file w) answers (.worker 0 0) (.prepareUpdate (prepareQ file)) hrun
    (passes_played hhandled) hC

/-- The first failure and what it was answered. -/
def once : World := failed waiting

def firstAnswer : List Event := since (.worker 0 0) (failing waiting) once

theorem run_once (C : Message → List Event → Prop) :
    Run budgetConfig 0 "p" C waiting once [firstAnswer] :=
  run_failed .start (by decide +kernel) (by decide +kernel) (by decide +kernel)

/-- A prepare-update for the other package fails, and then the package fails again. -/
def between : World := prepared [] once

/-- The other package is prepared before the package fails again. -/
def refilled : World := prepared (downloadedFile "2") once

end EsyncUa.RetryBudget
