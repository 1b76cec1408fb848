import EsyncUa.Rules

/-!
The message runner handles a confirm-update while the worker prepares a newer version of the
same package. Each of the two looks at the stage of the package only once, when it begins, so
either may undo what the other one has done since. The proof outline says what the worker may
rely on as long as the confirm-update undoes nothing.
-/
namespace EsyncUa.ConfirmRaces

open EsyncUa.JsonProperties EsyncUa.Components EsyncUa.Records EsyncUa.Programs
open EsyncUa.Operations EsyncUa.Installation EsyncUa.Updater EsyncUa.Messages EsyncUa.Machines
open EsyncUa.Agents EsyncUa.Footprints EsyncUa.Frames EsyncUa.Outlines EsyncUa.Rules

/-- The entry that the preparation writes: the manifest is as it was at the beginning, has an
entry that was written since, or has been removed. -/
inductive Entry
  | asBefore | there (version : Option String) | gone
  deriving DecidableEq

def Entry.written : Entry → Bool
  | .there _ => true
  | _ => false

def entryStep (m : String) (x : Entry) : (o : Op) → o.Ans → Entry
  | .remove path, _ => if path = some m then .gone else x
  | .ext (.addPkgFileManifest path pkgFile), rc =>
      if path = some m ∧ rc = eUaOk then .there pkgFile.version else x
  | _, _ => x

/-- What has happened to the manifest file `m`. -/
def entry (m : String) : List Event → Entry
  | [] => .asBefore
  | .did _ o b :: h => entryStep m (entry m h) o b
  | _ :: h => entry m h

def stageOf (s : Shared) (u : UaccPtr) (name : String) : UaStage :=
  compGetUpdateStage (s.comp u).stInfo (some name)

/-- The operation reports that the package is ready for installation. -/
def Reports : Op → Prop
  | .ext (.uaSendMessage (.updateStatus m)) => m.status = .ready
  | _ => False

/-- The operation reports the package as one that is prepared already. -/
def Marks (u : UaccPtr) (name : String) : Op → Prop
  | .mark (.markedPrepared u' name' _) => u' = u ∧ name' = some name
  | _ => False

/-- The operation sets a stage of the package. -/
def SetsStage (u : UaccPtr) (name : String) : Op → Prop
  | .assign u' (.updateStage name' _) => u' = u ∧ name' = some name
  | _ => False

/-- Thread `t` has performed an operation that satisfies `Q`. -/
def Has (t : Tid) (Q : Op → Prop) (h : List Event) : Prop := ∃ o b, .did t o b ∈ h ∧ Q o

/-- The confirm-update removes the manifest only before the preparation has written its entry,
and sets the stage only while it is not PREPARE_UPDATE_DONE; writing the entry succeeds. -/
def Harmless (u : UaccPtr) (name m : String) (t : Tid) (e : Event) (w : World) : Prop :=
  match e with
  | .did _ (.remove path) _ => t = .runner u → path = some m → (entry m w.trace).written = false
  | .did _ (.assign u' (.updateStage name' _)) _ =>
      t = .runner u → u' = u → name' = some name → stageOf w.shared u name ≠ .prepareUpdateDone
  | .did _ (.ext (.addPkgFileManifest path _)) rc => path = some m → rc = eUaOk
  | _ => True

instance (u : UaccPtr) (name m : String) (t : Tid) (e : Event) (w : World) :
    Decidable (Harmless u name m t e w) := by
  unfold Harmless
  split <;> infer_instance

/-- The two handlers alone, in every interleaving of their steps that meets the condition. -/
def race (cfg : AgentConfig) (C : Tid → Event → World → Prop) :
    Machine Tid Shared World Op.Ans where
  mem := World.shared
  init := fun _ => False
  act := (runsWhere cfg C).act
  fork := fun _ _ _ => none
  arrive := fun _ _ _ _ => False
  restart := fun _ _ => False

/-- The message runner begins with the confirm-update, and a worker with the prepare-update. -/
def bothBegin (u : UaccPtr) (n : Nat) (confirm prepare : Json) (s : Shared) :
    AgentConfiguration where
  st := ⟨s, []⟩
  pool := Function.update
    (Function.update idlePool (.runner u) (processConfirmUpdate u confirm))
    (.worker u n) (processPrepareUpdate u prepare)

/-- The version that a prepare-update asks for. -/
def askedVersion (jsonObj : Json) : Option String :=
  versionToUpdate { PkgInfo.zero with
    version := (getPkgVersionFromJson jsonObj none).2
    rollbackVersion := (getPkgRollbackVersionFromJson jsonObj none).2 }

/-- The package is in the stage PREPARE_UPDATE_DONE, and the entry that was written for it is
in the manifest; if the package had been prepared before, the manifest is as it was. -/
structure Kept (u : UaccPtr) (n : Nat) (name m : String) (prepare : Json) (w : World) : Prop where
  stage : stageOf w.shared u name = .prepareUpdateDone
  entry : entry m w.trace = .there (askedVersion prepare) ∨
    Has (.worker u n) (Marks u name) w.trace ∧ entry m w.trace = .asBefore

variable {cfg : AgentConfig} {u : UaccPtr} {n : Nat} {name m : String}

/-! What one step of either handler does to what the preparation depends on. -/

/-- The component, the entry, and what has happened. -/
structure View where
  comp : UaComponentContext
  entry : Entry
  reported : Prop
  marked : Prop
  begun : Prop

def View.stage (name : String) (v : View) : UaStage :=
  compGetUpdateStage v.comp.stInfo (some name)

def view (u : UaccPtr) (n : Nat) (name m : String) (w : World) : View where
  comp := w.shared.comp u
  entry := entry m w.trace
  reported := Has (.worker u n) Reports w.trace
  marked := Has (.worker u n) (Marks u name) w.trace
  begun := Has (.runner u) (SetsStage u name) w.trace

/-- What the worker may rely on when the message runner makes a step. -/
structure Rely (name : String) (v v' : View) : Prop where
  pkg : v'.comp.updatePkg = v.comp.updatePkg
  manifest : v'.comp.updateManifest = v.comp.updateManifest
  written : v.entry.written = true → v'.entry = v.entry
  done : v.stage name = .prepareUpdateDone →
    v'.stage name = .prepareUpdateDone ∧ (v'.begun → v.begun)
  notDone : (v.begun → v.stage name ≠ .prepareUpdateDone) →
    v'.begun → v'.stage name ≠ .prepareUpdateDone
  entry : ¬v'.begun → v'.entry = v.entry
  reported : v'.reported → v.reported
  marked : v.marked → v'.marked
  begun : v.begun → v'.begun

/-- A component after an operation of the prepare-update on it. -/
def own : Op → UaComponentContext → UaComponentContext
  | .assign _ x, c => Assign.apply x c
  | _, c => c

/-- The view after an operation of the worker. -/
def step (u : UaccPtr) (name m : String) (o : Op) (b : o.Ans) (v : View) : View where
  comp := own o v.comp
  entry := entryStep m v.entry o b
  reported := v.reported ∨ Reports o
  marked := v.marked ∨ Marks u name o
  begun := v.begun

theorem has_cons {t t' : Tid} {Q : Op → Prop} {o : Op} {b : o.Ans} {h : List Event} :
    Has t Q (.did t' o b :: h) ↔ (t' = t ∧ Q o) ∨ Has t Q h := by
  constructor
  · intro ⟨o', b', hmem, hQ⟩
    obtain heq | hmem := List.mem_cons.mp hmem
    · cases heq
      exact Or.inl ⟨rfl, hQ⟩
    · exact Or.inr ⟨o', b', hmem, hQ⟩
  · intro h
    obtain ⟨ht, hQ⟩ | ⟨o', b', hmem, hQ⟩ := h
    · subst ht
      exact ⟨o, b, List.mem_cons_self, hQ⟩
    · exact ⟨o', b', List.mem_cons_of_mem _ hmem, hQ⟩

theorem has_other {t t' : Tid} {Q : Op → Prop} {o : Op} {b : o.Ans} {h : List Event}
    (hne : t' ≠ t) : Has t Q (.did t' o b :: h) ↔ Has t Q h := by
  rw [has_cons]
  exact or_iff_right fun hi => hne hi.1

theorem has_self {t : Tid} {Q : Op → Prop} {o : Op} {b : o.Ans} {h : List Event} :
    Has t Q (.did t o b :: h) ↔ Has t Q h ∨ Q o := by
  rw [has_cons, or_comm]
  simp

theorem effect_cacheDir {t : Tid} {s s' : Shared} {o : Op} {b : o.Ans}
    (h : effect cfg t s o b = some s') : s'.intl.cacheDir = s.intl.cacheDir := by
  have hchange := effect_intl h
  generalize s'.intl = intl at hchange
  cases hchange with
  | assign x => cases x <;> rfl
  | _ => rfl

/-- The operations of a prepare-update change its component only by assignments. -/
theorem effect_own {t : Tid} {s s' : Shared} {o : Op} {b : o.Ans}
    (h : effect cfg t s o b = some s') (ho : Within u prepareKinds o) :
    s'.comp u = own o (s.comp u) := by
  obtain ⟨hon, hkind⟩ := ho
  cases o with
  | assign u' x =>
    obtain rfl := hon u' rfl
    cases h
    exact setComp_self ..
  | ext o =>
    simp only [effect] at h
    split at h
    · cases h
      rfl
    · cases h
  | queryHashTree _ | updateOutgoingSeq _ _ =>
    simp only [effect] at h
    split at h
    · cases h
      rfl
    · cases h
  | assignIntl _ | mark _ =>
    cases h
    rfl
  | mutexLock lock | mutexUnlock lock => cases lock <;> simp [Op.kind, Mutex.kind] at hkind
  | _ => simp [Op.kind] at hkind

theorem worker_step {C : Tid → Event → World → Prop} {o : Op} {b : o.Ans} {w w' : World}
    (ho : Within u prepareKinds o) (hact : (race cfg C).act (.worker u n) o b w w') :
    view u n name m w' = step u name m o b (view u n name m w) := by
  obtain ⟨⟨heffect, htrace⟩, -⟩ := hact
  have hbegun : Has (.runner u) (SetsStage u name) (.did (.worker u n) o b :: w.trace) ↔
      Has (.runner u) (SetsStage u name) w.trace := has_other (by simp)
  simp only [view, step, effect_own heffect ho, htrace, hbegun, has_self]
  rfl

/-- The operations of a confirm-update of the package. -/
def Confirms (u : UaccPtr) (name : String) (o : Op) : Prop :=
  Within u confirmKinds o ∧ (∀ path pkgFile, o ≠ .ext (.addPkgFileManifest path pkgFile)) ∧
  ∀ name' stage, o = .assign u (.updateStage name' stage) →
    name' = some name ∧ stage ≠ .prepareUpdateDone

theorem ignores_updatePkg : Ignores (·.updatePkg) [.pkg, .setContext] where
  assign := by intro x c h; cases x <;> simp_all [Assign.apply, Assign.kind]
  seqIn := fun _ _ _ => rfl
  status := fun _ _ _ => rfl
  setContext := by simp

theorem ignores_updateManifest : Ignores (·.updateManifest) [.manifests, .setContext] where
  assign := by intro x c h; cases x <;> simp_all [Assign.apply, Assign.kind]
  seqIn := fun _ _ _ => rfl
  status := fun _ _ _ => rfl
  setContext := by simp

theorem ignores_stInfo : Ignores (·.stInfo) [.stage, .prepared, .setContext] where
  assign := by intro x c h; cases x <;> simp_all [Assign.apply, Assign.kind]
  seqIn := fun _ _ _ => rfl
  status := fun _ _ _ => rfl
  setContext := by simp

/-- What a confirm-update does to the manifest, it does after it has set a stage. -/
theorem confirms_entry {o : Op} {b : o.Ans} {x : Entry} (ho : Confirms u name o)
    (hremove : ∀ path, o ≠ .remove path) : entryStep m x o b = x := by
  cases o with
  | remove path => exact absurd rfl (hremove path)
  | ext o =>
    cases o with
    | addPkgFileManifest path pkgFile => exact absurd rfl (ho.2.1 path pkgFile)
    | _ => rfl
  | _ => rfl

theorem confirms_written {o : Op} {b : o.Ans} {w w' : World} (ho : Confirms u name o)
    (hact : (race cfg (Harmless u name m)).act (.runner u) o b w w')
    (hwritten : (entry m w.trace).written = true) : entry m w'.trace = entry m w.trace := by
  obtain ⟨⟨-, htrace⟩, hevents⟩ := hact
  have hharmless := hevents _ htrace
  rw [htrace]
  by_cases hremove : ∃ path, o = .remove path
  · obtain ⟨path, rfl⟩ := hremove
    by_cases hpath : path = some m
    · rw [hharmless rfl hpath] at hwritten
      cases hwritten
    · exact if_neg hpath
  · exact confirms_entry ho fun path h => hremove ⟨path, h⟩

/-- An operation of the confirm-update that sets the stage of the package. -/
theorem rely_of_stage {stage : UaStage} {b : Unit} {w w' : World}
    (hstage : stage ≠ .prepareUpdateDone)
    (hact : (race cfg (Harmless u name m)).act (.runner u)
      (.assign u (.updateStage (some name) stage)) b w w') :
    Rely name (view u n name m w) (view u n name m w') := by
  obtain ⟨⟨heffect, htrace⟩, hevents⟩ := hact
  have hharmless := hevents _ htrace rfl rfl rfl
  have hcomp : w'.shared.comp u =
      Assign.apply (.updateStage (some name) stage) (w.shared.comp u) := by
    rw [← Option.some.inj heffect]
    exact setComp_self ..
  have hentry : entry m w'.trace = entry m w.trace := by
    rw [htrace]
    rfl
  have hbegun : (view u n name m w').begun := by
    simp only [view, htrace]
    exact has_self.mpr (Or.inr ⟨rfl, rfl⟩)
  refine ⟨by simp only [view, hcomp]; rfl, by simp only [view, hcomp]; rfl, fun _ => hentry, ?_,
    ?_, fun hnot => absurd hbegun hnot, ?_, ?_, fun _ => hbegun⟩
  · exact fun hdone => absurd hdone hharmless
  · intro _ _
    simp only [View.stage, view, hcomp, Assign.apply, compGetUpdateStage_set, if_true]
    exact hstage
  · simp only [view, htrace]
    exact (has_other (by simp)).mp
  · simp only [view, htrace]
    exact (has_other (by simp)).mpr

/-- Every operation of the confirm-update is one that the worker may rely on. -/
theorem confirms_rely {o : Op} {b : o.Ans} {w w' : World} (ho : Confirms u name o)
    (hbegun : ∀ path, o = .remove path → Has (.runner u) (SetsStage u name) w.trace)
    (hact : (race cfg (Harmless u name m)).act (.runner u) o b w w') :
    Rely name (view u n name m w) (view u n name m w') := by
  by_cases hkind : Op.kind o = .stage
  · obtain ⟨u', name', stage, rfl⟩ := eq_of_kind_stage hkind
    obtain rfl := ho.1.1 u' rfl
    obtain ⟨rfl, hstage⟩ := ho.2.2 name' stage rfl
    exact rely_of_stage hstage hact
  · have hwritten := confirms_written ho hact
    obtain ⟨⟨heffect, htrace⟩, hevents⟩ := hact
    have hks : ∀ k ∈ [Kind.pkg, .manifests, .prepared, .setContext], Op.kind o ≠ k := by
      intro k hk heq
      have hin := ho.1.2
      rw [heq] at hin
      revert k
      simp
    have hstInfo := effect_frame ignores_stInfo heffect (by
      simp [hkind, hks _ (by simp : Kind.prepared ∈ _), hks _ (by simp : Kind.setContext ∈ _)]) u
    have hsets : ¬SetsStage u name o := by
      intro hsets
      unfold SetsStage at hsets
      split at hsets
      · exact hkind rfl
      · exact hsets
    have hbegun_iff : Has (.runner u) (SetsStage u name) w'.trace ↔
        Has (.runner u) (SetsStage u name) w.trace := by
      rw [htrace, has_self]
      exact or_iff_left hsets
    have hstage : (view u n name m w').stage name = (view u n name m w).stage name := by
      simp only [View.stage, view, hstInfo]
    refine ⟨?_, ?_, hwritten, ?_, ?_, ?_, ?_, ?_, hbegun_iff.mpr⟩
    · exact effect_frame ignores_updatePkg heffect (by
        simp [hks _ (by simp : Kind.pkg ∈ _), hks _ (by simp : Kind.setContext ∈ _)]) u
    · exact effect_frame ignores_updateManifest heffect (by
        simp [hks _ (by simp : Kind.manifests ∈ _), hks _ (by simp : Kind.setContext ∈ _)]) u
    · rw [hstage]
      exact fun hdone => ⟨hdone, hbegun_iff.mp⟩
    · rw [hstage]
      exact fun hnot hb => hnot (hbegun_iff.mp hb)
    · intro hnot
      simp only [view, htrace]
      exact confirms_entry ho fun path hpath => hnot (hbegun_iff.mpr (hbegun path hpath))
    · simp only [view, htrace]
      exact (has_other (by simp)).mp
    · simp only [view, htrace]
      exact (has_other (by simp)).mpr

/-! The proof outline of the two handlers. -/

/-- What the worker knows and what the message runner cannot take away. -/
def Settled (name : String) (φ : View → Prop) : Prop := ∀ v v', φ v → Rely name v v' → φ v'

/-- If the package was reported ready, it is prepared: with the entry that was written, or as
it was before while no confirm-update has begun. -/
def Final (name : String) (version : Option String) (v : View) : Prop :=
  v.reported → v.stage name = .prepareUpdateDone ∧
    (v.entry = .there version ∨ v.marked ∧ v.entry = .asBefore ∧ ¬v.begun)

theorem settled_final (version : Option String) : Settled name (Final name version) := by
  intro v v' hfinal hrely hreported
  obtain ⟨hdone, hentry⟩ := hfinal (hrely.reported hreported)
  obtain ⟨hdone', hbegun⟩ := hrely.done hdone
  refine ⟨hdone', ?_⟩
  obtain hthere | ⟨hmarked, hbefore, hnot⟩ := hentry
  · refine Or.inl ((hrely.written ?_).trans hthere)
    rw [hthere]
    rfl
  · have hnot' : ¬v'.begun := fun hb => hnot (hbegun hb)
    exact Or.inr ⟨hrely.marked hmarked, (hrely.entry hnot').trans hbefore, hnot'⟩

variable (cfg u n name m) in
/-- The cache directory stays as it is; the worker relies on the steps of the confirm-update. -/
def outline (cache version : Option String) : Outline (race cfg (Harmless u name m)) where
  inv := fun w => w.shared.intl.cacheDir = cache
  rely := fun t w w' =>
    (t = .worker u n → Rely name (view u n name m w) (view u n name m w')) ∧
    (Has (.runner u) (SetsStage u name) w.trace → Has (.runner u) (SetsStage u name) w'.trace)
  guar := fun _ _ _ => True
  start := fun _ _ _ => False
  post := fun t w => t = .worker u n → Final name version (view u n name m w)

variable {cache version : Option String}

theorem grants {t : Tid} {o : Op} {b : o.Ans} {w w' : World}
    (hinv : (outline cfg u n name m cache version).inv w)
    (hact : (race cfg (Harmless u name m)).act t o b w w')
    (hrely : t ≠ .worker u n → Rely name (view u n name m w) (view u n name m w')) :
    (outline cfg u n name m cache version).Grants t o b w w' where
  inv := (effect_cacheDir hact.1.1).trans hinv
  guar := trivial
  rely := by
    intro t₂ hne _
    refine ⟨fun ht => hrely fun h => hne (ht.trans h.symm), fun hbegun => ?_⟩
    rw [hact.1.2, has_cons]
    exact Or.inr hbegun
  fork := by simp [race]

section Worker

/-- What holds of the view of the worker. -/
def On (u : UaccPtr) (n : Nat) (name m : String) (φ : View → Prop) (w : World) : Prop :=
  φ (view u n name m w)

theorem stable_on {φ : View → Prop} (hφ : Settled name φ) :
    (outline cfg u n name m cache version).Stable (.worker u n) (On u n name m φ) :=
  fun _ _ _ h hrely _ => hφ _ _ h (hrely.1 rfl)

/-- What the worker may assume of the answers: the entry is written, and an entry that is found
has the version asked for. -/
def Fair (m : String) : (o : Op) → o.Ans → Prop
  | .ext (.addPkgFileManifest path _), rc => path = some m → rc = eUaOk
  | .ext (.getPkgFileManifest _ version), reply =>
      ∀ pkgFile, reply = .found pkgFile → pkgFile.version = version
  | _, _ => True

theorem fair_of_act {o : Op} {b : o.Ans} {w w' : World}
    (hact : (race cfg (Harmless u name m)).act (.worker u n) o b w w') : Fair m o b := by
  obtain ⟨⟨heffect, htrace⟩, hevents⟩ := hact
  cases o with
  | ext o =>
    cases o with
    | addPkgFileManifest path pkgFile => exact hevents _ htrace
    | getPkgFileManifest path version =>
      intro pkgFile hreply
      simp only [effect] at heffect
      split at heffect
      · rename_i hpossible
        rw [hreply] at hpossible
        simp only [ExtOp.possible, ManifestReply.possible, Bool.and_eq_true,
          decide_eq_true_eq] at hpossible
        exact hpossible.1.1.2
      · cases heffect
    | _ => trivial
  | _ => trivial

/-- One operation of the prepare-update. -/
theorem op_triple {o : Op} {φ : View → Prop} {ψ : o.Ans → View → Prop}
    (ho : Within u prepareKinds o) (hφ : Settled name φ) (hψ : ∀ b, Settled name (ψ b))
    (h : ∀ b v, Fair m o b → φ v → ψ b (step u name m o b v)) :
    (outline cfg u n name m cache version).Triple (.worker u n) (On u n name m φ)
      (op o) fun b => On u n name m (ψ b) := by
  refine .perform (stable_on hφ) (fun b => stable_on (hψ b)) fun w b w' hinv hw hact => ?_
  refine ⟨grants hinv hact fun hne => absurd rfl hne, ?_⟩
  unfold On
  rw [worker_step ho hact]
  exact h b _ (fair_of_act hact) hw

/-- A part of the prepare-update whose operations keep a fact. -/
theorem part_triple {α : Type} {p : UaProg α} {φ : View → Prop} {G : Op → Prop}
    (hp : p.All G) (hφ : Settled name φ) (hG : ∀ o, G o → Within u prepareKinds o)
    (h : ∀ o b v, G o → φ v → φ (step u name m o b v)) :
    (outline cfg u n name m cache version).Triple (.worker u n) (On u n name m φ) p
      fun a w => On u n name m φ w ∧ p.Returns a := by
  refine .frame (stable_on hφ) (fun o b w w' ho hinv hw hact => ?_) hp
  refine ⟨grants hinv hact fun hne => absurd rfl hne, ?_⟩
  unfold On
  rw [worker_step (hG o ho) hact]
  exact h o b _ ho hw

theorem readComp_triple {α β : Type} {f : UaComponentContext → β} {k : β → UaProg α}
    {φ : View → Prop} {ρ : β → View → Prop} {Q : α → World → Prop} (hφ : Settled name φ)
    (hρ : ∀ v, φ v → ρ (f v.comp) v)
    (hk : ∀ b, (outline cfg u n name m cache version).Triple (.worker u n)
      (On u n name m (ρ b)) (k b) Q) :
    (outline cfg u n name m cache version).Triple (.worker u n) (On u n name m φ)
      (readComp u f >>= k) Q :=
  .read_bind (stable_on hφ) (fun _ _ hw => hρ _ hw) hk

theorem readIntl_triple {α β : Type} {f : UaInternal → β} {k : β → UaProg α} {φ : View → Prop}
    {Q : α → World → Prop} (hφ : Settled name φ)
    (hk : ∀ b, (outline cfg u n name m cache version).Triple (.worker u n)
      (On u n name m φ) (k b) Q) :
    (outline cfg u n name m cache version).Triple (.worker u n) (On u n name m φ)
      (readIntl f >>= k) Q :=
  .read_bind (stable_on hφ) (fun _ _ hw => hw) hk

end Worker

end EsyncUa.ConfirmRaces
