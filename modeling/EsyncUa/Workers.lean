import EsyncUa.Frames
import EsyncUa.Outlines

/-!
Which thread works for a component. A component has one place to work in: the message
runner takes it for a worker that it starts, and the bus client takes it for the thread
that resumes an installation. The code does not keep the two apart; in the runs where they
do not collide, a worker and a resume thread act only while the place is theirs.
-/
namespace EsyncUa.Workers

open EsyncUa.JsonProperties EsyncUa.Components EsyncUa.Records EsyncUa.Programs
open EsyncUa.Operations EsyncUa.Installation EsyncUa.Updater EsyncUa.Messages EsyncUa.Machines
open EsyncUa.Outlines EsyncUa.Agents EsyncUa.Footprints EsyncUa.Frames

def slotStep (u : UaccPtr) : Event → Option Tid → Option Tid
  | .did t (.assign u' (.workerRunning running)) _, p =>
      if u' = u then (if running then some t else none) else p
  | .did _ (.createWorker u') (some n), p => if u' = u then some (.worker u n) else p
  | .did t (.setCompContext u' _) _, p => if u' = u then some t else p
  | .did _ (.createResume u') true, p => if u' = u then some (.resume u) else p
  | .did t (.assignIntl (.state .resumeDone)) _, p => if t = .bus ∧ p = some .bus then none else p
  | .rebooted, _ => none
  | _, p => p

/-- The thread that works for a component, or is about to start the one that will. -/
def slot (u : UaccPtr) : List Event → Option Tid
  | [] => none
  | e :: h => slotStep u e (slot u h)

/-- No installation is resumed for a component while a worker is there, and no worker is
started for a component while an installation is resumed. -/
def NoCollision (t : Tid) (e : Event) (w : World) : Prop :=
  match e with
  | .did _ (.setCompContext u _) _ => slot u w.trace = none
  | .did _ (.assign u (.workerRunning true)) _ =>
      t = .runner u → slot u w.trace = none
  | _ => True

/-- What the thread that has the place of a component may rely on. -/
def Holder (w : World) (u : UaccPtr) : Tid → Prop
  | .runner u' => u' = u ∧ (w.shared.comp u).worker.workerRunning = true
  | .worker u' _ => u' = u ∧ (w.shared.comp u).worker.workerRunning = true ∧
      ProcessF.OnWorker (w.shared.comp u).worker.workerFunc
  | .resume u' => u' = u
  | .bus => True
  | .presence _ | .sequence _ => False

def Held (w : World) : Prop := ∀ u t, slot u w.trace = some t → Holder w u t

/-- The operations of a message runner other than those that start a worker. -/
abbrev passKinds : List Kind := [.seqIn, .dropped, .freeMsg] ++ handlerKinds

abbrev runnerKinds : List Kind := [.workerRunning, .workerArgs, .createWorker] ++ passKinds

abbrev busKinds : List Kind :=
  [.recordLoad, .state, .env, .setContext, .createResume, .stage, .remove, .createPresence,
    .createSequence]

/-- The operations with which a message runner uses the place that it has taken. -/
def UsesPlace (u : UaccPtr) (o : Op) : Prop :=
  Op.kind o ∈ [.workerArgs, .createWorker] ∨ o = .assign u (.workerRunning false)

/-- What a thread does, and only while which component is its own. -/
def Duty (h : List Event) (o : Op) : Tid → Prop
  | .runner u => Within u runnerKinds o ∧
      (UsesPlace u o → slot u h = some (.runner u))
  | .worker u n => Within u (.workerRunning :: workerKinds) o ∧ slot u h = some (.worker u n)
  | .resume u => Within u (.workerRunning :: resumeKinds) o ∧ slot u h = some (.resume u)
  | .bus => Op.kind o ∈ busKinds ∧
      ∀ u, Op.on o = some u → Op.kind o = .setContext ∨ slot u h = some .bus
  | .presence _ => Op.on o = none ∧ Op.kind o = .dmcHandler
  | .sequence _ => Op.on o = none ∧ Op.kind o ∈ [.intlLock, .env, .query, .send, .pass]

def Conduct (t : Tid) (e : Event) (w : World) : Prop :=
  match e with
  | .did t' o _ => t' = t ∧ Duty w.trace o t
  | _ => True

def start (cfg : AgentConfig) (t : Tid) (p : UaProg Unit) (w : World) : Prop :=
  match t with
  | .runner u => (∃ msg, p = runnerPass u msg) ∧ slot u w.trace ≠ some t
  | .worker u _ => p = workerAction u ∧ slot u w.trace = some t
  | .resume u => p = updateResumeFromReboot u ∧ slot u w.trace = some t
  | .bus => (∃ connected, p = handlePresence cfg.nUah connected) ∧ ∀ u, slot u w.trace ≠ some t
  | .presence _ => p = uaHandleDmcPresence
  | .sequence _ => ∃ passes, p = updateSequenceInfo passes

/-- What a thread may rely on when another one makes a step. -/
structure Kept (t : Tid) (w w' : World) : Prop where
  own : ∀ u, slot u w'.trace = some t ↔ slot u w.trace = some t
  free : ∀ u, t = .runner u → (∀ n, slot u w.trace ≠ some (.worker u n)) →
    ∀ n, slot u w'.trace ≠ some (.worker u n)
  worker : ∀ u, t = .runner u → slot u w.trace = some t →
    (w'.shared.comp u).worker = (w.shared.comp u).worker

variable (cfg : AgentConfig) (C : Tid → Event → World → Prop)

/-- The place of a component is held by one thread at a time. -/
def outline : Outline (runsWhere cfg C) where
  inv := Held
  rely := Kept
  guar := WhenEvents Conduct
  start := start cfg
  post := fun t w => ∀ u, slot u w.trace ≠ some t

@[simp] theorem slot_cons (u : UaccPtr) (e : Event) (h : List Event) :
    slot u (e :: h) = slotStep u e (slot u h) := rfl

/-- The kinds of operations that move the place of a component from one thread to another. -/
abbrev slotKinds : List Kind := [.workerRunning, .createWorker, .setContext, .createResume]

theorem slotStep_of_kind {t : Tid} {o : Op} {b : o.Ans} (u : UaccPtr) (p : Option Tid)
    (hkind : Op.kind o ∉ slotKinds) (hstate : Op.kind o = .state → t ≠ .bus) :
    slotStep u (.did t o b) p = p := by
  cases o with
  | assign u' x => cases x <;> simp_all [slotStep, Op.kind, Assign.kind]
  | assignIntl x =>
      cases x with
      | state st => cases st <;> simp_all [slotStep, Op.kind, AssignIntl.kind]
      | _ => rfl
  | createWorker | setCompContext | createResume => simp [Op.kind] at hkind
  | _ => rfl

variable {cfg C} {t : Tid} {o : Op} {b : o.Ans} {w w' : World}

theorem holder_of_worker {u : UaccPtr} {t' : Tid} (h : Holder w u t')
    (hworker : (w'.shared.comp u).worker = (w.shared.comp u).worker) : Holder w' u t' := by
  cases t' with
  | runner u' | worker u' n => simpa only [Holder, hworker] using h
  | resume u' => exact h
  | bus => trivial
  | presence n | sequence => exact h

theorem kept_of_eq (hslot : ∀ u, slot u w'.trace = slot u w.trace)
    (hworker : ∀ u, t = .runner u → (w'.shared.comp u).worker = (w.shared.comp u).worker) :
    Kept t w w' where
  own := fun u => by rw [hslot u]
  free := fun u _ h n => by rw [hslot u]; exact h n
  worker := fun u ht _ => hworker u ht

theorem held_of_eq (h : Held w) (hslot : ∀ u, slot u w'.trace = slot u w.trace)
    (hworker : ∀ u, (w'.shared.comp u).worker = (w.shared.comp u).worker) : Held w' :=
  fun u t' ht => holder_of_worker (h u t' (hslot u ▸ ht)) (hworker u)

theorem conduct_of_duty (htrace : w'.trace = .did t o b :: w.trace) (h : Duty w.trace o t) :
    WhenEvents Conduct t w w' := by
  intro e he
  obtain ⟨rfl, -⟩ := List.cons.inj (htrace.symm.trans he)
  exact ⟨rfl, h⟩

/-- An operation that moves no place. -/
theorem grants_plain (hact : (runsWhere cfg C).act t o b w w') (hheld : Held w)
    (hkind : Op.kind o ∉ .workerArgs :: slotKinds) (hstate : Op.kind o = .state → t ≠ .bus)
    (hduty : Duty w.trace o t) :
    (outline cfg C).Grants t o b w w' ∧ ∀ u, slot u w'.trace = slot u w.trace := by
  obtain ⟨⟨heffect, htrace⟩, -⟩ := hact
  have hslot : ∀ u, slot u w'.trace = slot u w.trace := by
    intro u
    rw [htrace, slot_cons, slotStep_of_kind u _ (fun h => hkind (by simp_all)) hstate]
  have hworker := effect_frame ignores_worker heffect (fun h => hkind (by simp_all))
  refine ⟨⟨held_of_eq hheld hslot hworker, conduct_of_duty htrace hduty,
    fun t₂ _ _ => kept_of_eq hslot fun u _ => hworker u, ?_⟩, hslot⟩
  intro t₂ p _ hfork _
  rcases fork_cases (t := t) hfork with ⟨u, n, he, -⟩ | ⟨u, he, -⟩ | ⟨n, -, rfl, rfl⟩ |
    ⟨n, passes, -, rfl, rfl⟩
  · obtain ⟨-, rfl, -⟩ := Event.did.inj he
    simp [Op.kind] at hkind
  · obtain ⟨-, rfl, -⟩ := Event.did.inj he
    simp [Op.kind] at hkind
  · rfl
  · exact ⟨passes + 1, rfl⟩

/-- An operation on the component `u`, whose place is free or belongs to the acting thread. -/
theorem grants_moving (hact : (runsWhere cfg C).act t o b w w') (hheld : Held w) (u : UaccPtr)
    (hon : Op.on o = some u) (hduty : Duty w.trace o t)
    (hothers : ∀ u', u' ≠ u → slot u' w'.trace = slot u' w.trace)
    (hold : slot u w.trace = none ∨ slot u w.trace = some t)
    (hnew : ∀ t', slot u w'.trace = some t' →
      (t' = t ∨ ∃ p, fork t o b = some (t', p)) ∧ Holder w' u t')
    (hworker : t ≠ .runner u → ∀ n, slot u w'.trace ≠ some (.worker u n))
    (hstart : ∀ t₂ p, fork t o b = some (t₂, p) → start cfg t₂ p w') :
    (outline cfg C).Grants t o b w w' := by
  obtain ⟨⟨heffect, htrace⟩, -⟩ := hact
  have hcomp : ∀ u', u' ≠ u → w'.shared.comp u' = w.shared.comp u' := by
    intro u' hu
    refine effect_other heffect fun h => hu ?_
    exact Option.some.inj (h.symm.trans hon)
  refine ⟨?_, conduct_of_duty htrace hduty, ?_, fun t₂ p _ hfork _ => hstart t₂ p hfork⟩
  · intro u' t' ht
    by_cases hu : u' = u
    · subst hu
      exact (hnew t' ht).2
    · refine holder_of_worker (hheld u' t' (hothers u' hu ▸ ht)) ?_
      rw [hcomp u' hu]
  · intro t₂ hne hfork
    have hslot : slot u w'.trace ≠ some t₂ ∧ slot u w.trace ≠ some t₂ := by
      constructor
      · intro h
        rcases (hnew t₂ h).1 with rfl | ⟨p, hp⟩
        · exact hne rfl
        · exact hfork p hp
      · intro h
        rcases hold with h' | h' <;> simp_all
    refine ⟨fun u' => ?_, fun u' ht hfree n => ?_, fun u' ht hown => ?_⟩
    · by_cases hu : u' = u
      · subst hu
        simp [hslot]
      · rw [hothers u' hu]
    · by_cases hu : u' = u
      · subst hu
        exact hworker (fun h => hne (ht.trans h.symm)) n
      · rw [hothers u' hu]
        exact hfree n
    · by_cases hu : u' = u
      · subst hu
        exact absurd hown hslot.2
      · rw [hcomp u' hu]

theorem slotStep_other {u u' : UaccPtr} (hon : Op.on o = some u) (hu : u' ≠ u) (p : Option Tid) :
    slotStep u' (.did t o b) p = p := by
  have hne : u ≠ u' := fun h => hu h.symm
  cases o with
  | assign u₁ x =>
      obtain rfl : u₁ = u := Option.some.inj hon
      cases x <;> simp [slotStep, hne]
  | createWorker u₁ =>
      obtain rfl : u₁ = u := Option.some.inj hon
      cases b <;> simp [slotStep, hne]
  | createResume u₁ =>
      obtain rfl : u₁ = u := Option.some.inj hon
      cases b <;> simp [slotStep, hne]
  | setCompContext u₁ cc =>
      obtain rfl : u₁ = u := Option.some.inj hon
      simp [slotStep, hne]
  | assignIntl x => simp [Op.on] at hon
  | _ => rfl

section Threads

variable (hC : ∀ t e w, C t e w → NoCollision t e w) {α : Type}

theorem stable_own (t : Tid) (u : UaccPtr) :
    (outline cfg C).Stable t fun w => slot u w.trace = some t :=
  fun _ _ _ h hkept _ => (hkept.own u).mpr h

theorem stable_other (t : Tid) : (outline cfg C).Stable t fun w => ∀ u, slot u w.trace ≠ some t :=
  fun _ _ _ h hkept _ u hu => h u ((hkept.own u).mp hu)

/-- A program that moves no place, for a thread whose duty holds as long as `P` does. -/
theorem frame_plain {p : UaProg α} {P : World → Prop} {ks : List Kind}
    (hp : p.All fun o => Op.kind o ∈ ks ∧ ∀ w, P w → Duty w.trace o t)
    (hks : ∀ k ∈ ks, k ∉ .workerArgs :: slotKinds ∧ (k = .state → t ≠ .bus))
    (hstable : (outline cfg C).Stable t P)
    (hslot : ∀ w w', (∀ u, slot u w'.trace = slot u w.trace) → P w → P w') :
    (outline cfg C).Triple t P p fun a w => P w ∧ p.Returns a := by
  refine Outline.Triple.frame hstable (fun o b w w' ho hheld hP hact => ?_) hp
  obtain ⟨hkind, hstate⟩ := hks _ ho.1
  obtain ⟨hgrants, heq⟩ := grants_plain hact hheld hkind hstate (ho.2 w hP)
  exact ⟨hgrants, hslot w w' heq hP⟩

theorem duty_runner {u : UaccPtr} {ks : List Kind} {h : List Event} (ho : Within u ks o)
    (hks : ks ⊆ passKinds) : Duty h o (.runner u) := by
  have hpass : passKinds ⊆ runnerKinds := by decide
  have hplain : ∀ k ∈ passKinds, k ∉ [.workerRunning, .workerArgs, .createWorker] := by decide
  have hkind := hplain _ (hks ho.2)
  refine ⟨⟨ho.1, hpass (hks ho.2)⟩, fun huses => ?_⟩
  rcases huses with huses | rfl
  · exact absurd (List.mem_cons_of_mem _ huses) hkind
  · simp [Op.kind, Assign.kind] at hkind

theorem runner_plain {u : UaccPtr} {p : UaProg α} {ks : List Kind} (hp : p.All (Within u ks))
    (hks : ks ⊆ passKinds) {P : World → Prop} (hstable : (outline cfg C).Stable (.runner u) P)
    (hslot : ∀ w w', (∀ u, slot u w'.trace = slot u w.trace) → P w → P w') :
    (outline cfg C).Triple (.runner u) P p fun _ w => P w := by
  have hplain : ∀ k ∈ passKinds, k ∉ .workerArgs :: slotKinds ∧ k ≠ .state := by decide
  refine (frame_plain (hp.mono fun o ho => ⟨ho.2, fun w _ => duty_runner ho hks⟩) ?_ hstable
    hslot).post fun a w _ h => h.1
  intro k hk
  obtain ⟨hslotk, hstate⟩ := hplain k (hks hk)
  exact ⟨hslotk, fun h => absurd h hstate⟩


/-- The place of the component is free for a new worker. -/
def Vacant (u : UaccPtr) (w : World) : Prop :=
  (∀ u', slot u' w.trace ≠ some (.runner u)) ∧ ∀ n, slot u w.trace ≠ some (.worker u n)

/-- The message runner has taken the place, for a worker that will run `func`. -/
def Claimed (u : UaccPtr) (func : Option ProcessF) (w : World) : Prop :=
  slot u w.trace = some (.runner u) ∧ ∀ f ∈ func, (w.shared.comp u).worker.workerFunc = f

theorem stable_vacant (u : UaccPtr) : (outline cfg C).Stable (.runner u) (Vacant u) :=
  fun w w' hheld h hkept hheld' =>
    ⟨stable_other (.runner u) w w' hheld h.1 hkept hheld', hkept.free u rfl h.2⟩

theorem stable_claimed (u : UaccPtr) (func : Option ProcessF) :
    (outline cfg C).Stable (.runner u) (Claimed u func) :=
  fun _ _ _ h hkept _ =>
    ⟨(hkept.own u).mpr h.1, by rw [hkept.worker u rfl h.1]; exact h.2⟩

/-- A thread has the place of its own component only. -/
theorem other_of_held (hheld : Held w) {u : UaccPtr} (h : slot u w.trace ≠ some (.runner u))
    (u' : UaccPtr) : slot u' w.trace ≠ some (.runner u) := by
  intro hu
  obtain ⟨rfl, -⟩ := hheld u' _ hu
  exact h hu

include hC in
theorem claim_place (u : UaccPtr) :
    (outline cfg C).Triple (.runner u) (Vacant u) (assign u (.workerRunning true))
      fun _ => Claimed u none := by
  refine Outline.Triple.perform (stable_vacant u) (fun _ => stable_claimed u none) ?_
  intro w b w' hheld hvacant hact
  have hact' := hact
  obtain ⟨⟨heffect, htrace⟩, hcond⟩ := hact'
  have hnone : slot u w.trace = none := hC _ _ _ (hcond _ htrace) rfl
  have hslot : slot u w'.trace = some (.runner u) := by simp [htrace, slotStep]
  have hrunning : (w'.shared.comp u).worker.workerRunning = true := by
    simp only [effect, Option.some.injEq] at heffect
    simp [← heffect, Assign.apply]
  refine ⟨grants_moving hact hheld u rfl ⟨⟨?_, by simp [Op.kind, Assign.kind]⟩, ?_⟩ ?_
    (.inl hnone) ?_ (fun h => absurd rfl h) ?_, hslot, by simp⟩
  · simp [Op.on]
  · simp [UsesPlace, Op.kind, Assign.kind]
  · intro u' hu
    rw [htrace, slot_cons, slotStep_other (u := u) rfl hu]
  · intro t' ht
    obtain rfl := Option.some.inj (hslot.symm.trans ht)
    exact ⟨.inl rfl, rfl, hrunning⟩
  · simp [fork]

theorem fill_place (u : UaccPtr) (x : Assign) (func func' : Option ProcessF)
    (hkind : Assign.kind x = .workerArgs)
    (hfunc : ∀ c f, (∀ f ∈ func, c.worker.workerFunc = f) → f ∈ func' →
      (Assign.apply x c).worker.workerFunc = f) :
    (outline cfg C).Triple (.runner u) (Claimed u func) (assign u x)
      fun _ => Claimed u func' := by
  refine Outline.Triple.perform (stable_claimed u func) (fun _ => stable_claimed u func') ?_
  intro w b w' hheld hclaimed hact
  have hact' := hact
  obtain ⟨⟨heffect, htrace⟩, -⟩ := hact'
  have hslots : ∀ u', slot u' w'.trace = slot u' w.trace := by
    intro u'
    rw [htrace, slot_cons, slotStep_of_kind u' _ (by simp [Op.kind, hkind])
      (by simp [Op.kind, hkind])]
  have hcomp : w'.shared.comp u = Assign.apply x (w.shared.comp u) := by
    simp only [effect, Option.some.injEq] at heffect
    simp [← heffect]
  have hrunning : (w'.shared.comp u).worker.workerRunning = true := by
    have := (hheld u _ hclaimed.1).2
    rw [hcomp]
    cases x <;> simp_all [Assign.kind, Assign.apply]
  refine ⟨grants_moving hact hheld u rfl ⟨⟨?_, by simp [Op.kind, hkind]⟩, fun _ => hclaimed.1⟩
    (fun u' _ => hslots u') (.inr hclaimed.1) ?_ (fun h => absurd rfl h) ?_, ?_, ?_⟩
  · simp [Op.on]
  · intro t' ht
    obtain rfl := Option.some.inj ((hslots u ▸ hclaimed.1).symm.trans ht)
    exact ⟨.inl rfl, rfl, hrunning⟩
  · simp [fork]
  · rw [hslots u]
    exact hclaimed.1
  · intro f hf
    rw [hcomp]
    exact hfunc _ f hclaimed.2 hf

theorem give_place (u : UaccPtr) (func : ProcessF) (hfunc : ProcessF.OnWorker func) :
    (outline cfg C).Triple (.runner u) (Claimed u (some func)) (op (.createWorker u))
      fun b w => (b.isNone → Claimed u (some func) w) ∧
        (b.isSome → ∀ u', slot u' w.trace ≠ some (.runner u)) := by
  refine Outline.Triple.perform (stable_claimed u _) (fun b => ?_) ?_
  · intro w w' hheld h hkept hheld'
    exact ⟨fun hb => stable_claimed u _ w w' hheld (h.1 hb) hkept hheld',
      fun hb => stable_other (.runner u) w w' hheld (h.2 hb) hkept hheld'⟩
  intro w b w' hheld hclaimed hact
  have hact' := hact
  obtain ⟨⟨heffect, htrace⟩, -⟩ := hact'
  have hcomp : w'.shared = w.shared := by
    simp only [effect, Option.some.injEq] at heffect
    exact heffect.symm
  have hrunning := (hheld u _ hclaimed.1).2
  have hothers : ∀ u', u' ≠ u → slot u' w'.trace = slot u' w.trace := by
    intro u' hu
    rw [htrace, slot_cons, slotStep_other (u := u) rfl hu]
  have hduty : Duty w.trace (.createWorker u) (.runner u) :=
    ⟨⟨by simp [Op.on], by simp [Op.kind]⟩, fun _ => hclaimed.1⟩
  cases b with
  | none =>
      have hslot : slot u w'.trace = some (.runner u) := by
        rw [htrace]
        exact hclaimed.1
      refine ⟨grants_moving hact hheld u rfl hduty hothers (.inr hclaimed.1) ?_
        (fun h => absurd rfl h) (by simp [fork]), fun _ => ⟨hslot, ?_⟩, by simp⟩
      · intro t' ht
        obtain rfl := Option.some.inj (hslot.symm.trans ht)
        exact ⟨.inl rfl, rfl, by rw [hcomp]; exact hrunning⟩
      · rw [hcomp]
        exact hclaimed.2
  | some n =>
      have hslot : slot u w'.trace = some (.worker u n) := by simp [htrace, slotStep]
      have hgrants := grants_moving hact hheld u rfl hduty hothers (.inr hclaimed.1) (by
        intro t' ht
        obtain rfl := Option.some.inj (hslot.symm.trans ht)
        refine ⟨.inr ⟨_, rfl⟩, rfl, by rw [hcomp]; exact hrunning, ?_⟩
        rw [hcomp, hclaimed.2 func rfl]
        exact hfunc) (fun h => absurd rfl h) (by
        intro t₂ p hfork
        simp only [fork, Option.some.injEq, Prod.mk.injEq] at hfork
        obtain ⟨rfl, rfl⟩ := hfork
        exact ⟨rfl, hslot⟩)
      exact ⟨hgrants, by simp, fun _ => other_of_held hgrants.inv (by simp [hslot])⟩

/-- Whoever has the place gives it back. -/
theorem release_place (t : Tid) (u : UaccPtr) {P : World → Prop}
    (hstable : (outline cfg C).Stable t P) (hP : ∀ w, P w → slot u w.trace = some t)
    (hduty : ∀ w, P w → Duty w.trace (.assign u (.workerRunning false)) t)
    (hunique : ∀ w u', Held w → slot u' w.trace = some t → u' = u) :
    (outline cfg C).Triple t P (assign u (.workerRunning false))
      fun _ w => ∀ u', slot u' w.trace ≠ some t := by
  refine Outline.Triple.perform hstable (fun _ => stable_other t) ?_
  intro w b w' hheld hw hact
  have hact' := hact
  obtain ⟨⟨heffect, htrace⟩, -⟩ := hact'
  have hslot : slot u w'.trace = none := by simp [htrace, slotStep]
  have hgrants := grants_moving hact hheld u rfl (hduty w hw) (by
    intro u' hu
    rw [htrace, slot_cons, slotStep_other (u := u) rfl hu]) (.inr (hP w hw)) (by
    intro t' ht
    simp [hslot] at ht) (by simp [hslot]) (by simp [fork])
  refine ⟨hgrants, fun u' hu' => ?_⟩
  obtain rfl := hunique w' u' hgrants.inv hu'
  simp [hslot] at hu'

theorem stable_free (u : UaccPtr) : (outline cfg C).Stable (.runner u) fun w =>
    ∀ u', slot u' w.trace ≠ some (.runner u) := stable_other (.runner u)

theorem runner_free {u : UaccPtr} {p : UaProg α} {ks : List Kind} (hp : p.All (Within u ks))
    (hks : ks ⊆ passKinds) :
    (outline cfg C).Triple (.runner u) (fun w => ∀ u', slot u' w.trace ≠ some (.runner u)) p
      fun _ w => ∀ u', slot u' w.trace ≠ some (.runner u) :=
  runner_plain hp hks (stable_free u) fun _ _ hslot h u' => by rw [hslot u']; exact h u'

include hC in
theorem claimWorker_triple (u : UaccPtr) (func : ProcessF) (hfunc : ProcessF.OnWorker func)
    (jObj : Json) : (outline cfg C).Triple (.runner u) (Vacant u) (claimWorker u func jObj)
      fun _ w => ∀ u', slot u' w.trace ≠ some (.runner u) := by
  refine .bind (claim_place hC u) fun _ => ?_
  refine .bind (fill_place u (.workerFunc func) none (some func) rfl ?_) fun _ => ?_
  · intro c f _ hf
    exact Option.some.inj hf
  refine .bind (fill_place u (.workerJobj (some jObj)) (some func) (some func) rfl ?_) fun _ => ?_
  · intro c f hc hf
    exact hc f hf
  refine .bind (give_place u func hfunc) fun thread => ?_
  refine Outline.Triple.ite (fun hnone => ?_) fun hsome => ?_
  · refine (release_place (.runner u) u (stable_claimed u (some func)) (fun w h => h.1) ?_ ?_).pre
      fun w _ h => h.1 hnone
    · exact fun w h => ⟨⟨by simp [Op.on], by simp [Op.kind, Assign.kind]⟩, fun _ => h.1⟩
    · exact fun w u' hheld hu' => (hheld u' _ hu').1.symm
  · refine (Outline.Triple.pure (stable_free u) fun w _ h => h).pre fun w _ h => ?_
    exact h.2 (by cases thread <;> simp_all)

include hC in
theorem startWorker_triple (u : UaccPtr) (func : ProcessF) (hfunc : ProcessF.OnWorker func)
    (jObj : Json) :
    (outline cfg C).Triple (.runner u) (fun w => ∀ u', slot u' w.trace ≠ some (.runner u))
      (startWorker u func jObj) fun _ w => ∀ u', slot u' w.trace ≠ some (.runner u) := by
  refine Outline.Triple.read_bind (stable_free u)
    (R := fun busy w => (∀ u', slot u' w.trace ≠ some (.runner u)) ∧
      (busy = false → ∀ n, slot u w.trace ≠ some (.worker u n))) ?_ fun busy => ?_
  · intro w hheld hw
    refine ⟨hw, fun hbusy n hn => ?_⟩
    have hrunning := (hheld u _ hn).2.1
    exact Bool.false_ne_true (hbusy.symm.trans hrunning)
  refine Outline.Triple.ite (fun hbusy => ?_) fun hbusy => ?_
  · have hmark : (mark (.workerBusy u jObj)).All (Within u [.dropped]) := by
      simp [Within, Op.on, Op.kind, Mark.kind]
    exact (runner_free hmark (by decide)).pre fun w _ h => h.1
  · exact (claimWorker_triple hC u func hfunc jObj).pre fun w _ h =>
      ⟨h.1, h.2 (by simpa using hbusy)⟩

theorem runner_read {f : UaProg α} {u : UaccPtr} (hf : ∀ Q, f.All Q) :
    (outline cfg C).Triple (.runner u) (fun w => ∀ u', slot u' w.trace ≠ some (.runner u)) f
      fun _ w => ∀ u', slot u' w.trace ≠ some (.runner u) :=
  runner_free (hf (Within u [])) (by decide)

include hC in
theorem dispatchType_triple (u : UaccPtr) (jObj : Json) (type : Option String) :
    (outline cfg C).Triple (.runner u) (fun w => ∀ u', slot u' w.trace ≠ some (.runner u))
      (dispatchType u jObj type) fun _ w => ∀ u', slot u' w.trace ≠ some (.runner u) := by
  refine .bind (runner_read fun Q => all_readIntl _) fun asyncQueryPackage => ?_
  have horCrash : (orCrash type).All (Within u [.env]) := by
    simp [Within, Op.on, Op.kind, ExtOp.kind]
  refine .bind (runner_free horCrash (by decide)) fun type => ?_
  cases hhandler : handlerOf asyncQueryPackage type with
  | none => exact .pure (stable_free u) fun w _ h => h
  | some handler =>
      obtain ⟨func, turnover⟩ := handler
      cases turnover with
      | true => exact startWorker_triple hC u func (handlerOf_worker hhandler) jObj
      | false =>
          obtain ⟨hready, hprepare⟩ := handlerOf_runner hhandler
          exact runner_free (call_within_runner u hready hprepare jObj) (by decide)

include hC in
theorem runnerPass_triple (u : UaccPtr) (msg : Option Json) :
    (outline cfg C).Triple (.runner u) (fun w => ∀ u', slot u' w.trace ≠ some (.runner u))
      (runnerPass u msg) fun _ w => ∀ u', slot u' w.trace ≠ some (.runner u) := by
  have hfree : (ext (.freeMsg u)).All (Within u [.freeMsg]) := by
    simp [Within, Op.on, Op.kind, ExtOp.kind]
  refine .bind ?_ fun _ => runner_free hfree (by decide)
  cases msg with
  | none => exact .pure (stable_free u) fun w _ h => h
  | some jObj =>
      have houtdated : (isOutdated u jObj).All (Within u [.env, .seqIn]) := by
        simp [isOutdated, Within, Op.on, Op.kind, ExtOp.kind]
      refine .bind (runner_free houtdated (by decide)) fun outdated => ?_
      refine Outline.Triple.ite (fun _ => ?_) fun _ => .pure (stable_free u) fun w _ h => h
      refine .bind (runner_read fun Q => all_readComp u _) fun uar => ?_
      have hmessage : (if uar.onMessage then
          callback u .onMessage ⟨(getTypeFromJson jObj).2, none, none, none, false⟩
          else pure false).All (Within u [.env]) := by
        simp [Within, Op.on, Op.kind, ExtOp.kind]
      refine .bind (runner_free hmessage (by decide)) fun processed => ?_
      refine Outline.Triple.ite (fun _ => ?_) fun _ => .pure (stable_free u) fun w _ h => h
      exact dispatchType_triple hC u jObj _

/-- A program of a worker or a resume thread that keeps its place. -/
theorem owner_plain {u : UaccPtr} {t : Tid} {p : UaProg α} {ks : List Kind}
    (hp : p.All (Within u ks))
    (hks : ∀ k ∈ ks, k ∉ .workerArgs :: slotKinds ∧ (k = .state → t ≠ .bus))
    (hduty : ∀ o h, Within u ks o → slot u h = some t → Duty h o t) :
    (outline cfg C).Triple t (fun w => slot u w.trace = some t) p
      fun _ w => slot u w.trace = some t := by
  refine (frame_plain (hp.mono fun o ho => ⟨ho.2, fun w hw => hduty o w.trace ho hw⟩) hks
    (stable_own t u) ?_).post fun a w _ h => h.1
  exact fun w w' hslot h => (hslot u).trans h

theorem workerAction_triple (u : UaccPtr) (n : Nat) :
    (outline cfg C).Triple (.worker u n) (fun w => slot u w.trace = some (.worker u n))
      (workerAction u) fun _ w => ∀ u', slot u' w.trace ≠ some (.worker u n) := by
  have hown : (outline cfg C).Stable (.worker u n) _ := stable_own (.worker u n) u
  have hplain : ∀ k ∈ workerKinds,
      k ∉ .workerArgs :: slotKinds ∧ (k = .state → Tid.worker u n ≠ .bus) := by
    have h : ∀ k ∈ workerKinds, k ∉ .workerArgs :: slotKinds := by decide
    exact fun k hk => ⟨h k hk, by simp⟩
  refine Outline.Triple.read_bind hown
    (R := fun func w => ProcessF.OnWorker func ∧ slot u w.trace = some (.worker u n)) ?_
    fun func => ?_
  · exact fun w hheld hw => ⟨(hheld u _ hw).2.2, hw⟩
  refine Outline.Triple.const_pre fun hfunc => ?_
  refine Outline.Triple.read_bind hown (R := fun _ w => slot u w.trace = some (.worker u n))
    (fun w _ hw => hw) fun jObj => ?_
  have hduty : ∀ o h, Within u workerKinds o → slot u h = some (.worker u n) →
      Duty h o (.worker u n) :=
    fun o h ho hslot => ⟨⟨ho.1, List.mem_cons_of_mem _ ho.2⟩, hslot⟩
  have horCrash : (orCrash jObj).All (Within u workerKinds) := by
    simp [Within, Op.on, Op.kind, ExtOp.kind]
  refine .bind (owner_plain horCrash hplain hduty) fun jsonObj => ?_
  refine .bind (owner_plain (call_within_worker u hfunc jsonObj) hplain hduty) fun _ => ?_
  refine release_place (.worker u n) u hown (fun w h => h) (fun w h => ⟨?_, h⟩) ?_
  · simp [Within, Op.on, Op.kind, Assign.kind]
  · exact fun w u' hheld hu' => (hheld u' _ hu').1.symm

theorem resume_triple (u : UaccPtr) :
    (outline cfg C).Triple (.resume u) (fun w => slot u w.trace = some (.resume u))
      (updateResumeFromReboot u) fun _ w => ∀ u', slot u' w.trace ≠ some (.resume u) := by
  have hown : (outline cfg C).Stable (.resume u) _ := stable_own (.resume u) u
  have hduty : ∀ v h, slot u h = some (.resume u) →
      Duty h (.assign u (.workerRunning v)) (.resume u) :=
    fun v h hslot => ⟨by simp [Within, Op.on, Op.kind, Assign.kind], hslot⟩
  refine .bind (R := fun _ w => slot u w.trace = some (.resume u)) ?_ fun _ => ?_
  · refine Outline.Triple.perform hown (fun _ => hown) ?_
    intro w b w' hheld hw hact
    have hact' := hact
    obtain ⟨⟨-, htrace⟩, -⟩ := hact'
    have hslot : slot u w'.trace = some (.resume u) := by simp [htrace, slotStep]
    refine ⟨grants_moving hact hheld u rfl (hduty true _ hw) ?_ (.inr hw) ?_ ?_ ?_, hslot⟩
    · intro u' hu
      rw [htrace, slot_cons, slotStep_other (u := u) rfl hu]
    · intro t' ht
      obtain rfl := Option.some.inj (hslot.symm.trans ht)
      exact ⟨.inl rfl, rfl⟩
    · simp [hslot]
    · simp [fork]
  have hplain : ∀ k ∈ resumeKinds,
      k ∉ .workerArgs :: slotKinds ∧ (k = .state → Tid.resume u ≠ .bus) := by
    have h : ∀ k ∈ resumeKinds, k ∉ .workerArgs :: slotKinds := by decide
    exact fun k hk => ⟨h k hk, by simp⟩
  refine .bind (owner_plain (resumeInstallation_within u resumeKinds (fun k hk => hk)) hplain ?_)
    fun _ => ?_
  · exact fun o h ho hslot => ⟨⟨ho.1, List.mem_cons_of_mem _ ho.2⟩, hslot⟩
  · refine release_place (.resume u) u hown (fun w h => h) (fun w h => hduty false _ h) ?_
    exact fun w u' hheld hu' => (hheld u' _ hu').symm

/-- The bus client has the place of at most the component `u`. -/
def BusHas (u : Option UaccPtr) (w : World) : Prop :=
  ∀ u', slot u' w.trace = some .bus ↔ u = some u'

theorem stable_busHas (u : Option UaccPtr) : (outline cfg C).Stable .bus (BusHas u) :=
  fun _ _ _ h hkept _ u' => (hkept.own u').trans (h u')

theorem bus_plain {p : UaProg α} {ks : List Kind} (u : Option UaccPtr)
    (hp : p.All fun o => Op.kind o ∈ ks ∧ ∀ u', Op.on o = some u' → u = some u')
    (hks : ks ⊆ [.recordLoad, .env, .stage, .remove, .createPresence, .createSequence]) :
    (outline cfg C).Triple .bus (BusHas u) p fun _ w => BusHas u w := by
  have hplain : ∀ k ∈ [Kind.recordLoad, .env, .stage, .remove, .createPresence, .createSequence],
      k ∉ .workerArgs :: slotKinds ∧ k ≠ .state ∧ k ∈ busKinds := by decide
  have hduty : ∀ o, Op.kind o ∈ ks ∧ (∀ u', Op.on o = some u' → u = some u') →
      Op.kind o ∈ ks ∧ ∀ w, BusHas u w → Duty w.trace o .bus :=
    fun o ho => ⟨ho.1, fun w hw =>
      ⟨(hplain _ (hks ho.1)).2.2, fun u' hu' => .inr ((hw u').mpr (ho.2 u' hu'))⟩⟩
  refine (frame_plain (hp.mono hduty) ?_ (stable_busHas u) ?_).post fun a w _ h => h.1
  · exact fun k hk => ⟨(hplain k (hks hk)).1, fun h => absurd h (hplain k (hks hk)).2.1⟩
  · exact fun w w' hslot h u' => by rw [hslot u']; exact h u'

/-- The end of a resume gives back the place, if the bus client still has one. -/
theorem bus_state (u u₂ : Option UaccPtr) (st : UaInternalState)
    (hu : u₂ = if st = .resumeDone then none else u) :
    (outline cfg C).Triple .bus (BusHas u) (assignIntl (.state st)) fun _ w => BusHas u₂ w := by
  refine Outline.Triple.perform (stable_busHas u) (fun _ => stable_busHas u₂) ?_
  intro w b w' hheld hw ⟨⟨heffect, htrace⟩, _⟩
  have hcomp : w'.shared.comp = w.shared.comp := by
    simp only [effect, Option.some.injEq] at heffect
    rw [← heffect]
    rfl
  have hslot : ∀ u', slot u' w'.trace =
      if st = .resumeDone ∧ slot u' w.trace = some .bus then none else slot u' w.trace := by
    intro u'
    rw [htrace, slot_cons]
    cases st <;> simp [slotStep]
  have hsame : ∀ u' t', t' ≠ .bus → (slot u' w'.trace = some t' ↔ slot u' w.trace = some t') := by
    intro u' t' ht
    rw [hslot u']
    split
    · rename_i h
      simp [h.2, ht.symm]
    · rfl
  refine ⟨⟨?_, conduct_of_duty htrace ⟨by simp [Op.kind, AssignIntl.kind], by simp [Op.on]⟩, ?_,
    fun t₂ p _ hfork => by cases hfork⟩, ?_⟩
  · intro u' t' ht
    have hold : slot u' w.trace = some t' := by
      rw [hslot u'] at ht
      split at ht
      · simp at ht
      · exact ht
    exact holder_of_worker (hheld u' t' hold) (by rw [hcomp])
  · intro t₂ hne _
    refine ⟨fun u' => hsame u' t₂ hne, fun u' _ h n => ?_, fun u' _ _ => by rw [hcomp]⟩
    rw [Ne, hsame u' _ (by simp)]
    exact h n
  · intro u'
    rw [hslot u', hu]
    by_cases hst : st = .resumeDone
    · by_cases hbus : slot u' w.trace = some .bus <;> simp [hst, hbus]
    · simpa [hst] using hw u'

include hC in
theorem bus_claim (u : UaccPtr) (cc : Json) :
    (outline cfg C).Triple .bus (BusHas none) (op (.setCompContext u cc))
      fun _ w => BusHas (some u) w := by
  refine Outline.Triple.perform (stable_busHas none) (fun _ => stable_busHas (some u)) ?_
  intro w b w' hheld hw hact
  have hact' := hact
  obtain ⟨⟨-, htrace⟩, hcond⟩ := hact'
  have hnone : slot u w.trace = none := hC _ _ _ (hcond _ htrace)
  have hslot : slot u w'.trace = some .bus := by simp [htrace, slotStep]
  have hothers : ∀ u', u' ≠ u → slot u' w'.trace = slot u' w.trace := by
    intro u' hu
    rw [htrace, slot_cons, slotStep_other (u := u) rfl hu]
  refine ⟨grants_moving hact hheld u rfl ⟨by simp [Op.kind], fun _ _ => .inl rfl⟩ hothers
    (.inl hnone) ?_ (by simp [hslot]) (by simp [fork]), fun u' => ?_⟩
  · intro t' ht
    obtain rfl := Option.some.inj (hslot.symm.trans ht)
    exact ⟨.inl rfl, trivial⟩
  · by_cases hu : u' = u
    · simp [hu, hslot]
    · rw [hothers u' hu, hw u']
      simp [Ne.symm hu]

theorem bus_give (u : UaccPtr) :
    (outline cfg C).Triple .bus (BusHas (some u)) (op (.createResume u))
      fun started w => BusHas (if started then none else some u) w := by
  refine Outline.Triple.perform (stable_busHas (some u)) (fun _ => stable_busHas _) ?_
  intro w b w' hheld hw hact
  have hact' := hact
  obtain ⟨⟨-, htrace⟩, -⟩ := hact'
  have hbus := (hw u).mpr rfl
  have hduty : Duty w.trace (.createResume u) .bus :=
    ⟨by simp [Op.kind], fun u' hu' => .inr ((hw u').mpr hu')⟩
  have hothers : ∀ u', u' ≠ u → slot u' w'.trace = slot u' w.trace := by
    intro u' hu
    rw [htrace, slot_cons, slotStep_other (u := u) rfl hu]
  cases b with
  | false =>
      have hslot : slot u w'.trace = some .bus := by rw [htrace]; exact hbus
      refine ⟨grants_moving hact hheld u rfl hduty hothers (.inr hbus) ?_ (by simp [hslot])
        (by simp [fork]), fun u' => ?_⟩
      · intro t' ht
        obtain rfl := Option.some.inj (hslot.symm.trans ht)
        exact ⟨.inl rfl, trivial⟩
      · by_cases hu : u' = u
        · simp [hu, hslot]
        · rw [hothers u' hu]
          exact hw u'
  | true =>
      have hslot : slot u w'.trace = some (.resume u) := by simp [htrace, slotStep]
      refine ⟨grants_moving hact hheld u rfl hduty hothers (.inr hbus) ?_ (by simp [hslot]) ?_,
        fun u' => ?_⟩
      · intro t' ht
        obtain rfl := Option.some.inj (hslot.symm.trans ht)
        exact ⟨.inr ⟨_, rfl⟩, rfl⟩
      · intro t₂ p hfork
        simp only [fork, Option.some.injEq, Prod.mk.injEq] at hfork
        obtain ⟨rfl, rfl⟩ := hfork
        exact ⟨rfl, hslot⟩
      · by_cases hu : u' = u
        · simp [hu, hslot]
        · rw [hothers u' hu, hw u']
          simp [Ne.symm hu]

include hC in
theorem resumeComponent_triple (u : UaccPtr) (cc : Json) :
    (outline cfg C).Triple .bus (BusHas none) (resumeComponent u cc)
      fun err w => ∃ u', (err ≠ eUaErr → u' = none) ∧ BusHas u' w := by
  have hdone : ∀ (v : Option UaccPtr) (err : Rc), (err ≠ eUaErr → v = none) →
      (outline cfg C).Triple .bus (BusHas v) (Prog.pure err)
        fun err w => ∃ u', (err ≠ eUaErr → u' = none) ∧ BusHas u' w :=
    fun v err h => .pure (stable_busHas v) fun w _ hw => ⟨v, h, hw⟩
  refine .bind (bus_claim hC u cc) fun err => ?_
  refine Outline.Triple.ite (fun _ => ?_) fun _ => hdone (some u) eUaErr (by simp)
  refine .bind (bus_give u) fun started => ?_
  refine Outline.Triple.ite (fun hstarted => ?_) fun hstarted => ?_
  · simpa [hstarted] using hdone none eUaOk (by simp)
  · have hstage : ∀ name, (assign u (.updateStage name .unknown)).All fun o =>
        Op.kind o ∈ [Kind.stage] ∧ ∀ u', Op.on o = some u' → some u = some u' := by
      simp [Op.kind, Assign.kind, Op.on]
    refine Outline.Triple.read_bind (stable_busHas _) (R := fun _ w => BusHas (some u) w)
      (fun w _ hw => by simpa [hstarted] using hw) fun name => ?_
    exact .bind (bus_plain (some u) (hstage name) (by decide)) fun _ =>
      hdone (some u) eUaErr (by simp)

include hC in
theorem handlePresence_triple (n : Nat) (connected : Bool) :
    (outline cfg C).Triple .bus (BusHas none) (handlePresence n connected)
      fun _ w => BusHas none w := by
  have hpresence := spawnPresence_all (Q := fun o => Op.kind o ∈ [Kind.createPresence] ∧
    ∀ u', Op.on o = some u' → none = some u') ⟨by simp [Op.kind], by simp [Op.on]⟩
  have hsequence : (doIf connected (ignoring (op .createSequence))).All fun o =>
      Op.kind o ∈ [Kind.createSequence] ∧ ∀ u', Op.on o = some u' → none = some u' := by
    simp [Op.kind, Op.on]
  refine .bind (bus_plain none hsequence (by decide)) fun _ => ?_
  refine Outline.Triple.read_bind (stable_busHas none) (R := fun _ w => BusHas none w)
    (fun w _ hw => hw) fun intl => ?_
  refine .bind ?_ fun _ => bus_plain none (hpresence n) (by decide)
  refine Outline.Triple.ite (fun _ => ?_) fun _ => .pure (stable_busHas none) fun w _ hw => hw
  have hload : (op (.recordLoad intl.recordFile)).All fun o => Op.kind o ∈ [Kind.recordLoad] ∧
      ∀ u', Op.on o = some u' → none = some u' := by
    simp [Op.kind, Op.on]
  refine .bind (bus_plain none hload (by decide)) fun content => ?_
  refine .bind (bus_state none none .resumeStarted rfl) fun _ => ?_
  refine .bind (R := fun err w => ∃ u', (err ≠ eUaErr → u' = none) ∧ BusHas u' w) ?_ fun err => ?_
  · have hnothing : (outline cfg C).Triple .bus (BusHas none) (Prog.pure eUaErr)
        fun err w => ∃ u', (err ≠ eUaErr → u' = none) ∧ BusHas u' w :=
      .pure (stable_busHas none) fun w _ hw => ⟨none, fun _ => rfl, hw⟩
    unfold resumeContent
    split
    · rename_i joUpdateRec
      unfold resumeRecord
      split
      · rename_i type _
        have hquery : (op (.queryHashTree type)).All fun o => Op.kind o ∈ [Kind.env] ∧
            ∀ u', Op.on o = some u' → none = some u' := by
          simp [Op.kind, Op.on]
        refine .bind (bus_plain none hquery (by decide)) fun uacc => ?_
        cases uacc with
        | some uacc => exact resumeComponent_triple hC uacc joUpdateRec
        | none => exact hnothing
      · exact hnothing
    · exact hnothing
  · refine Outline.Triple.exists_pre fun u' => Outline.Triple.const_pre fun hu' => ?_
    refine Outline.Triple.ite (fun _ => ?_) fun herr => ?_
    · have hremove : (doIf intl.recordFile.isSome (remove intl.recordFile)).All fun o =>
          Op.kind o ∈ [Kind.remove] ∧ ∀ u₂, Op.on o = some u₂ → u' = some u₂ := by
        simp [Op.kind, Op.on]
      refine .bind (bus_plain u' hremove (by decide)) fun _ => ?_
      exact bus_state u' none .resumeDone rfl
    · obtain rfl := hu' herr
      exact .pure (stable_busHas none) fun w _ hw => hw

/-- The threads that touch no component. -/
theorem outsider_triple {p : UaProg Unit} {ks : List Kind} (t : Tid)
    (hp : p.All fun o => Op.kind o ∈ ks ∧ ∀ h, Duty h o t)
    (hks : ∀ k ∈ ks, k ∉ .workerArgs :: slotKinds ∧ k ≠ .state) :
    (outline cfg C).Triple t (fun w => ∀ u, slot u w.trace ≠ some t) p
      fun _ w => ∀ u, slot u w.trace ≠ some t := by
  refine (frame_plain (hp.mono fun o ho => ⟨ho.1, fun w _ => ho.2 w.trace⟩) ?_ (stable_other t)
    ?_).post fun a w _ h => h.1
  · exact fun k hk => ⟨(hks k hk).1, fun h => absurd h (hks k hk).2⟩
  · exact fun w w' hslot h u => by rw [hslot u]; exact h u

theorem sequence_triple (n passes : Nat) :
    (outline cfg C).Triple (.sequence n) (fun w => ∀ u, slot u w.trace ≠ some (.sequence n))
      (updateSequenceInfo passes) fun _ w => ∀ u, slot u w.trace ≠ some (.sequence n) := by
  have hks : ∀ k ∈ [Kind.intlLock, .env, .query, .send, .pass],
      k ∉ .workerArgs :: slotKinds ∧ k ≠ .state := by
    decide
  exact outsider_triple (.sequence n)
    (updateSequenceInfo_all (fun o hon hkind => ⟨hkind, fun h => ⟨hon, hkind⟩⟩) passes) hks

end Threads

theorem held_nil {w : World} (h : ∀ u, slot u w.trace = none) : Held w := by
  intro u t ht
  simp [h u] at ht

/-- In the runs without collisions the outline holds. -/
theorem outline_sound (hC : ∀ t e w, C t e w → NoCollision t e w) : (outline cfg C).Sound where
  init := by
    rintro w ⟨htrace, -⟩
    have hslot : ∀ u, slot u w.trace = none := by simp [htrace, slot]
    exact ⟨held_nil hslot, fun t u => by simp [hslot u]⟩
  restart := by
    rintro w w' - ⟨htrace, -⟩
    have hslot : ∀ u, slot u w'.trace = none := by simp [htrace, slotStep]
    exact ⟨held_nil hslot, fun t u => by simp [hslot u]⟩
  stable := stable_other
  arrive := by
    rintro t p w w' hheld hpost ⟨⟨e, harrive, rfl⟩, -⟩
    have hslot : ∀ u, slot u (e :: w.trace) = slot u w.trace := by
      intro u
      cases harrive <;> rfl
    refine ⟨held_of_eq hheld hslot fun u => rfl, ?_, ?_,
      fun t₂ _ => kept_of_eq hslot fun u _ => rfl⟩
    · intro e' he
      obtain ⟨rfl, -⟩ := List.cons.inj he
      cases harrive <;> trivial
    · cases harrive with
      | message uacc msg hreg => exact ⟨⟨msg, rfl⟩, fun h => hpost uacc ((hslot uacc).symm.trans h)⟩
      | presence connected => exact ⟨⟨connected, rfl⟩, fun u h => hpost u ((hslot u).symm.trans h)⟩
  body := by
    intro t p w hheld hstart
    cases t with
    | runner u =>
        obtain ⟨⟨msg, rfl⟩, hfree⟩ := hstart
        exact runnerPass_triple hC u msg w hheld (other_of_held hheld hfree)
    | worker u n =>
        obtain ⟨rfl, hslot⟩ := hstart
        exact workerAction_triple u n w hheld hslot
    | resume u =>
        obtain ⟨rfl, hslot⟩ := hstart
        exact resume_triple u w hheld hslot
    | bus =>
        obtain ⟨⟨connected, rfl⟩, hfree⟩ := hstart
        have hnone : BusHas none w := fun u => by simp [hfree u]
        exact Outline.wp_mono (fun _ w' _ h u => by simp [h u])
          (handlePresence_triple hC cfg.nUah connected w hheld hnone)
    | presence n =>
        obtain rfl := hstart
        refine @outsider_triple _ _ _ [.dmcHandler] (.presence n) ?_ (by decide) w hheld ?_
        · simp [uaHandleDmcPresence, Duty, Op.kind, Op.on, AssignIntl.kind]
        · exact fun u hu => hheld u _ hu
    | sequence n =>
        obtain ⟨passes, rfl⟩ := hstart
        exact sequence_triple n passes w hheld fun u hu => hheld u _ hu

end EsyncUa.Workers
