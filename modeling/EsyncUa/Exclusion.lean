import EsyncUa.Frames
import EsyncUa.Phases
import EsyncUa.Rehearsals

/-!
One thread at a time for a component. The message runner starts a worker only if none is
running; the bus client starts the resume thread whatever is running. In the runs in which the
two do not meet, at most one of these threads exists, and the flag says so.
-/
namespace EsyncUa.Exclusion

open EsyncUa.JsonProperties EsyncUa.Components EsyncUa.Records EsyncUa.Programs
open EsyncUa.Operations EsyncUa.Installation EsyncUa.Updater EsyncUa.Messages EsyncUa.Machines
open EsyncUa.Agents EsyncUa.Footprints EsyncUa.Frames EsyncUa.Phases EsyncUa.Rehearsals

/-- The threads that work for a component. -/
def WorksFor (u : UaccPtr) (t : Tid) : Prop := (∃ n, t = .worker u n) ∨ t = .resume u

/-- The thread has been started, and it is past the statement that sets the flag if its function
begins with it. -/
def Executing (u : UaccPtr) (t : Tid) (c : AgentConfiguration) : Prop :=
  ¬c.Idle t ∧ ∀ k, c.pool t ≠ Prog.call (Op.assign u (.workerRunning true)) k

/-- At most one thread that works for the component has been started and has not ended, and the
flag is set while it executes. -/
structure Exclusive (u : UaccPtr) (c : AgentConfiguration) : Prop where
  one : ∀ t t', WorksFor u t → WorksFor u t' → ¬c.Idle t → ¬c.Idle t' → t = t'
  running : ∀ t, WorksFor u t → Executing u t c → (c.st.shared.comp u).worker.workerRunning = true

def placeStep (u : UaccPtr) : Event → Option Tid → Option Tid
  | .did t (.assign u' (.workerRunning running)) _, p =>
      if u' = u then (if running then some t else none) else p
  | .did _ (.createWorker u') (some n), p => if u' = u then some (.worker u n) else p
  | .did _ (.createResume u') true, p => if u' = u then some (.resume u) else p
  | .rebooted, _ => none
  | _, p => p

/-- The thread that works for the component, or the message runner while it starts one. -/
def place (u : UaccPtr) : List Event → Option Tid
  | [] => none
  | e :: h => placeStep u e (place u h)

/-- The resume thread is started while nobody works for the component, and no worker is started
while it works. -/
def ResumesAlone (_t : Tid) (e : Event) (w : World) : Prop :=
  match e with
  | .did _ (.createResume u) true => place u w.trace = none
  | .did t (.assign u (.workerRunning true)) _ =>
      t = .runner u → place u w.trace ≠ some (.resume u)
  | _ => True

instance (t : Tid) (e : Event) (w : World) : Decidable (ResumesAlone t e w) := by
  unfold ResumesAlone
  split <;> infer_instance

/-- The phases of a thread with respect to one component. -/
inductive Phase
  | rest | unclaimed | holding | called
  deriving DecidableEq

/-- The operations that move the place of the component or change its flag. -/
def Moves (u : UaccPtr) (o : Op) : Prop :=
  (∃ running, o = .assign u (.workerRunning running)) ∨ o = .createWorker u ∨ o = .createResume u

inductive Does (u : UaccPtr) (t : Tid) : Phase → (o : Op) → o.Ans → Phase → Prop
  | other (x o b) (h : ¬Moves u o) : Does u t x o b x
  | claim (b) (ht : t = .runner u) :
      Does u t .unclaimed (.assign u (.workerRunning true)) b .holding
  | begin (b) (ht : t = .resume u) : Does u t .called (.assign u (.workerRunning true)) b .holding
  | release (b) : Does u t .holding (.assign u (.workerRunning false)) b .rest
  | give (n) (ht : t = .runner u) : Does u t .holding (.createWorker u) (some n) .rest
  | failed : Does u t .holding (.createWorker u) none .holding
  | resume (started) (ht : t = .bus) : Does u t .rest (.createResume u) started .rest

/-- A thread that works for the component holds its place from its first step to its last; the
runner claims the place after it has seen that no worker is running. -/
def protocol (u : UaccPtr) : Protocol Tid Shared Phase Op.Ans where
  reads := fun t x => x = .holding ∨ x = .rest ∧ ¬WorksFor u t
  sees := fun t x m x' => x' = x ∨ t = .runner u ∧ x = .rest ∧ x' = .unclaimed ∧
    (m.comp u).worker.workerRunning = false
  may := fun t x o => (x = .rest → ¬WorksFor u t) ∧
    (x = .called → o = .assign u (.workerRunning true))
  does := Does u

/-- What the phase of a thread says about the state. -/
def Fits (u : UaccPtr) (t : Tid) (x : Phase) (w : World) : Prop :=
  match x with
  | .rest => place u w.trace ≠ some t
  | .unclaimed => t = .runner u ∧ place u w.trace ≠ some t ∧
      ∀ n, place u w.trace ≠ some (.worker u n)
  | .holding => (t = .runner u ∨ WorksFor u t) ∧ place u w.trace = some t ∧
      (w.shared.comp u).worker.workerRunning = true
  | .called => t = .resume u ∧ place u w.trace = some t

variable {u : UaccPtr} {t : Tid} {α : Type}

/-! The programs keep to the protocol. -/

theorem not_moves_of_within {u' : UaccPtr} {ks : List Kind} {o : Op} (h : Within u' ks o)
    (hks : .workerRunning ∉ ks ∧ .createWorker ∉ ks ∧ .createResume ∉ ks) : ¬Moves u o := by
  intro hmoves
  obtain ⟨running, rfl⟩ | rfl | rfl := hmoves
  · exact hks.1 h.2
  · exact hks.2.1 h.2
  · exact hks.2.2 h.2

theorem not_moves_of_other {u' : UaccPtr} {ks : List Kind} {o : Op} (h : Within u' ks o)
    (hne : u ≠ u') : ¬Moves u o := by
  intro hmoves
  obtain ⟨running, rfl⟩ | rfl | rfl := hmoves <;> exact hne (h.1 u rfl)

/-- A program that moves no place. -/
theorem follows_rest {p : UaProg α} (hp : p.All fun o => ¬Moves u o) (ht : ¬WorksFor u t) :
    (protocol u).Follows t p .rest fun _ x => x = .rest :=
  .within hp (Or.inr ⟨rfl, ht⟩) (fun _ => Or.inl rfl) fun o ho =>
    ⟨⟨fun _ => ht, by simp⟩, fun b => .other _ o b ho⟩

theorem follows_holding {p : UaProg α} (hp : p.All fun o => ¬Moves u o) :
    (protocol u).Follows t p .holding fun _ x => x = .holding :=
  .within hp (Or.inl rfl) (fun _ => Or.inl rfl) fun o ho =>
    ⟨⟨by simp, by simp⟩, fun b => .other _ o b ho⟩

theorem follows_release : (protocol u).Follows t (assign u (.workerRunning false)) .holding
    fun _ x => x = .rest :=
  .perform ⟨by simp, by simp⟩ .release

theorem runner_not_worksFor (u' : UaccPtr) : ¬WorksFor u (.runner u') := by simp [WorksFor]

theorem claimWorker_follows (func : ProcessF) (jObj : Json) :
    (protocol u).Follows (.runner u) (claimWorker u func jObj) .unclaimed
      fun _ x => x = .rest := by
  have hargs : ∀ x, Assign.kind x = .workerArgs → (assign u x).All fun o => ¬Moves u o := by
    intro x hx
    rw [all_assign]
    have hwithin : Within u [.workerArgs] (.assign u x) := ⟨by simp [Op.on], by simp [Op.kind, hx]⟩
    exact not_moves_of_within hwithin (by decide)
  refine .bind (.mono (.perform ⟨by simp, by simp⟩ fun b => .claim b rfl) ?_)
  intro _ x hx
  subst hx
  refine .bind (.mono (follows_holding (hargs _ rfl)) ?_)
  intro _ x hx
  subst hx
  refine .bind (.mono (follows_holding (hargs _ rfl)) ?_)
  intro _ x hx
  subst hx
  refine .bind ⟨⟨by simp, by simp⟩, fun thread => ?_⟩
  cases thread with
  | none => exact ⟨.holding, .failed, follows_release⟩
  | some n => exact ⟨.rest, .give n rfl, rfl⟩

theorem startWorker_follows (func : ProcessF) (jObj : Json) :
    (protocol u).Follows (.runner u) (startWorker u func jObj) .rest fun _ x => x = .rest := by
  have hmark : (mark (.workerBusy u jObj)).All fun o => ¬Moves u o := by
    simp [Moves]
  refine .bind ⟨Or.inr ⟨rfl, runner_not_worksFor u⟩, fun s => ?_⟩
  cases hbusy : (s.comp u).worker.workerRunning with
  | true =>
    refine ⟨.rest, Or.inl rfl, ?_⟩
    show (protocol u).Follows _ (if (s.comp u).worker.workerRunning = true then _ else _) _ _
    rw [if_pos hbusy]
    exact follows_rest hmark (runner_not_worksFor u)
  | false =>
    refine ⟨.unclaimed, Or.inr ⟨rfl, rfl, rfl, hbusy⟩, ?_⟩
    show (protocol u).Follows _ (if (s.comp u).worker.workerRunning = true then _ else _) _ _
    rw [if_neg (by simp [hbusy])]
    exact claimWorker_follows func jObj

theorem runner_rest {p : UaProg α} {ks : List Kind} (hp : p.All (Within u ks))
    (hks : .workerRunning ∉ ks ∧ .createWorker ∉ ks ∧ .createResume ∉ ks) :
    (protocol u).Follows (.runner u) p .rest fun _ x => x = .rest :=
  follows_rest (hp.mono fun _ ho => not_moves_of_within ho hks) (runner_not_worksFor u)

theorem dispatchType_follows (jObj : Json) (type : Option String) :
    (protocol u).Follows (.runner u) (dispatchType u jObj type) .rest fun _ x => x = .rest := by
  have hread : (readIntl (·.asyncQueryPackage)).All (Within u []) := all_readIntl _
  have horCrash : (orCrash type).All (Within u [.env]) := by
    simp [Within, Op.on, Op.kind, ExtOp.kind]
  refine .bind (.mono (runner_rest hread (by decide)) ?_)
  intro asyncQueryPackage x hx
  subst hx
  refine .bind (.mono (runner_rest horCrash (by decide)) ?_)
  intro type x hx
  subst hx
  cases hhandler : handlerOf asyncQueryPackage type with
  | none => rfl
  | some handler =>
    obtain ⟨func, turnover⟩ := handler
    cases turnover with
    | true => exact startWorker_follows func jObj
    | false =>
      obtain ⟨hready, hprepare⟩ := handlerOf_runner hhandler
      exact runner_rest (call_within_runner u hready hprepare jObj) (by decide)

theorem runnerPass_follows (msg : Option Json) :
    (protocol u).Follows (.runner u) (runnerPass u msg) .rest fun _ x => x = .rest := by
  have hfree : (ext (.freeMsg u)).All (Within u [.freeMsg]) := by
    simp [Within, Op.on, Op.kind, ExtOp.kind]
  have hnext : ∀ x, x = Phase.rest →
      (protocol u).Follows (.runner u) (ext (.freeMsg u)) x fun _ x => x = .rest := by
    intro x hx
    subst hx
    exact runner_rest hfree (by decide)
  refine .bind (.mono ?_ fun _ => hnext)
  cases msg with
  | none => rfl
  | some jObj =>
    have houtdated : (isOutdated u jObj).All (Within u [.env, .seqIn]) := by
      simp [isOutdated, Within, Op.on, Op.kind, ExtOp.kind]
    have huar : (readComp u (·.uar)).All (Within u []) := all_readComp u _
    have hmessage : ∀ uar : UaRoutine, (if uar.onMessage then
        callback u .onMessage ⟨(getTypeFromJson jObj).2, none, none, none, false⟩
        else pure false).All (Within u [.env]) := by
      simp [Within, Op.on, Op.kind, ExtOp.kind]
    refine .bind (.mono (runner_rest houtdated (by decide)) ?_)
    intro outdated x hx
    subst hx
    dsimp only [doIf]
    split
    · refine .bind (.mono (runner_rest huar (by decide)) ?_)
      intro uar x hx
      subst hx
      refine .bind (.mono (runner_rest (hmessage uar) (by decide)) ?_)
      intro processed x hx
      subst hx
      dsimp only [doIf]
      split
      · exact dispatchType_follows jObj _
      · rfl
    · rfl

theorem workerAction_follows (n : Nat) :
    (protocol u).Follows (.worker u n) (workerAction u) .holding fun _ x => x = .rest := by
  have hks : Kind.workerRunning ∉ callKinds ∧ .createWorker ∉ callKinds ∧
      .createResume ∉ callKinds := by decide
  have hfunc : (readComp u (·.worker.workerFunc)).All fun o => ¬Moves u o := all_readComp u _
  have hjobj : (readComp u (·.worker.workerJobj)).All fun o => ¬Moves u o := all_readComp u _
  have horCrash : ∀ jobj : Option Json, (orCrash jobj).All fun o => ¬Moves u o := by
    simp [Moves]
  refine .bind (.mono (follows_holding hfunc) ?_)
  intro func x hx
  subst hx
  refine .bind (.mono (follows_holding hjobj) ?_)
  intro jobj x hx
  subst hx
  refine .bind (.mono (follows_holding (horCrash jobj)) ?_)
  intro jsonObj x hx
  subst hx
  have hcall := (call_within u func jsonObj).mono fun o ho => not_moves_of_within (u := u) ho hks
  refine .bind (.mono (follows_holding hcall) ?_)
  intro _ x hx
  subst hx
  exact follows_release

theorem updateResumeFromReboot_follows :
    (protocol u).Follows (.resume u) (updateResumeFromReboot u) .called fun _ x => x = .rest := by
  have hinstall := (resumeInstallation_within u resumeKinds fun k hk => hk).mono
    fun o ho => not_moves_of_within (u := u) ho (by decide)
  refine .bind (.mono (.perform ⟨by simp, by simp⟩ fun b => .begin b rfl) ?_)
  intro _ x hx
  subst hx
  refine .bind (.mono (follows_holding hinstall) ?_)
  intro _ x hx
  subst hx
  exact follows_release

/-- The bus client starts resume threads and moves no place otherwise. -/
theorem handlePresence_follows (n : Nat) (connected : Bool) :
    (protocol u).Follows .bus (handlePresence n connected) .rest fun _ x => x = .rest := by
  have hbus : ¬WorksFor u .bus := by simp [WorksFor]
  refine .within (G := fun o => Moves u o → o = .createResume u) ?_ (Or.inr ⟨rfl, hbus⟩)
    (fun _ => Or.inl rfl) ?_
  · apply handlePresence_all
    · intro o hon _ hmoves
      obtain ⟨running, rfl⟩ | rfl | rfl := hmoves <;> cases hon
    · intro u' joRec hmoves
      obtain ⟨running, h⟩ | h | h := hmoves <;> cases h
    · intro u' o ho hmoves
      obtain ⟨running, rfl⟩ | rfl | rfl := hmoves
      · exact absurd ho.2 (by simp [Op.kind, Assign.kind])
      · exact absurd ho.2 (by simp [Op.kind])
      · rfl
  · intro o ho
    refine ⟨⟨fun _ => hbus, by simp⟩, fun b => ?_⟩
    by_cases hmoves : Moves u o
    · cases ho hmoves
      exact .resume b rfl
    · exact .other _ o b hmoves

/-! What the phases say about the state. -/

@[simp] theorem place_cons (u : UaccPtr) (e : Event) (h : List Event) :
    place u (e :: h) = placeStep u e (place u h) := rfl

theorem placeStep_of_not_moves {o : Op} {b : o.Ans} (h : ¬Moves u o) (p : Option Tid) :
    placeStep u (.did t o b) p = p := by
  have hassign : ∀ running, o ≠ .assign u (.workerRunning running) :=
    fun running ho => h (Or.inl ⟨running, ho⟩)
  cases o with
  | assign u' x => cases x <;> simp_all [placeStep]
  | createWorker u' =>
    have hne : u' ≠ u := fun hu => h (Or.inr (Or.inl (by rw [hu])))
    cases b <;> simp [placeStep, hne]
  | createResume u' =>
    have hne : u' ≠ u := fun hu => h (Or.inr (Or.inr (by rw [hu])))
    cases b <;> simp [placeStep, hne]
  | _ => rfl

theorem running_of_not_moves {cfg : AgentConfig} {s s' : Shared} {o : Op} {b : o.Ans}
    (heffect : effect cfg t s o b = some s') (h : ¬Moves u o) :
    (s'.comp u).worker.workerRunning = (s.comp u).worker.workerRunning := by
  generalize hc : s'.comp u = c
  have hchange := effect_comp heffect u
  rw [hc] at hchange
  cases hchange with
  | none | seqIn | status => rfl
  | assign x =>
    cases x with
    | workerRunning running => exact absurd (Or.inl ⟨running, rfl⟩) h
    | _ => rfl
  | setContext cc => exact congrArg _ (ignores_worker.setContext (by decide) _ _ _)

theorem fits_of_eq {x : Phase} {w w' : World} (h : Fits u t x w)
    (hplace : place u w'.trace = place u w.trace)
    (hrunning : (w'.shared.comp u).worker.workerRunning =
      (w.shared.comp u).worker.workerRunning) : Fits u t x w' := by
  cases x <;> simpa only [Fits, hplace, hrunning] using h

/-- The thread that has the place is in a phase that says so. -/
theorem holder_of_fits {phase : Tid → Phase} {w : World} (h : ∀ t, Fits u t (phase t) w)
    (ht : place u w.trace = some t) :
    (t = .runner u ∨ WorksFor u t) ∧
      ((w.shared.comp u).worker.workerRunning = true ∨ t = .resume u) := by
  have hfits := h t
  cases hphase : phase t with
  | rest => exact absurd ht (by simpa only [hphase, Fits] using hfits)
  | unclaimed =>
    rw [hphase] at hfits
    exact absurd ht hfits.2.1
  | holding =>
    rw [hphase] at hfits
    exact ⟨hfits.1, Or.inl hfits.2.2⟩
  | called =>
    rw [hphase] at hfits
    exact ⟨Or.inr (Or.inr hfits.1), Or.inr hfits.1⟩

/-- A thread in any phase stays in it when another one, which is not in its way, gets the
place or gives it back. -/
theorem fits_other {x : Phase} {w w' : World} {t' : Tid} (h : Fits u t' x w) (hne : t' ≠ t)
    (hold : place u w.trace = none ∨ place u w.trace = some t)
    (hnew : place u w'.trace ≠ some t')
    (hworker : t' = .runner u → ∀ n, place u w'.trace ≠ some (.worker u n)) :
    Fits u t' x w' := by
  have hnot : place u w.trace ≠ some t' := by
    intro hplace
    rcases hold with hnone | ht
    · rw [hnone] at hplace
      cases hplace
    · exact hne (Option.some.inj (hplace.symm.trans ht))
  cases x with
  | rest => exact hnew
  | unclaimed => exact ⟨h.1, hnew, hworker h.1⟩
  | holding => exact absurd h.2.1 hnot
  | called => exact absurd h.2 hnot

variable {cfg : AgentConfig} {C : Tid → Event → World → Prop}

/-- The threads that do not work for the component end in the phase they begin in. -/
theorem fork_follows {o : Op} {b : o.Ans} {t₂ : Tid} {p : UaProg Unit}
    (h : fork t o b = some (t₂, p)) (hne : ¬WorksFor u t₂) :
    (protocol u).Follows t₂ p .rest fun _ x => x = .rest := by
  refine follows_rest ?_ hne
  obtain ⟨u', n, -, rfl, rfl⟩ | ⟨u', -, rfl, rfl⟩ | ⟨n, -, rfl, rfl⟩ | ⟨n, passes, -, rfl, rfl⟩ :=
    fork_cases h
  · have hu : u ≠ u' := fun hu => hne (Or.inl ⟨n, by rw [hu]⟩)
    exact (workerAction_within u').mono fun o ho => not_moves_of_other ho hu
  · have hu : u ≠ u' := fun hu => hne (Or.inr (by rw [hu]))
    exact (updateResumeFromReboot_within u').mono fun o ho => not_moves_of_other ho hu
  · simp [uaHandleDmcPresence, Moves]
  · refine updateSequenceInfo_all (fun o hon _ hmoves => ?_) _
    obtain ⟨running, rfl⟩ | rfl | rfl := hmoves <;> cases hon

theorem runnerPass_other {u' : UaccPtr} (hne : u ≠ u') (msg : Option Json) :
    (protocol u).Follows (.runner u') (runnerPass u' msg) .rest fun _ x => x = .rest := by
  have hmessage : (processMessage u' msg).All fun o => ¬Moves u o := by
    cases msg with
    | none => exact trivial
    | some jObj =>
      have houtdated : (isOutdated u' jObj).All fun o => ¬Moves u o := by
        simp [isOutdated, Moves]
      have hdispatch : ∀ type, (dispatch u' jObj type).All fun o => ¬Moves u o := fun type =>
        (dispatch_within u' jObj type).mono fun o ho => not_moves_of_other ho hne
      simp [processMessage, processJson, houtdated, hdispatch]
  have hfree : ¬Moves u (.ext (.freeMsg u')) := by simp [Moves]
  refine follows_rest ?_ (runner_not_worksFor u')
  simp [runnerPass, hmessage, hfree]

theorem fork_other {o : Op} {b : o.Ans} {t₂ : Tid} {p : UaProg Unit} (hmoves : ¬Moves u o)
    (h : fork t o b = some (t₂, p)) : t₂ ≠ .runner u ∧ ¬WorksFor u t₂ := by
  obtain ⟨u', n, he, rfl, -⟩ | ⟨u', he, rfl, -⟩ | ⟨n, -, rfl, -⟩ | ⟨n, passes, -, rfl, -⟩ :=
    fork_cases h
  · obtain ⟨-, rfl, -⟩ := Event.did.inj he
    have hne : u' ≠ u := fun hu => hmoves (Or.inr (Or.inl (by rw [hu])))
    simp [WorksFor, hne]
  · obtain ⟨-, rfl, -⟩ := Event.did.inj he
    have hne : u' ≠ u := fun hu => hmoves (Or.inr (Or.inr (by rw [hu])))
    simp [WorksFor, hne]
  · simp [WorksFor]
  · simp [WorksFor]

section Steps

variable {o : Op} {b : o.Ans} {w w' : World} {phase : Tid → Phase}
variable (hfits : ∀ t, Fits u t (phase t) w) (hact : (runsWhere cfg C).act t o b w w')

/-- What the protocol owes to the other threads and to a thread that is started. -/
def Others (u : UaccPtr) (t : Tid) (o : Op) (b : o.Ans) (phase : Tid → Phase) (w' : World) :
    Prop :=
  (∀ t₂, t₂ ≠ t → (∀ p, fork t o b ≠ some (t₂, p)) → Fits u t₂ (phase t₂) w') ∧
    ∀ t₂ p, t₂ ≠ t → fork t o b = some (t₂, p) → phase t₂ = .rest →
      (protocol u).Begins .rest (Fits u) t₂ p w'

include hfits hact

theorem other_fits (hmoves : ¬Moves u o) : Fits u t (phase t) w' ∧ Others u t o b phase w' := by
  obtain ⟨⟨heffect, htrace⟩, -⟩ := hact
  have hplace : place u w'.trace = place u w.trace := by
    rw [htrace, place_cons, placeStep_of_not_moves hmoves]
  have hkeep : ∀ t₂, Fits u t₂ (phase t₂) w' := fun t₂ =>
    fits_of_eq (hfits t₂) hplace (running_of_not_moves heffect hmoves)
  refine ⟨hkeep t, fun t₂ _ _ => hkeep t₂, fun t₂ p _ hfork _ => ?_⟩
  obtain ⟨hrunner, hworks⟩ := fork_other hmoves hfork
  refine ⟨.rest, fun hplace' => ?_, fork_follows hfork hworks⟩
  obtain ⟨hholder, -⟩ := holder_of_fits hkeep hplace'
  exact hholder.elim hrunner hworks

end Steps

/-- An operation on the flag of the component starts no thread. -/
theorem others_of_assign {w w' : World} {phase : Tid → Phase} {running : Bool}
    (hfits : ∀ t, Fits u t (phase t) w)
    (hold : place u w.trace = none ∨ place u w.trace = some t)
    (hnew : place u w'.trace = if running then some t else none)
    (hworker : running = true → ∀ n, t ≠ .worker u n) :
    Others u t (.assign u (.workerRunning running)) () phase w' := by
  refine ⟨fun t₂ hne _ => fits_other (hfits t₂) hne hold ?_ ?_, fun t₂ p _ hfork _ => ?_⟩
  · intro hplace
    rw [hnew] at hplace
    cases running with
    | true => exact hne (Option.some.inj hplace).symm
    | false => cases hplace
  · intro _ n hplace
    rw [hnew] at hplace
    cases running with
    | true => exact hworker rfl n (Option.some.inj hplace)
    | false => cases hplace
  · cases hfork

/-- What one operation does to the phases. -/
theorem act_fits (hC : ∀ t e w, C t e w → ResumesAlone t e w) {t : Tid} {o : Op} {b : o.Ans}
    {w w' : World} {phase : Tid → Phase} {x' : Phase} (hfits : ∀ t, Fits u t (phase t) w)
    (hact : (runsWhere cfg C).act t o b w w') (hdoes : Does u t (phase t) o b x') :
    Fits u t x' w' ∧ Others u t o b phase w' := by
  have hact' := hact
  obtain ⟨⟨heffect, htrace⟩, hevents⟩ := hact'
  have ht := hfits t
  generalize hx : phase t = x at hdoes ht
  cases hdoes with
  | other _ _ _ hmoves =>
    rw [← hx]
    exact other_fits hfits hact hmoves
  | claim b ht' =>
    subst ht'
    have hresume : place u w.trace ≠ some (.resume u) := hC _ _ _ (hevents _ htrace) rfl
    have hnone : place u w.trace = none := by
      cases hplace : place u w.trace with
      | none => rfl
      | some t' =>
        obtain ⟨rfl | ⟨n, rfl⟩ | rfl, -⟩ := holder_of_fits hfits hplace
        · exact absurd hplace ht.2.1
        · exact absurd hplace (ht.2.2 n)
        · exact absurd hplace hresume
    have hplace : place u w'.trace = some (.runner u) := by simp [htrace, placeStep]
    have hrunning : (w'.shared.comp u).worker.workerRunning = true := by
      simp only [effect, Option.some.injEq] at heffect
      simp [← heffect, Assign.apply]
    exact ⟨⟨Or.inl rfl, hplace, hrunning⟩,
      others_of_assign hfits (Or.inl hnone) hplace (by simp)⟩
  | begin b ht' =>
    subst ht'
    have hplace : place u w'.trace = some (.resume u) := by simp [htrace, placeStep]
    have hrunning : (w'.shared.comp u).worker.workerRunning = true := by
      simp only [effect, Option.some.injEq] at heffect
      simp [← heffect, Assign.apply]
    exact ⟨⟨Or.inr (Or.inr rfl), hplace, hrunning⟩,
      others_of_assign hfits (Or.inr ht.2) hplace (by simp)⟩
  | release b =>
    have hplace : place u w'.trace = none := by simp [htrace, placeStep]
    refine ⟨?_, others_of_assign hfits (Or.inr ht.2.1) hplace (by simp)⟩
    simp [Fits, hplace]
  | give n ht' =>
    subst ht'
    have hplace : place u w'.trace = some (.worker u n) := by simp [htrace, placeStep]
    have hshared : w'.shared = w.shared := by
      simp only [effect, Option.some.injEq] at heffect
      exact heffect.symm
    refine ⟨by simp [Fits, hplace], fun t₂ hne hfork => ?_, fun t₂ p _ hfork _ => ?_⟩
    · refine fits_other (hfits t₂) hne (Or.inr ht.2.1) ?_ fun h => absurd h hne
      intro h
      rw [hplace] at h
      cases h
      exact hfork _ rfl
    · cases hfork
      refine ⟨.holding, ⟨Or.inr (Or.inl ⟨n, rfl⟩), hplace, ?_⟩, workerAction_follows n⟩
      rw [hshared]
      exact ht.2.2
  | failed =>
    have hplace : place u w'.trace = place u w.trace := by simp [htrace, placeStep]
    have hshared : w'.shared = w.shared := by
      simp only [effect, Option.some.injEq] at heffect
      exact heffect.symm
    have hkeep : ∀ {t₂ : Tid} {y : Phase}, Fits u t₂ y w → Fits u t₂ y w' := fun h =>
      fits_of_eq h hplace (by rw [hshared])
    refine ⟨hkeep ht, fun t₂ _ _ => hkeep (hfits t₂), fun t₂ p _ hfork _ => ?_⟩
    cases hfork
  | resume started ht' =>
    subst ht'
    have hshared : w'.shared = w.shared := by
      simp only [effect, Option.some.injEq] at heffect
      exact heffect.symm
    cases started with
    | false =>
      have hplace : place u w'.trace = place u w.trace := by simp [htrace, placeStep]
      have hkeep : ∀ {t₂ : Tid} {y : Phase}, Fits u t₂ y w → Fits u t₂ y w' := fun h =>
        fits_of_eq h hplace (by rw [hshared])
      refine ⟨hkeep ht, fun t₂ _ _ => hkeep (hfits t₂), fun t₂ p _ hfork _ => ?_⟩
      cases hfork
    | true =>
      have hnone : place u w.trace = none := hC _ _ _ (hevents _ htrace)
      have hplace : place u w'.trace = some (.resume u) := by simp [htrace, placeStep]
      refine ⟨?_, fun t₂ hne hfork => ?_, fun t₂ p _ hfork _ => ?_⟩
      · simp [Fits, hplace]
      · refine fits_other (hfits t₂) hne (Or.inl hnone) ?_ (by simp [hplace])
        intro h
        rw [hplace] at h
        cases h
        exact hfork _ rfl
      · cases hfork
        exact ⟨.called, ⟨rfl, hplace⟩, updateResumeFromReboot_follows⟩

theorem sound (hC : ∀ t e w, C t e w → ResumesAlone t e w) :
    (protocol u).Sound .rest (Fits u) (runsWhere cfg C) where
  init := by
    intro w ⟨htrace, _⟩ t
    simp [Fits, htrace, place]
  restart := by
    intro w w' ⟨htrace, _⟩ t
    simp [Fits, htrace, placeStep]
  sees := by
    intro t w phase x' hfits hsees
    obtain hsame | ⟨rfl, hrest, rfl, hrunning⟩ := hsees
    · rw [hsame]
      exact hfits t
    · have hfree := hfits (.runner u)
      rw [hrest] at hfree
      refine ⟨rfl, hfree, fun n hplace => ?_⟩
      obtain hrunning' | hresume := (holder_of_fits hfits hplace).2
      · exact Bool.false_ne_true (hrunning.symm.trans hrunning')
      · cases hresume
  act := fun t o b w w' phase x' hfits hact hdoes => act_fits hC hfits hact hdoes
  arrive := by
    intro t p w w' phase hfits hrest ⟨⟨e, harrive, hw⟩, _⟩
    have hplace : place u w'.trace = place u w.trace := by
      rw [hw]
      cases harrive <;> rfl
    have hkeep : ∀ t₂, Fits u t₂ (phase t₂) w' := fun t₂ =>
      fits_of_eq (hfits t₂) hplace (by rw [hw])
    refine ⟨⟨.rest, ?_, ?_⟩, fun t₂ _ => hkeep t₂⟩
    · have ht := hkeep t
      rw [hrest] at ht
      exact ht
    · cases harrive with
      | message u' msg hreg =>
        by_cases hu : u = u'
        · subst hu
          exact runnerPass_follows msg
        · exact runnerPass_other hu msg
      | presence connected => exact handlePresence_follows cfg.nUah connected

theorem not_worksFor_of_rest {p : UaProg Unit} {Q : Unit → Phase → Prop}
    (h : (protocol u).Follows t p .rest Q) (hp : p ≠ Prog.pure ()) : ¬WorksFor u t := by
  cases p with
  | pure a => exact absurd rfl hp
  | get k =>
    obtain hholding | ⟨-, hworks⟩ := h.1
    · cases hholding
    · exact hworks
  | call o k => exact h.1.1 rfl

theorem begins_of_called {p : UaProg Unit}
    (h : (protocol u).Follows t p .called fun _ y => y = .rest) :
    ∃ k, p = Prog.call (Op.assign u (.workerRunning true)) k := by
  cases p with
  | pure a => cases h
  | get k =>
    obtain hholding | ⟨hrest, -⟩ := h.1
    · cases hholding
    · cases hrest
  | call o k =>
    obtain rfl := h.1.2 rfl
    exact ⟨k, rfl⟩

/-- In the runs in which no installation is resumed beside a worker, the threads of a component
exclude each other. -/
theorem exclusive_of_resumesAlone {c : AgentConfiguration}
    (hc : (runsWhere cfg ResumesAlone).Reachable c) (u : UaccPtr) : Exclusive u c := by
  have hsound : (protocol u).Sound .rest (Fits u) (runsWhere cfg ResumesAlone) :=
    sound fun _ _ _ h => h
  obtain ⟨phase, hphase⟩ := hsound.phases hc
  have hholds : ∀ t, WorksFor u t → ¬c.Idle t → place u c.st.trace = some t ∧
      ((c.st.shared.comp u).worker.workerRunning = true ∨
        ∃ k, c.pool t = Prog.call (Op.assign u (.workerRunning true)) k) := by
    intro t hworks hidle
    obtain ⟨hfits, hfollows⟩ := hphase t
    cases hx : phase t with
    | rest =>
      rw [hx] at hfollows
      exact absurd hworks (not_worksFor_of_rest hfollows hidle)
    | unclaimed =>
      rw [hx] at hfits
      exact absurd hworks (hfits.1 ▸ runner_not_worksFor u)
    | holding =>
      rw [hx] at hfits
      exact ⟨hfits.2.1, Or.inl hfits.2.2⟩
    | called =>
      rw [hx] at hfits hfollows
      exact ⟨hfits.2, Or.inr (begins_of_called hfollows)⟩
  constructor
  · intro t t' ht ht' hidle hidle'
    exact Option.some.inj ((hholds t ht hidle).1.symm.trans (hholds t' ht' hidle').1)
  · intro t ht ⟨hidle, hpast⟩
    obtain hrunning | ⟨k, hk⟩ := (hholds t ht hidle).2
    · exact hrunning
    · exact absurd hk (hpast k)

/-! An installation that a restart interrupts, and a message that comes before it is resumed. -/

def rebootConfig : AgentConfig := sampleConfig true 1

def readyTwo : Json :=
  packageMessage bmtReadyUpdate [("sequence", .int 5)] "pkg" "2" (downloadedFile "2")

def prepareThree : Json :=
  packageMessage bmtPrepareUpdate [] "pkg" "3" (downloadedFile "3")

/-- The agent restarts while the record of the installation is on the disk. -/
def interrupted (C : Tid → Event → World → Prop) [∀ t e w, Decidable (C t e w)] :
    List (Schedules.Move (runsWhere rebootConfig C)) :=
  [connected rebootConfig C, .steps .bus 60, .steps (.presence 0) 10,
    message rebootConfig C 0 Nat.one_pos readyTwo, .steps (.runner 0) 60,
    .steps (.worker 0 0) 75, reboot rebootConfig C]

/-- The resume thread is past its first statement when the message comes. -/
def resuming : AgentConfiguration :=
  rehearse rebootConfig ResumesAlone (usualOracle "1") (interrupted ResumesAlone ++
    [connected rebootConfig ResumesAlone, .steps .bus 60, .steps (.resume 0) 5,
      message rebootConfig ResumesAlone 0 Nat.one_pos prepareThree, .steps (.runner 0) 60])

theorem exclusive_example : Exclusive 0 resuming :=
  exclusive_of_resumesAlone (rehearse_reachable _ _ _ _) 0

/-- The worker has been started when the bus client resumes the installation. -/
def meeting : AgentConfiguration :=
  rehearse rebootConfig Anything (usualOracle "1") (interrupted Anything ++
    [message rebootConfig Anything 0 Nat.one_pos prepareThree, .steps (.runner 0) 60,
      connected rebootConfig Anything, .steps .bus 60])

theorem worker_and_resume_meet :
    (agent rebootConfig).Reachable meeting ∧ ¬Exclusive 0 meeting := by
  have hworker : Schedules.isIdle (meeting.pool (.worker 0 0)) = false := by decide +kernel
  have hresume : Schedules.isIdle (meeting.pool (.resume 0)) = false := by decide +kernel
  have hbusy : ∀ t, Schedules.isIdle (meeting.pool t) = false → ¬meeting.Idle t := by
    intro t ht hidle
    rw [hidle] at ht
    cases ht
  refine ⟨agent_reachable _ _ _, fun h => ?_⟩
  have heq := h.one (.worker 0 0) (.resume 0) (Or.inl ⟨0, rfl⟩) (Or.inr rfl) (hbusy _ hworker)
    (hbusy _ hresume)
  cases heq

end EsyncUa.Exclusion
