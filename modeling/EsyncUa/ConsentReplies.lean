import EsyncUa.Frames
import EsyncUa.Rehearsals
import EsyncUa.RestPhases

/-!
The request to start an installation and its reply. The worker sends the request, and only then
locks and waits; the message runner signals without looking whether anybody waits. In the runs
in which every signal finds the thread waiting whose request is answered, a thread that has its
answer is not waiting for it.
-/
namespace EsyncUa.ConsentReplies

open EsyncUa.JsonProperties EsyncUa.Components EsyncUa.Records EsyncUa.Programs
open EsyncUa.Operations EsyncUa.Installation EsyncUa.Updater EsyncUa.Messages EsyncUa.Machines
open EsyncUa.Agents EsyncUa.Footprints EsyncUa.Frames EsyncUa.Phases EsyncUa.RestPhases
open EsyncUa.Rehearsals

/-- The thread whose request has the reply id of the component. -/
def asker (u : UaccPtr) : List Event → Option Tid
  | [] => none
  | .did t (.assign u' (.replyId replyId)) _ :: h =>
      if u' = u then (if replyId.isSome then some t else none) else asker u h
  | .rebooted :: _ => none
  | _ :: h => asker u h

/-- The thread whose request is answered by the reply that has been matched last, as long as it
has not given the request up. -/
def matched (u : UaccPtr) : List Event → Option Tid
  | [] => none
  | .did _ (.matchReplyId u' _) true :: h => if u' = u then asker u h else matched u h
  | .did t (.assign u' (.replyId _)) _ :: h =>
      if u' = u ∧ matched u h = some t then none else matched u h
  | .rebooted :: _ => none
  | _ :: h => matched u h

/-- Whether the reply to the last request of the thread has been processed. -/
def answered (u : UaccPtr) (t : Tid) : List Event → Bool
  | [] => false
  | .did t' (.assign u' (.replyId _)) _ :: h => !decide (u' = u ∧ t' = t) && answered u t h
  | .did _ (.condSignal u') _ :: h => decide (u' = u ∧ matched u h = some t) || answered u t h
  | .rebooted :: _ => false
  | _ :: h => answered u t h

abbrev Answered (u : UaccPtr) (t : Tid) (h : List Event) : Prop := answered u t h = true

/-- A signal for an answered request finds its thread first among the waiting ones. -/
def SignalsWaiting (_t : Tid) (e : Event) (w : World) : Prop :=
  match e with
  | .did _ (.condSignal u) _ =>
      matched u w.trace = none ∨
        matched u w.trace = (w.shared.comp u).updateStatusInfo.cond.head?
  | _ => True

instance (t : Tid) (e : Event) (w : World) : Decidable (SignalsWaiting t e w) := by
  unfold SignalsWaiting
  split <;> infer_instance

/-- The threads that wait for a reply to a request of the component. -/
def waiting (u : UaccPtr) (w : World) : List Tid := (w.shared.comp u).updateStatusInfo.cond

inductive Phase
  | rest | asked | waiting
  deriving DecidableEq

/-- The operations of the wait. -/
def Waits (u : UaccPtr) (o : Op) : Prop := o = .condTimedwait u ∨ o = .condWakeup u

inductive Does (u : UaccPtr) (t : Tid) : Phase → (o : Op) → o.Ans → Phase → Prop
  | other (x o b) (h : ¬Waits u o) : Does u t x o b x
  | ask (replyId b) : Does u t .rest (.assign u (.replyId replyId)) b .asked
  | giveUp (o b) (h : ¬Waits u o) : Does u t .asked o b .rest
  | wait (b) : Does u t .asked (.condTimedwait u) b .waiting
  | wakeup (b) : Does u t .waiting (.condWakeup u) b .rest

/-- A thread waits only after it has made a request. -/
def protocol (u : UaccPtr) : Protocol Tid Shared Phase Op.Ans where
  reads := fun _ _ => True
  sees := fun _ x _ x' => x' = x
  may := fun _ _ _ => True
  does := Does u

/-- What the phase of a thread says about the state. -/
def Fits (u : UaccPtr) (t : Tid) (x : Phase) (w : World) : Prop :=
  match x with
  | .rest => t ∉ waiting u w
  | .asked => t ∉ waiting u w ∧ ¬Answered u t w.trace
  | .waiting => (waiting u w).count t ≤ 1 ∧ (t ∈ waiting u w → ¬Answered u t w.trace)

variable {u : UaccPtr} {t : Tid} {α : Type}

/-! The programs keep to the protocol. -/

theorem not_waits_of_within {u' : UaccPtr} {ks : List Kind} {o : Op} (h : Within u' ks o)
    (hks : .cond ∉ ks) : ¬Waits u o := by
  intro hwaits
  obtain rfl | rfl := hwaits <;> exact hks h.2

theorem not_waits_of_other {u' : UaccPtr} {ks : List Kind} {o : Op} (h : Within u' ks o)
    (hne : u ≠ u') : ¬Waits u o := by
  intro hwaits
  obtain rfl | rfl := hwaits <;> exact hne (h.1 u rfl)

theorem follows_phase {p : UaProg α} (hp : p.All fun o => ¬Waits u o) (x : Phase) :
    (protocol u).Follows t p x fun _ x' => x' = x :=
  .within hp trivial (fun _ => rfl) fun o ho => ⟨trivial, fun b => .other x o b ho⟩

theorem restsOutside : RestsOutside (protocol u) t .rest where
  reads := trivial
  sees := fun _ => rfl
  does := by
    intro o ho
    refine ⟨trivial, fun b => .other _ o b ?_⟩
    rintro (rfl | rfl) <;> exact ho List.mem_cons_self

/-- The request to start an installation, sent or not. -/
theorem sendRequest_follows (pkgFile : Option PkgFile) (ue : UpdateErr) :
    (protocol u).Follows t (sendInstallStatus u .inProgress pkgFile ue) .rest
      fun err x => x = if err = eUaOk then .asked else .rest := by
  have horCrash : ∀ value : Option String, Rests (protocol u) t .rest (orCrash value) :=
    rests_orCrash restsOutside
  have hlist : Rests (protocol u) t .rest (statusVersionList .inProgress pkgFile ue) :=
    rests_of_within restsOutside (statusVersionList_within u [.env] (by decide) _ pkgFile ue)
      (by decide)
  have hsequence : ∀ name, Rests (protocol u) t .rest (statusSequence name) := fun name =>
    follows_phase (by simp [statusSequence, Waits]) .rest
  have hreply : (protocol u).Follows t (statusReplyId u .inProgress) .rest
      fun _ x => x = .asked := by
    refine .bind (.mono (follows_phase (by simp [Waits]) .rest) ?_)
    intro replyId x hx
    subst hx
    exact ⟨trivial, fun b => ⟨.asked, .ask replyId b, rfl⟩⟩
  have hsend : ∀ m, (protocol u).Follows t (ext (.uaSendMessage m)) .asked
      fun err x => x = if err = eUaOk then .asked else .rest := by
    intro m
    refine ⟨trivial, fun err => ⟨if err = eUaOk then .asked else .rest, ?_, rfl⟩⟩
    split
    · exact .other _ _ err (by simp [Waits])
    · exact .giveUp _ err (by simp [Waits])
  have hrest : ∀ {β : Type} {p : UaProg β} {f : β → UaProg Rc}, Rests (protocol u) t .rest p →
      (∀ a, (protocol u).Follows t (f a) .rest
        fun err x => x = if err = eUaOk then .asked else .rest) →
      (protocol u).Follows t (p >>= f) .rest
        fun err x => x = if err = eUaOk then .asked else .rest := by
    intro β p f hp hf
    refine .bind (hp.mono fun a x hx => ?_)
    subst hx
    exact hf a
  unfold sendInstallStatus
  refine hrest (rests_readComp restsOutside u _) fun pkgInfo => hrest (horCrash _) fun name =>
    hrest (horCrash _) fun type => hrest (horCrash _) fun version =>
    hrest (rests_readIntl restsOutside _) fun customMsg => hrest hlist fun versionList =>
    hrest (hsequence name) fun sequence => ?_
  refine .bind (hreply.mono fun replyId x hx => ?_)
  subst hx
  exact hsend _

theorem awaitConsent_follows : (protocol u).Follows t (awaitConsent u) .asked
    fun _ x => x = .rest := by
  refine .bind ⟨trivial, fun b => ⟨.asked, .other _ _ b (by simp [Waits]), ?_⟩⟩
  refine .bind ⟨trivial, fun b => ⟨.waiting, .wait b, ?_⟩⟩
  refine .bind ⟨trivial, fun rc => ⟨.rest, .wakeup rc, ?_⟩⟩
  exact follows_phase (by simp [takeSuccessful, Waits]) .rest

theorem rests_preUpdateAction : Rests (protocol u) t .rest (preUpdateAction u) := by
  have hpre : Rests (protocol u) t .rest (preInstall u) :=
    follows_phase (by simp [preInstall, Waits]) .rest
  refine Rests.bind hpre fun state => ?_
  split
  · rename_i hstate
    rw [hstate]
    refine Rests.bind (rests_readComp restsOutside u _) fun pkgFile => ?_
    refine Protocol.Follows.bind ((sendRequest_follows _ _).mono fun err x hx => ?_)
    subst hx
    split
    · exact awaitConsent_follows
    · rfl
  · rfl

theorem rests_ownInstall (rebootSupport : Bool) :
    Rests (protocol u) t .rest (updateStartInstallOperations u rebootSupport) := by
  have hsame : Rests (protocol u) t .rest (isInstalledAlready u) :=
    follows_phase (by simp [isInstalledAlready, updateInstalledVersionSame, Waits]) .rest
  have hsave : Rests (protocol u) t .rest (saveRecord u) :=
    follows_phase ((saveRecord_within u _ fun _ h => h).mono fun _ ho =>
      not_waits_of_within ho (by decide)) .rest
  have hinstall : ∀ updateSts,
      Rests (protocol u) t .rest (updateRecordedInstall u updateSts rebootSupport) :=
    fun updateSts => follows_phase ((updateRecordedInstall_within u _ (fun _ h => h) _ _).mono
      fun _ ho => not_waits_of_within ho (by decide)) .rest
  have hdone : Rests (protocol u) t .rest (ignoring (sendInstallStatus u .completed none .none)) :=
    Rests.bind (rests_sendInstallStatus restsOutside u _ _ _) fun _ => rfl
  refine Rests.bind hsame fun same => rests_ite ?_ ?_
  · exact Rests.bind hdone fun _ =>
      Rests.bind (rests_postUpdateAction restsOutside u) fun _ => rfl
  · exact Rests.bind rests_preUpdateAction fun updateSts =>
      Rests.bind (rests_doIf hsave) fun _ => hinstall updateSts

theorem rests_ownReply (jsonObj : Json) :
    Rests (protocol u) t .rest (processUpdateStatus u jsonObj) := by
  have hop : ∀ o, ¬Waits u o → Rests (protocol u) t .rest (op o) := fun o ho =>
    follows_phase (by simp [ho]) .rest
  have hstore : ∀ verdict, Rests (protocol u) t .rest (storeVerdict u verdict) := by
    intro verdict
    cases verdict with
    | none => rfl
    | some successful => exact follows_phase (by simp [storeVerdict, Waits]) .rest
  have haccept : Rests (protocol u) t .rest (acceptReply u jsonObj) :=
    Rests.bind (hop _ (by simp [Waits])) fun _ => Rests.bind (hop _ (by simp [Waits])) fun _ =>
      Rests.bind (hstore _) fun _ => Rests.bind (hop _ (by simp [Waits])) fun _ =>
      hop _ (by simp [Waits])
  exact rests_doIf <| Rests.bind (hop _ (by simp [Waits])) fun matched => rests_doIf haccept

theorem rests_updateStartInstallOperations (u' : UaccPtr) (rebootSupport : Bool) :
    Rests (protocol u) t .rest (updateStartInstallOperations u' rebootSupport) := by
  by_cases hu : u = u'
  · subst hu
    exact rests_ownInstall rebootSupport
  · exact follows_phase ((updateStartInstallOperations_within u' _ (fun _ h => h) _).mono
      fun _ ho => not_waits_of_other ho hu) .rest

theorem rests_processUpdateStatus (u' : UaccPtr) (jsonObj : Json) :
    Rests (protocol u) t .rest (processUpdateStatus u' jsonObj) := by
  by_cases hu : u = u'
  · subst hu
    exact rests_ownReply jsonObj
  · exact follows_phase ((processUpdateStatus_within u' _ (fun _ h => h) jsonObj).mono
      fun _ ho => not_waits_of_other ho hu) .rest

/-! What the phases say about the state. -/

/-- What one operation does to the threads that wait. -/
def waitingStep (u : UaccPtr) (t : Tid) (o : Op) (old : List Tid) : List Tid :=
  match o with
  | .condSignal u' => if u' = u then old.tail else old
  | .condTimedwait u' => if u' = u then old ++ [t] else old
  | .condWakeup u' => if u' = u then old.erase t else old
  | _ => old

theorem setUpdateStatusInfo_cond (s : Shared) (u u' : UaccPtr) (info : AsyncUpdateStatus) :
    ((Shared.setUpdateStatusInfo s u' info).comp u).updateStatusInfo.cond =
      if u' = u then info.cond else (s.comp u).updateStatusInfo.cond := by
  by_cases h : u' = u
  · subst h
    simp [Shared.setUpdateStatusInfo]
  · simp [Shared.setUpdateStatusInfo, h, Ne.symm h]

theorem setOwner_cond (s : Shared) (u : UaccPtr) (lock : Mutex) (owner : Option Tid) :
    ((Shared.setOwner s lock owner).comp u).updateStatusInfo.cond =
      (s.comp u).updateStatusInfo.cond := by
  cases lock with
  | updateStatus u' =>
    rw [Shared.setOwner, setUpdateStatusInfo_cond]
    split
    · rename_i h
      rw [h]
    · rfl
  | intl | backup => rfl

theorem setComp_cond (s : Shared) (u u' : UaccPtr) (c : UaComponentContext)
    (h : c.updateStatusInfo.cond = (s.comp u').updateStatusInfo.cond) :
    ((Shared.setComp s u' c).comp u).updateStatusInfo.cond =
      (s.comp u).updateStatusInfo.cond := by
  by_cases hu : u = u'
  · rw [hu, setComp_self, h]
  · rw [setComp_of_ne s c hu]

theorem effect_waiting {cfg : AgentConfig} {s s' : Shared} {o : Op} {b : o.Ans}
    (h : effect cfg t s o b = some s') (u : UaccPtr) :
    (s'.comp u).updateStatusInfo.cond =
      waitingStep u t o (s.comp u).updateStatusInfo.cond := by
  cases o with
  | condSignal u' =>
    simp only [effect, Option.some.injEq] at h
    rw [← h, setUpdateStatusInfo_cond, waitingStep]
    split
    · rename_i hu
      rw [hu]
    · rfl
  | condTimedwait u' =>
    simp only [effect] at h
    split at h
    · rw [← Option.some.inj h, setUpdateStatusInfo_cond, waitingStep]
      split
      · rename_i hu
        rw [hu]
      · rfl
    · cases h
  | condWakeup u' =>
    simp only [effect, wakeup] at h
    split at h
    · rw [← Option.some.inj h, setUpdateStatusInfo_cond, waitingStep]
      split
      · rename_i hu
        rw [hu]
      · rfl
    · cases h
  | mutexLock lock =>
    simp only [effect] at h
    split at h
    · rw [← Option.some.inj h, setOwner_cond]
      rfl
    · cases h
  | mutexUnlock lock =>
    simp only [effect] at h
    split at h
    · rw [← Option.some.inj h, setOwner_cond]
      rfl
    · cases h
  | assign u' x =>
    simp only [effect, Option.some.injEq] at h
    rw [← h, setComp_cond]
    · rfl
    · cases x <;> rfl
  | chkIncomingSeq u' name num =>
    simp only [effect] at h
    split at h
    · rw [← Option.some.inj h, setComp_cond]
      · rfl
      · rfl
    · cases h
  | setCompContext u' cc =>
    simp only [effect] at h
    split at h
    · rw [← Option.some.inj h, setIntl_comp, setComp_cond]
      · rfl
      · unfold updateSetCompContext
        grind
    · cases h
  | recordOpen path =>
    simp only [effect, Option.some.injEq] at h
    subst h
    cases b <;> rfl
  | remove path =>
    simp only [effect, Option.some.injEq] at h
    subst h
    cases path <;> rfl
  | updateOutgoingSeq | ext | testCleanupOk | matchReplyId | recordLoad | queryHashTree =>
    simp only [effect] at h
    split at h
    · rw [← Option.some.inj h]
      rfl
    · cases h
  | assignIntl | mark | recordWrite | createWorker | createResume | createPresence
  | createSequence =>
    simp only [effect, Option.some.injEq] at h
    rw [← h]
    rfl

theorem answered_cons {e : Event} {h : List Event} (ha : Answered u t (e :: h)) :
    (∃ t' b, e = .did t' (.condSignal u) b ∧ matched u h = some t) ∨ Answered u t h := by
  rw [Answered, answered.eq_def] at ha
  split at ha
  · cases ha
  · rename_i heq
    cases heq
    rw [Bool.and_eq_true] at ha
    exact Or.inr ha.2
  · rename_i heq
    cases heq
    rw [Bool.or_eq_true, decide_eq_true_eq] at ha
    obtain ⟨rfl, hmatched⟩ | ha := ha
    · exact Or.inl ⟨_, _, rfl, hmatched⟩
    · exact Or.inr ha
  · cases ha
  · rename_i heq
    cases heq
    exact Or.inr ha

variable {cfg : AgentConfig} {w w' : World} {o : Op} {b : o.Ans}

/-- A thread that does not act stays in its phase. -/
theorem fits_kept {x : Phase} (h : Fits u t x w)
    (hcond : waiting u w' = waiting u w ∨ waiting u w' = (waiting u w).tail)
    (hanswered : Answered u t w'.trace → Answered u t w.trace ∨
      (waiting u w).head? = some t ∧ waiting u w' = (waiting u w).tail) : Fits u t x w' := by
  have hsub : t ∈ waiting u w' → t ∈ waiting u w := by
    intro ht
    obtain hc | hc := hcond <;> rw [hc] at ht
    · exact ht
    · exact List.mem_of_mem_tail ht
  have hcount : (waiting u w').count t ≤ (waiting u w).count t := by
    obtain hc | hc := hcond
    · exact Nat.le_of_eq (by rw [hc])
    · rw [hc]
      exact (List.tail_sublist (waiting u w)).count_le t
  cases x with
  | rest => exact fun ht => h (hsub ht)
  | asked =>
    refine ⟨fun ht => h.1 (hsub ht), fun ha => ?_⟩
    obtain hold | ⟨hhead, -⟩ := hanswered ha
    · exact h.2 hold
    · exact h.1 (List.mem_of_mem_head? hhead)
  | waiting =>
    refine ⟨Nat.le_trans hcount h.1, fun ht ha => ?_⟩
    obtain hold | ⟨hhead, htail⟩ := hanswered ha
    · exact h.2 (hsub ht) hold
    · -- the signalled thread was waiting once only
      obtain ⟨others, hothers⟩ := List.head?_eq_some_iff.mp hhead
      have hone := h.1
      rw [hothers, List.count_cons_self] at hone
      rw [htail, hothers, List.tail_cons] at ht
      have hzero : others.count t = 0 := by omega
      exact List.count_eq_zero.mp hzero ht

variable {C : Tid → Event → World → Prop}

/-- An operation that is not part of the wait, for every thread in any phase. -/
theorem other_fits (hC : ∀ t e w, C t e w → SignalsWaiting t e w) {t₂ : Tid} {x : Phase}
    (h : Fits u t₂ x w) (hact : (runsWhere cfg C).act t o b w w') (hwaits : ¬Waits u o) :
    Fits u t₂ x w' := by
  obtain ⟨⟨heffect, htrace⟩, hevents⟩ := hact
  have hcond : waiting u w' = waitingStep u t o (waiting u w) := effect_waiting heffect u
  by_cases hsignal : o = .condSignal u
  · subst hsignal
    have htail : waiting u w' = (waiting u w).tail := by rw [hcond, waitingStep, if_pos rfl]
    refine fits_kept h (Or.inr htail) fun ha => ?_
    rw [htrace] at ha
    obtain ⟨_, _, -, hmatched⟩ | ha := answered_cons ha
    · right
      obtain hnone | hhead := hC _ _ _ (hevents _ htrace)
      · rw [hnone] at hmatched
        cases hmatched
      · exact ⟨hhead.symm.trans hmatched, htail⟩
    · exact Or.inl ha
  · have hkeep : waiting u w' = waiting u w := by
      rw [hcond]
      cases o with
      | condSignal u' =>
        exact if_neg fun hu => hsignal (by rw [hu])
      | condTimedwait u' =>
        exact if_neg fun hu => hwaits (Or.inl (by rw [hu]))
      | condWakeup u' =>
        exact if_neg fun hu => hwaits (Or.inr (by rw [hu]))
      | _ => rfl
    refine fits_kept h (Or.inl hkeep) fun ha => ?_
    rw [htrace] at ha
    obtain ⟨_, _, he, -⟩ | ha := answered_cons ha
    · obtain ⟨-, ho, -⟩ := Event.did.inj he
      exact absurd ho hsignal
    · exact Or.inl ha

/-- The wait of one thread is nothing to another one. -/
theorem wait_fits {t₂ : Tid} {x : Phase} (h : Fits u t₂ x w)
    (hact : (runsWhere cfg C).act t o b w w') (hwaits : Waits u o) (hne : t₂ ≠ t) :
    Fits u t₂ x w' := by
  obtain ⟨⟨heffect, htrace⟩, -⟩ := hact
  have hcond : waiting u w' = waitingStep u t o (waiting u w) := effect_waiting heffect u
  have hmem : (t₂ ∈ waiting u w' ↔ t₂ ∈ waiting u w) ∧
      (waiting u w').count t₂ = (waiting u w).count t₂ := by
    rw [hcond]
    obtain rfl | rfl := hwaits
    · simp [waitingStep, hne, hne.symm]
    · simp [waitingStep, List.mem_erase_of_ne hne, List.count_erase_of_ne hne]
  have hanswered : Answered u t₂ w'.trace → Answered u t₂ w.trace := by
    intro ha
    rw [htrace] at ha
    obtain ⟨_, _, he, -⟩ | ha := answered_cons ha
    · obtain ⟨-, rfl, -⟩ := Event.did.inj he
      obtain h | h := hwaits <;> cases h
    · exact ha
  cases x with
  | rest => exact fun ht => h (hmem.1.mp ht)
  | asked => exact ⟨fun ht => h.1 (hmem.1.mp ht), fun ha => h.2 (hanswered ha)⟩
  | waiting =>
    exact ⟨by rw [hmem.2]; exact h.1, fun ht ha => h.2 (hmem.1.mp ht) (hanswered ha)⟩

theorem act_fits (hC : ∀ t e w, C t e w → SignalsWaiting t e w) {phase : Tid → Phase} {x' : Phase}
    (hfits : ∀ t, Fits u t (phase t) w) (hact : (runsWhere cfg C).act t o b w w')
    (hdoes : Does u t (phase t) o b x') :
    Fits u t x' w' ∧ ∀ t₂, t₂ ≠ t → Fits u t₂ (phase t₂) w' := by
  have ht := hfits t
  have hothers : ∀ t₂, t₂ ≠ t → Fits u t₂ (phase t₂) w' := by
    intro t₂ hne
    by_cases hwaits : Waits u o
    · exact wait_fits (hfits t₂) hact hwaits hne
    · exact other_fits hC (hfits t₂) hact hwaits
  refine ⟨?_, hothers⟩
  have htrace := hact.1.2
  have hcond : waiting u w' = waitingStep u t o (waiting u w) := effect_waiting hact.1.1 u
  generalize hx : phase t = x at hdoes ht
  cases hdoes with
  | other _ _ _ hwaits => exact other_fits hC ht hact hwaits
  | ask replyId b =>
    refine ⟨(other_fits hC ht hact (by simp [Waits]) : Fits u t .rest w'), fun ha => ?_⟩
    simp [Answered, htrace, answered] at ha
  | giveUp o b hwaits =>
    have hasked : Fits u t .asked w' := other_fits hC ht hact hwaits
    exact hasked.1
  | wait b =>
    have happend : waiting u w' = waiting u w ++ [t] := by rw [hcond, waitingStep, if_pos rfl]
    refine ⟨?_, fun _ ha => ht.2 ?_⟩
    · rw [happend, List.count_append, List.count_eq_zero.mpr ht.1]
      simp
    · rw [htrace] at ha
      obtain ⟨_, _, he, -⟩ | ha := answered_cons ha
      · obtain ⟨-, h, -⟩ := Event.did.inj he
        cases h
      · exact ha
  | wakeup b =>
    have herase : waiting u w' = (waiting u w).erase t := by rw [hcond, waitingStep, if_pos rfl]
    show t ∉ waiting u w'
    rw [herase, ← List.count_eq_zero, List.count_erase_self]
    have hone := ht.1
    omega

theorem sound (hC : ∀ t e w, C t e w → SignalsWaiting t e w) :
    (protocol u).Sound .rest (Fits u) (runsWhere cfg C) where
  init := by
    intro w hinit t
    obtain ⟨_, ctrl, hw⟩ := hinit
    simp [Fits, waiting, hw, AgentConfig.started, UaComponentContext.registered]
  restart := by
    intro w w' hrestart t
    obtain ⟨_, ctrl, hw⟩ := hrestart
    simp [Fits, waiting, hw, AgentConfig.started, UaComponentContext.registered]
  sees := by
    intro t w phase x' hfits hsees
    rw [hsees]
    exact hfits t
  act := by
    intro t o b w w' phase x' hfits hact hdoes
    obtain ⟨ht, hothers⟩ := act_fits hC hfits hact hdoes
    refine ⟨ht, fun t₂ hne _ => hothers t₂ hne, fun t₂ p hne hfork hrest => ?_⟩
    have hrests := hothers t₂ hne
    rw [hrest] at hrests
    exact ⟨.rest, hrests, rests_forked restsOutside
      (show fork t o b = some (t₂, p) from hfork) fun u' => rests_workerAction restsOutside
        (rests_updateStartInstallOperations u') (rests_processUpdateStatus u')⟩
  arrive := by
    intro t p w w' phase hfits hrest h
    obtain ⟨⟨e, harrive, hw⟩, _⟩ := h
    have hkeep : ∀ t₂, Fits u t₂ (phase t₂) w' := by
      intro t₂
      refine fits_kept (hfits t₂) (Or.inl (by rw [waiting, waiting, hw])) fun ha => ?_
      rw [hw] at ha
      obtain ⟨_, _, he, -⟩ | ha := answered_cons ha
      · rw [he] at harrive
        cases harrive
      · exact Or.inl ha
    refine ⟨⟨.rest, ?_, ?_⟩, fun t₂ _ => hkeep t₂⟩
    · have ht := hkeep t
      rw [hrest] at ht
      exact ht
    · cases harrive with
      | message u' msg hreg =>
        exact rests_runnerPass restsOutside (rests_updateStartInstallOperations u')
          (rests_processUpdateStatus u') msg
      | presence connected => exact rests_handlePresence restsOutside cfg.nUah connected

/-- No thread is blocked waiting for a reply that has been processed; the wait of a thread whose
reply has been processed ends as signalled, not by the clock. -/
structure ActedOn (cfg : AgentConfig) (u : UaccPtr) (c : AgentConfiguration) : Prop where
  blocked : ∀ t, Answered u t c.st.trace → t ∉ waiting u c.st
  wakeup : ∀ t, Answered u t c.st.trace → ∀ rc s,
    effect cfg t c.st.shared (.condWakeup u) rc = some s → rc = .signalled

/-- In the runs in which every signal finds its thread waiting, replies are acted on. -/
theorem actedOn_of_signalsWaiting {c : AgentConfiguration}
    (hc : (runsWhere cfg SignalsWaiting).Reachable c) (u : UaccPtr) : ActedOn cfg u c := by
  have hsound : (protocol u).Sound .rest (Fits u) (runsWhere cfg SignalsWaiting) :=
    sound fun _ _ _ h => h
  obtain ⟨phase, hphase⟩ := hsound.phases hc
  have hblocked : ∀ t, Answered u t c.st.trace → t ∉ waiting u c.st := by
    intro t hanswered
    have hfits := (hphase t).1
    cases hx : phase t with
    | rest =>
      rw [hx] at hfits
      exact hfits
    | asked =>
      rw [hx] at hfits
      exact hfits.1
    | waiting =>
      rw [hx] at hfits
      exact fun ht => hfits.2 ht hanswered
  refine ⟨hblocked, fun t hanswered rc s heffect => ?_⟩
  simp only [effect, wakeup] at heffect
  split at heffect
  · rename_i hwakeup
    exact hwakeup.2.mpr (hblocked t hanswered)
  · cases heffect

/-! The reply comes while the worker waits, and before it does. -/

def readyTwo : Json :=
  packageMessage bmtReadyUpdate [] "pkg" "2" (downloadedFile "2")

def consent : Json :=
  .object [("type", .string bmtUpdateStatus), ("reply-to", .string "reply"),
    ("body", .object [("successful", .bool true)])]

/-- A worker that has made `n` steps for a ready-update when the reply is processed, and then
`m` more. -/
def repliedAt (C : Tid → Event → World → Prop) [∀ t e w, Decidable (C t e w)] (n m : Nat) :
    AgentConfiguration :=
  rehearse (sampleConfig false 1) C (usualOracle "1")
    [connected (sampleConfig false 1) C, .steps .bus 60, .steps (.presence 0) 10,
      message (sampleConfig false 1) C 0 Nat.one_pos readyTwo, .steps (.runner 0) 60,
      .steps (.worker 0 0) n, message (sampleConfig false 1) C 0 Nat.one_pos consent,
      .steps (.runner 0) 60, .steps (.worker 0 0) m]

/-- The reply is processed when the worker waits. -/
theorem actedOn_example : ActedOn (sampleConfig false 1) 0 (repliedAt SignalsWaiting 67 0) :=
  actedOn_of_signalsWaiting (rehearse_reachable _ _ _ _) 0

/-- The request has been sent, and the worker has not locked yet, when the reply is processed. -/
theorem reply_before_wait :
    (agent (sampleConfig false 1)).Reachable (repliedAt Anything 65 2) ∧
      ¬ActedOn (sampleConfig false 1) 0 (repliedAt Anything 65 2) := by
  have hanswered : Answered 0 (.worker 0 0) (repliedAt Anything 65 2).st.trace := by
    decide +kernel
  have hwaiting : Tid.worker 0 0 ∈ waiting 0 (repliedAt Anything 65 2).st := by decide +kernel
  exact ⟨agent_reachable _ _ _, fun h => h.blocked _ hanswered hwaiting⟩

end EsyncUa.ConsentReplies
