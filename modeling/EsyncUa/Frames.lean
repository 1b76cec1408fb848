import EsyncUa.Footprints

/-!
What one operation leaves alone. An operation on one component leaves the others as they
are, and a field of a component or of `ua_intl` is changed only by operations of certain
kinds. A record file is changed only where its path is opened, written or removed.
-/
namespace EsyncUa.Frames

open EsyncUa.JsonProperties EsyncUa.Components EsyncUa.Records EsyncUa.Operations
open EsyncUa.Installation EsyncUa.Updater EsyncUa.Messages EsyncUa.Agents EsyncUa.Footprints

variable {cfg : AgentConfig} {t : Tid} {s s' : Shared} {o : Op} {b : o.Ans}

@[simp] theorem setComp_self (s : Shared) (uacc : UaccPtr) (c : UaComponentContext) :
    (Shared.setComp s uacc c).comp uacc = c := Function.update_self ..

@[simp] theorem setComp_of_ne (s : Shared) {uacc uacc' : UaccPtr} (c : UaComponentContext)
    (h : uacc' ≠ uacc) : (Shared.setComp s uacc c).comp uacc' = s.comp uacc' :=
  Function.update_of_ne h ..

@[simp] theorem setComp_intl (s : Shared) (uacc : UaccPtr) (c : UaComponentContext) :
    (Shared.setComp s uacc c).intl = s.intl := rfl

@[simp] theorem setComp_records (s : Shared) (uacc : UaccPtr) (c : UaComponentContext) :
    (Shared.setComp s uacc c).records = s.records := rfl

@[simp] theorem setIntl_comp (s : Shared) (intl : UaInternal) :
    (Shared.setIntl s intl).comp = s.comp := rfl

@[simp] theorem setIntl_intl (s : Shared) (intl : UaInternal) :
    (Shared.setIntl s intl).intl = intl := rfl

@[simp] theorem setIntl_records (s : Shared) (intl : UaInternal) :
    (Shared.setIntl s intl).records = s.records := rfl

@[simp] theorem setRecord_comp (s : Shared) (path : String) (content : Option RecordContent) :
    (Shared.setRecord s path content).comp = s.comp := rfl

@[simp] theorem setRecord_intl (s : Shared) (path : String) (content : Option RecordContent) :
    (Shared.setRecord s path content).intl = s.intl := rfl

/-- What an operation does to one component. -/
inductive CompChange (s₀ : Shared) (u : UaccPtr) : Op → UaComponentContext → Prop
  | none (o : Op) : CompChange s₀ u o (s₀.comp u)
  | assign (x : Assign) : CompChange s₀ u (.assign u x) (Assign.apply x (s₀.comp u))
  | seqIn (name : String) (num : Int32) : CompChange s₀ u (.chkIncomingSeq u name num)
      { s₀.comp u with seqIn := (handlerChkIncomingSeqOutdated (s₀.comp u).seqIn name num).1 }
  | setContext (cc : Json) : CompChange s₀ u (.setCompContext u cc)
      (updateSetCompContext (s₀.comp u) s₀.intl.componentCtrl cc).2.1
  | status (o : Op) (lock : Option Tid) (cond : List Tid) (hon : Op.on o = some u)
      (hkind : Op.kind o = .lock ∨ Op.kind o = .cond) : CompChange s₀ u o
      { s₀.comp u with updateStatusInfo :=
        { (s₀.comp u).updateStatusInfo with lock := lock, cond := cond } }

theorem CompChange.setComp {u uacc : UaccPtr} {c : UaComponentContext} (h : CompChange s u o c) :
    CompChange s uacc o ((Shared.setComp s u c).comp uacc) := by
  by_cases hu : uacc = u
  · subst hu
    simpa using h
  · simpa [hu] using .none o

theorem setOwner_comp (lock : Mutex) (owner : Option Tid)
    (ho : o = .mutexLock lock ∨ o = .mutexUnlock lock) (uacc : UaccPtr) :
    CompChange s uacc o ((Shared.setOwner s lock owner).comp uacc) := by
  cases lock with
  | updateStatus u =>
      refine CompChange.setComp (.status o owner _ ?_ ?_)
      · rcases ho with rfl | rfl <;> rfl
      · rcases ho with rfl | rfl <;> exact .inl rfl
  | intl => exact .none o
  | backup => exact .none o

theorem effect_comp (h : effect cfg t s o b = some s') (uacc : UaccPtr) :
    CompChange s uacc o (s'.comp uacc) := by
  cases o with
  | assign u x =>
      simp only [effect, Option.some.injEq] at h
      subst h
      exact CompChange.setComp (.assign x)
  | chkIncomingSeq u name num =>
      simp only [effect] at h
      split at h
      · obtain rfl := Option.some.inj h
        exact CompChange.setComp (.seqIn name num)
      · simp at h
  | setCompContext u cc =>
      simp only [effect] at h
      split at h
      · obtain rfl := Option.some.inj h
        exact CompChange.setComp (.setContext cc)
      · simp at h
  | mutexLock lock =>
      simp only [effect] at h
      split at h
      · obtain rfl := Option.some.inj h
        exact setOwner_comp lock _ (.inl rfl) uacc
      · simp at h
  | mutexUnlock lock =>
      simp only [effect] at h
      split at h
      · obtain rfl := Option.some.inj h
        exact setOwner_comp lock _ (.inr rfl) uacc
      · simp at h
  | condSignal u =>
      simp only [effect] at h
      obtain rfl := Option.some.inj h
      exact CompChange.setComp (.status _ _ _ rfl (.inr rfl))
  | condTimedwait u =>
      simp only [effect] at h
      split at h
      · obtain rfl := Option.some.inj h
        exact CompChange.setComp (.status _ _ _ rfl (.inr rfl))
      · simp at h
  | condWakeup u =>
      simp only [effect, wakeup] at h
      split at h
      · obtain rfl := Option.some.inj h
        exact CompChange.setComp (.status _ _ _ rfl (.inr rfl))
      · simp at h
  | remove path =>
      simp only [effect, Option.some.injEq] at h
      subst h
      cases path <;> exact .none _
  | recordOpen path =>
      simp only [effect, Option.some.injEq] at h
      subst h
      cases b <;> exact .none _
  | updateOutgoingSeq | ext | testCleanupOk | matchReplyId | recordLoad | queryHashTree =>
      simp only [effect] at h
      split at h
      · obtain rfl := Option.some.inj h
        exact .none _
      · simp at h
  | assignIntl | mark | recordWrite | createWorker | createResume | createPresence
  | createSequence =>
      simp only [effect, Option.some.injEq] at h
      subst h
      exact .none _

/-- What an operation does to `ua_intl`. -/
inductive IntlChange (s₀ : Shared) : Op → UaInternal → Prop
  | none (o : Op) : IntlChange s₀ o s₀.intl
  | assign (x : AssignIntl) : IntlChange s₀ (.assignIntl x) (AssignIntl.apply x s₀.intl)
  | seqOut (name : String) (num : Int32) : IntlChange s₀ (.updateOutgoingSeq name num)
      { s₀.intl with seqOut := (handlerUpdateOutgoingSeqNum s₀.intl.seqOut name num).1 }
  | setContext (u : UaccPtr) (cc : Json) : IntlChange s₀ (.setCompContext u cc)
      { s₀.intl with
        componentCtrl := (updateSetCompContext (s₀.comp u) s₀.intl.componentCtrl cc).2.2 }
  | lock (o : Op) (lock backupLock : Option Tid)
      (hkind : Op.kind o = .lock ∨ Op.kind o = .intlLock) :
      IntlChange s₀ o { s₀.intl with lock := lock, backupLock := backupLock }

theorem setOwner_intl (lock : Mutex) (owner : Option Tid)
    (hkind : Op.kind o = .lock ∨ Op.kind o = .intlLock) :
    IntlChange s o (Shared.setOwner s lock owner).intl := by
  cases lock with
  | updateStatus u => exact .none o
  | intl => exact .lock o owner s.intl.backupLock hkind
  | backup => exact .lock o s.intl.lock owner hkind

theorem effect_intl (h : effect cfg t s o b = some s') : IntlChange s o s'.intl := by
  cases o with
  | assignIntl x =>
      simp only [effect, Option.some.injEq] at h
      subst h
      exact .assign x
  | updateOutgoingSeq name num =>
      simp only [effect] at h
      split at h
      · obtain rfl := Option.some.inj h
        exact .seqOut name num
      · simp at h
  | setCompContext u cc =>
      simp only [effect] at h
      split at h
      · obtain rfl := Option.some.inj h
        exact .setContext u cc
      · simp at h
  | mutexLock lock | mutexUnlock lock =>
      simp only [effect] at h
      split at h
      · obtain rfl := Option.some.inj h
        exact setOwner_intl lock _ (by cases lock <;> simp [Op.kind, Mutex.kind])
      · simp at h
  | remove path =>
      simp only [effect, Option.some.injEq] at h
      subst h
      cases path <;> exact .none _
  | recordOpen path =>
      simp only [effect, Option.some.injEq] at h
      subst h
      cases b <;> exact .none _
  | condWakeup u =>
      simp only [effect, wakeup] at h
      split at h
      · obtain rfl := Option.some.inj h
        exact .none _
      · simp at h
  | chkIncomingSeq | condTimedwait | ext | testCleanupOk | matchReplyId | recordLoad
  | queryHashTree =>
      simp only [effect] at h
      split at h
      · obtain rfl := Option.some.inj h
        exact .none _
      · simp at h
  | assign | condSignal | mark | recordWrite | createWorker | createResume | createPresence
  | createSequence =>
      simp only [effect, Option.some.injEq] at h
      subst h
      exact .none _

theorem effect_queryReplyId (h : effect cfg t s o b = some s') (hkind : Op.kind o ≠ .query) :
    s'.intl.queryReplyId = s.intl.queryReplyId := by
  have hchange := effect_intl h
  generalize s'.intl = intl at hchange
  cases hchange with
  | assign x =>
      cases x with
      | queryReplyId value => exact absurd rfl hkind
      | _ => rfl
  | _ => rfl

/-- The lock of `ua_intl` is released by the thread that holds it. -/
theorem effect_lock (h : effect cfg t s o b = some s') {owner : Tid} (hne : owner ≠ t)
    (hlock : s.intl.lock = some owner) : s'.intl.lock = some owner := by
  have hchange := effect_intl h
  generalize hintl : s'.intl = intl at hchange
  cases hchange with
  | lock _ _ _ hkind =>
      rw [← hintl]
      obtain ⟨lock, rfl | rfl⟩ := eq_of_kind_lock hkind
      all_goals
        simp only [effect] at h
        split at h
        · rename_i howner
          obtain rfl := Option.some.inj h
          cases lock with
          | intl => simp_all [Shared.owner]
          | _ => exact hlock
        · cases h
  | assign x => cases x <;> exact hlock
  | _ => exact hlock

/-- What an operation does to the record files. -/
inductive RecordChange (s₀ : Shared) : Op → Table RecordContent → Prop
  | none (o : Op) : RecordChange s₀ o s₀.records
  | opened (path : String) : RecordChange s₀ (.recordOpen path)
      (Function.update s₀.records path (some .torn))
  | written (path : String) (u : UaccPtr) : RecordChange s₀ (.recordWrite path u)
      (Function.update s₀.records path
        (some (.whole (updateGetCompContextJo (s₀.comp u) s₀.intl.componentCtrl))))
  | torn (path : String) (u : UaccPtr) : RecordChange s₀ (.recordWrite path u)
      (Function.update s₀.records path (some .torn))
  | removed (path : String) : RecordChange s₀ (.remove (some path))
      (Function.update s₀.records path .none)

theorem effect_records (h : effect cfg t s o b = some s') : RecordChange s o s'.records := by
  cases o with
  | recordOpen path =>
      simp only [effect, Option.some.injEq] at h
      subst h
      cases b with
      | true => exact .opened path
      | false => exact .none _
  | recordWrite path u =>
      simp only [effect, Option.some.injEq] at h
      subst h
      cases b with
      | true => exact .written path u
      | false => exact .torn path u
  | remove path =>
      simp only [effect, Option.some.injEq] at h
      subst h
      cases path with
      | some path => exact .removed path
      | none => exact .none _
  | condWakeup u =>
      simp only [effect, wakeup] at h
      split at h
      · obtain rfl := Option.some.inj h
        exact .none _
      · simp at h
  | mutexLock lock | mutexUnlock lock =>
      simp only [effect] at h
      split at h
      · obtain rfl := Option.some.inj h
        cases lock <;> exact .none _
      · simp at h
  | chkIncomingSeq | condTimedwait | ext | testCleanupOk | matchReplyId | recordLoad
  | queryHashTree | updateOutgoingSeq | setCompContext =>
      simp only [effect] at h
      split at h
      · obtain rfl := Option.some.inj h
        exact .none _
      · simp at h
  | assign | assignIntl | condSignal | mark | createWorker | createResume | createPresence
  | createSequence =>
      simp only [effect, Option.some.injEq] at h
      subst h
      exact .none _

/-- The threads that an operation may start. -/
theorem fork_cases {t' : Tid} {p : UaProg Unit} (h : fork t o b = some (t', p)) :
    (∃ u n, Event.did t o b = .did t (.createWorker u) (some n) ∧
      t' = .worker u n ∧ p = workerAction u) ∨
    (∃ u, Event.did t o b = .did t (.createResume u) true ∧
      t' = .resume u ∧ p = updateResumeFromReboot u) ∨
    (∃ n, Event.did t o b = .did t .createPresence (some n) ∧
      t' = .presence n ∧ p = uaHandleDmcPresence) ∨
    (∃ n passes, Event.did t o b = .did t .createSequence (some (n, passes)) ∧
      t' = .sequence n ∧ p = updateSequenceInfo (passes + 1)) := by
  unfold fork at h
  split at h
  · rename_i u n
    simp only [Option.some.injEq, Prod.mk.injEq] at h
    exact .inl ⟨u, n, rfl, h.1.symm, h.2.symm⟩
  · rename_i u
    simp only [Option.some.injEq, Prod.mk.injEq] at h
    exact .inr (.inl ⟨u, rfl, h.1.symm, h.2.symm⟩)
  · rename_i n
    simp only [Option.some.injEq, Prod.mk.injEq] at h
    exact .inr (.inr (.inl ⟨n, rfl, h.1.symm, h.2.symm⟩))
  · rename_i n passes
    simp only [Option.some.injEq, Prod.mk.injEq] at h
    exact .inr (.inr (.inr ⟨n, passes, rfl, h.1.symm, h.2.symm⟩))
  · simp at h

section Components

variable {α : Type}

/-- The value of `f` does not depend on what operations of other kinds change. -/
structure Ignores (f : UaComponentContext → α) (ks : List Kind) : Prop where
  assign : ∀ x c, Assign.kind x ∉ ks → f (Assign.apply x c) = f c
  seqIn : .seqIn ∉ ks → ∀ c seq, f { c with seqIn := seq } = f c
  status : ∀ c lock cond, f { c with updateStatusInfo :=
    { c.updateStatusInfo with lock := lock, cond := cond } } = f c
  setContext : .setContext ∉ ks → ∀ c ctrl cc, f (updateSetCompContext c ctrl cc).2.1 = f c

/-- A field of a component is only changed by the operations of certain kinds. -/
theorem effect_frame {f : UaComponentContext → α} {ks : List Kind} (hf : Ignores f ks)
    (h : effect cfg t s o b = some s') (hk : Op.kind o ∉ ks) (uacc : UaccPtr) :
    f (s'.comp uacc) = f (s.comp uacc) := by
  generalize hc : s'.comp uacc = c
  have hchange := effect_comp h uacc
  rw [hc] at hchange
  cases hchange with
  | none => rfl
  | assign x => exact hf.assign x _ hk
  | seqIn name num => exact hf.seqIn hk _ _
  | setContext cc => exact hf.setContext hk _ _ _
  | status _ lock cond => exact hf.status _ _ _

/-- An operation on one component leaves the others as they are. -/
theorem effect_other {uacc : UaccPtr} (h : effect cfg t s o b = some s')
    (hon : Op.on o ≠ some uacc) : s'.comp uacc = s.comp uacc := by
  generalize hc : s'.comp uacc = c
  have hchange := effect_comp h uacc
  rw [hc] at hchange
  cases hchange with
  | none => rfl
  | assign x => exact absurd rfl hon
  | seqIn name num => exact absurd rfl hon
  | setContext cc => exact absurd rfl hon
  | status _ lock cond hon' => exact absurd hon' hon

theorem ignores_worker : Ignores (·.worker) [.workerRunning, .workerArgs] where
  assign := by intro x c h; cases x <;> simp_all [Assign.apply, Assign.kind]
  seqIn := fun _ _ _ => rfl
  status := fun _ _ _ => rfl
  setContext := by
    intro _ c ctrl cc
    unfold updateSetCompContext
    grind

theorem ignores_seqIn : Ignores (·.seqIn) [.seqIn, .setContext] where
  assign := by intro x c _; cases x <;> rfl
  seqIn := fun h => absurd List.mem_cons_self h
  status := fun _ _ _ => rfl
  setContext := fun h => absurd (List.mem_cons_of_mem _ List.mem_cons_self) h

end Components

end EsyncUa.Frames
