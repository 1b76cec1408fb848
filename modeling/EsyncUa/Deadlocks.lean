import EsyncUa.FairRuns
import EsyncUa.Locking
import EsyncUa.Rehearsals

/-!
The mutexes of the agent in its runs. No thread ends with a mutex, or waits for one while it has
another one; so a thread that is blocked is blocked by one that is not, and in a fair run every
mutex is given back unless the agent has crashed inside of its critical section.
-/
namespace EsyncUa.Deadlocks

open EsyncUa.JsonProperties EsyncUa.Components EsyncUa.Records EsyncUa.Programs
open EsyncUa.Operations EsyncUa.Installation EsyncUa.Updater EsyncUa.Messages EsyncUa.Machines
open EsyncUa.Agents EsyncUa.Footprints EsyncUa.Frames EsyncUa.Phases EsyncUa.RestPhases
open EsyncUa.Locking EsyncUa.FairRuns EsyncUa.Schedules EsyncUa.Rehearsals

/-- The threads that wait for the condition of a component. -/
def waiters (s : Shared) (u : UaccPtr) : List Tid := (s.comp u).updateStatusInfo.cond

/-! What an operation does to the mutexes. -/

@[simp] theorem owner_setOwner (s : Shared) (lock : Mutex) (owner : Option Tid) :
    Shared.owner (Shared.setOwner s lock owner) lock = owner := by
  cases lock with
  | updateStatus u => simp [Shared.owner, Shared.setOwner, Shared.setUpdateStatusInfo]
  | intl | backup => rfl

theorem owner_setOwner_of_ne (s : Shared) {lock lock' : Mutex} (h : lock' ≠ lock)
    (owner : Option Tid) :
    Shared.owner (Shared.setOwner s lock owner) lock' = Shared.owner s lock' := by
  cases lock with
  | updateStatus u =>
    cases lock' with
    | updateStatus u' =>
      have hu : u' ≠ u := fun heq => h (by rw [heq])
      simp [Shared.owner, Shared.setOwner, Shared.setUpdateStatusInfo, hu]
    | intl | backup => rfl
  | intl | backup => cases lock' <;> first | rfl | exact absurd rfl h

@[simp] theorem waiters_setOwner (s : Shared) (lock : Mutex) (owner : Option Tid) (u : UaccPtr) :
    waiters (Shared.setOwner s lock owner) u = waiters s u := by
  cases lock with
  | updateStatus u' =>
    by_cases hu : u = u'
    · subst hu
      simp [waiters, Shared.setOwner, Shared.setUpdateStatusInfo]
    · simp [waiters, Shared.setOwner, Shared.setUpdateStatusInfo, hu]
  | intl | backup => rfl

/-- What an operation of thread `t` does to the mutexes and the conditions. -/
inductive LockChange (t : Tid) (s s' : Shared) : Op → Prop
  | plain (o : Op) (hplain : Plain o) (howner : Shared.owner s' = Shared.owner s)
      (hwait : waiters s' = waiters s) : LockChange t s s' o
  | lock (lock : Mutex) (hfree : Shared.owner s lock = none)
      (howner : Shared.owner s' lock = some t)
      (hother : ∀ lock', lock' ≠ lock → Shared.owner s' lock' = Shared.owner s lock')
      (hwait : waiters s' = waiters s) : LockChange t s s' (.mutexLock lock)
  | unlock (lock : Mutex) (hheld : Shared.owner s lock = some t)
      (howner : Shared.owner s' lock = none)
      (hother : ∀ lock', lock' ≠ lock → Shared.owner s' lock' = Shared.owner s lock')
      (hwait : waiters s' = waiters s) : LockChange t s s' (.mutexUnlock lock)
  | signal (u : UaccPtr) (howner : Shared.owner s' = Shared.owner s)
      (hwait : waiters s' = Function.update (waiters s) u (waiters s u).tail) :
      LockChange t s s' (.condSignal u)
  | wait (u : UaccPtr) (hheld : Shared.owner s (.updateStatus u) = some t)
      (howner : Shared.owner s' (.updateStatus u) = none)
      (hother : ∀ lock', lock' ≠ .updateStatus u → Shared.owner s' lock' = Shared.owner s lock')
      (hwait : waiters s' = Function.update (waiters s) u (waiters s u ++ [t])) :
      LockChange t s s' (.condTimedwait u)
  | wakeup (u : UaccPtr) (hfree : Shared.owner s (.updateStatus u) = none)
      (howner : Shared.owner s' (.updateStatus u) = some t)
      (hother : ∀ lock', lock' ≠ .updateStatus u → Shared.owner s' lock' = Shared.owner s lock')
      (hwait : waiters s' = Function.update (waiters s) u ((waiters s u).erase t)) :
      LockChange t s s' (.condWakeup u)

/-- A change of what one component has for its condition. -/
theorem waiters_setInfo (s : Shared) (u : UaccPtr) (info : AsyncUpdateStatus) :
    waiters (Shared.setUpdateStatusInfo s u info) = Function.update (waiters s) u info.cond := by
  funext u'
  by_cases hu : u' = u
  · subst hu
    simp [waiters, Shared.setUpdateStatusInfo]
  · simp [waiters, Shared.setUpdateStatusInfo, hu]

theorem owner_setInfo_self (s : Shared) (u : UaccPtr) (info : AsyncUpdateStatus) :
    Shared.owner (Shared.setUpdateStatusInfo s u info) (.updateStatus u) = info.lock := by
  simp [Shared.owner, Shared.setUpdateStatusInfo]

theorem owner_setInfo_of_ne (s : Shared) (u : UaccPtr) (info : AsyncUpdateStatus) {lock : Mutex}
    (h : lock ≠ .updateStatus u) :
    Shared.owner (Shared.setUpdateStatusInfo s u info) lock = Shared.owner s lock := by
  cases lock with
  | updateStatus u' =>
    have hu : u' ≠ u := fun heq => h (by rw [heq])
    simp [Shared.owner, Shared.setUpdateStatusInfo, hu]
  | intl | backup => rfl

variable {cfg : AgentConfig} {t : Tid} {s s' : Shared} {o : Op} {b : o.Ans}

theorem plain_locks (h : effect cfg t s o b = some s') (hplain : Plain o) :
    Shared.owner s' = Shared.owner s ∧ waiters s' = waiters s := by
  have hcomp : ∀ u, (s'.comp u).updateStatusInfo.lock = (s.comp u).updateStatusInfo.lock ∧
      (s'.comp u).updateStatusInfo.cond = (s.comp u).updateStatusInfo.cond := by
    intro u
    have hchange := effect_comp h u
    generalize s'.comp u = c at hchange
    cases hchange with
    | none | seqIn => exact ⟨rfl, rfl⟩
    | assign x => cases x <;> exact ⟨rfl, rfl⟩
    | setContext cc =>
      unfold updateSetCompContext
      grind
    | status _ lock cond _ hkind =>
      rcases hkind with hkind | hkind <;> simp [Plain, hkind] at hplain
  have hintl : s'.intl.lock = s.intl.lock ∧ s'.intl.backupLock = s.intl.backupLock := by
    have hchange := effect_intl h
    generalize s'.intl = intl at hchange
    cases hchange with
    | none | seqOut | setContext => exact ⟨rfl, rfl⟩
    | assign x => cases x <;> exact ⟨rfl, rfl⟩
    | lock _ lock backupLock hkind =>
      rcases hkind with hkind | hkind <;> simp [Plain, hkind] at hplain
  constructor
  · funext lock
    cases lock with
    | updateStatus u => exact (hcomp u).1
    | intl => exact hintl.1
    | backup => exact hintl.2
  · funext u
    exact (hcomp u).2

theorem effect_locks (h : effect cfg t s o b = some s') : LockChange t s s' o := by
  by_cases hplain : Plain o
  · obtain ⟨howner, hwait⟩ := plain_locks h hplain
    exact .plain o hplain howner hwait
  obtain ⟨lock, rfl⟩ | ⟨lock, rfl⟩ | ⟨u, rfl⟩ | ⟨u, rfl⟩ | ⟨u, rfl⟩ := not_plain_cases hplain
  · simp only [effect] at h
    split at h
    · rename_i hfree
      obtain rfl := Option.some.inj h
      exact .lock lock hfree (owner_setOwner ..) (fun _ hne => owner_setOwner_of_ne _ hne _)
        (funext (waiters_setOwner _ _ _))
    · cases h
  · simp only [effect] at h
    split at h
    · rename_i hheld
      obtain rfl := Option.some.inj h
      exact .unlock lock hheld (owner_setOwner ..) (fun _ hne => owner_setOwner_of_ne _ hne _)
        (funext (waiters_setOwner _ _ _))
    · cases h
  · simp only [effect] at h
    obtain rfl := Option.some.inj h
    refine .signal u (funext fun lock => ?_) (waiters_setInfo ..)
    by_cases hlock : lock = .updateStatus u
    · subst hlock
      exact owner_setInfo_self ..
    · exact owner_setInfo_of_ne _ _ _ hlock
  · simp only [effect] at h
    split at h
    · rename_i hheld
      obtain rfl := Option.some.inj h
      exact .wait u hheld (owner_setInfo_self ..) (fun _ hne => owner_setInfo_of_ne _ _ _ hne)
        (waiters_setInfo ..)
    · cases h
  · simp only [effect, wakeup] at h
    split at h
    · rename_i hfree
      obtain rfl := Option.some.inj h
      exact .wakeup u hfree.1 (owner_setInfo_self ..) (fun _ hne => owner_setInfo_of_ne _ _ _ hne)
        (waiters_setInfo ..)
    · cases h

/-! What the phase of a thread says about the state. -/

structure Fits (t : Tid) (x : Hold) (s : Shared) : Prop where
  owner : ∀ lock, Shared.owner s lock = some t ↔ x = .holds lock
  waiting : ∀ u, x ≠ .waits u → t ∉ waiters s u
  once : ∀ u, (waiters s u).count t ≤ 1

/-- A thread that gets a mutex has no other one. -/
theorem Fits.acquire {x : Hold} {lock : Mutex} (hfits : Fits t x s) (hx : ∀ lock, x ≠ .holds lock)
    (howner : Shared.owner s' lock = some t)
    (hother : ∀ lock', lock' ≠ lock → Shared.owner s' lock' = Shared.owner s lock')
    (hwait : ∀ u, t ∉ waiters s' u) : Fits t (.holds lock) s' where
  owner := by
    intro lock'
    by_cases hlock : lock' = lock
    · subst hlock
      simp [howner]
    · rw [hother lock' hlock, hfits.owner]
      exact ⟨fun h => absurd h (hx lock'), fun h => absurd (Hold.holds.inj h).symm hlock⟩
  waiting := fun u _ => hwait u
  once := fun u => by simp [List.count_eq_zero_of_not_mem (hwait u)]

/-- A thread that gives its mutex back has none. -/
theorem Fits.release {x : Hold} {lock : Mutex} (hfits : Fits t (.holds lock) s)
    (hx : ∀ lock, x ≠ .holds lock) (howner : Shared.owner s' lock = none)
    (hother : ∀ lock', lock' ≠ lock → Shared.owner s' lock' = Shared.owner s lock')
    (lock' : Mutex) : Shared.owner s' lock' = some t ↔ x = .holds lock' := by
  by_cases hlock : lock' = lock
  · subst hlock
    simp [howner, hx]
  · rw [hother lock' hlock, hfits.owner]
    exact ⟨fun h => absurd (Hold.holds.inj h).symm hlock, fun h => absurd h (hx lock')⟩

/-- The phase after an operation fits the state after it. -/
theorem fits_after {x : Hold} (hfits : Fits t x s) (hchange : LockChange t s s' o)
    (hmay : x.May o) : Fits t (x.after o) s' := by
  cases hchange with
  | plain _ hplain howner hwait =>
    rw [Plain.after hplain]
    exact ⟨by simpa [howner] using hfits.owner, by simpa [hwait] using hfits.waiting,
      by simpa [hwait] using hfits.once⟩
  | lock lock hfree howner hother hwait =>
    obtain rfl : x = .free := hmay
    refine hfits.acquire (fun _ h => by cases h) howner hother fun u => ?_
    rw [hwait]
    exact hfits.waiting u fun h => by cases h
  | unlock lock hheld howner hother hwait =>
    obtain rfl : x = .holds lock := hmay
    refine ⟨hfits.release (fun _ h => by cases h) howner hother, fun u _ => ?_, ?_⟩
    · rw [hwait]
      exact hfits.waiting u fun h => by cases h
    · simpa [hwait] using hfits.once
  | signal u howner hwait =>
    obtain rfl : x = .holds (.updateStatus u) := hmay
    have htail : ∀ u', t ∉ waiters s' u' := by
      intro u'
      have hnot := hfits.waiting u' fun h => by cases h
      rw [hwait]
      by_cases hu : u' = u
      · subst hu
        simpa using fun h => hnot (List.mem_of_mem_tail h)
      · simpa [hu] using hnot
    exact ⟨by simpa [howner, Hold.after] using hfits.owner, fun u' _ => htail u',
      fun u' => by simp [List.count_eq_zero_of_not_mem (htail u')]⟩
  | wait u hheld howner hother hwait =>
    obtain rfl : x = .holds (.updateStatus u) := hmay
    have hnot : ∀ u', t ∉ waiters s u' := fun u' => hfits.waiting u' fun h => by cases h
    refine ⟨hfits.release (fun _ h => by cases h) howner hother, fun u' hne => ?_, fun u' => ?_⟩
    · have hu : u' ≠ u := by
        rintro rfl
        exact hne rfl
      simpa [hwait, hu] using hnot u'
    · by_cases hu : u' = u
      · subst hu
        simp [hwait, List.count_append, List.count_eq_zero_of_not_mem (hnot u')]
      · simpa [hwait, hu] using hfits.once u'
  | wakeup u hfree howner hother hwait =>
    obtain rfl : x = .waits u := hmay
    refine hfits.acquire (fun _ h => by cases h) howner hother fun u' => ?_
    by_cases hu : u' = u
    · subst hu
      have honce := hfits.once u'
      rw [hwait, Function.update_self, ← List.count_eq_zero, List.count_erase_self]
      omega
    · have hnot := hfits.waiting u' fun h => hu (Hold.waits.inj h).symm
      simpa [hwait, hu] using hnot

/-- The owner of a mutex that somebody else gets or gives back is somebody else. -/
theorem owner_of_other {lock : Mutex} {owner owner' : Option Tid} {t₂ : Tid}
    (h : Shared.owner s lock = owner) (h' : Shared.owner s' lock = owner')
    (hne : owner ≠ some t₂) (hne' : owner' ≠ some t₂)
    (hother : ∀ lock', lock' ≠ lock → Shared.owner s' lock' = Shared.owner s lock')
    (lock' : Mutex) : Shared.owner s' lock' = some t₂ ↔ Shared.owner s lock' = some t₂ := by
  by_cases hlock : lock' = lock
  · subst hlock
    simp [h, h', hne, hne']
  · rw [hother lock' hlock]

/-- An operation of one thread does not change what the phases of the others say. -/
theorem fits_other {x : Hold} {t₂ : Tid} (hfits : Fits t₂ x s) (hne : t₂ ≠ t)
    (hchange : LockChange t s s' o) : Fits t₂ x s' := by
  have hsome : some t ≠ some t₂ := fun h => hne (Option.some.inj h).symm
  have hnone : (none : Option Tid) ≠ some t₂ := fun h => by cases h
  have howners : ∀ lock, Shared.owner s' lock = some t₂ ↔ Shared.owner s lock = some t₂ := by
    cases hchange with
    | plain _ _ howner _ | signal _ howner _ => simp [howner]
    | lock lock hfree howner hother _ => exact owner_of_other hfree howner hnone hsome hother
    | unlock lock hheld howner hother _ => exact owner_of_other hheld howner hsome hnone hother
    | wait u hheld howner hother _ => exact owner_of_other hheld howner hsome hnone hother
    | wakeup u hfree howner hother _ => exact owner_of_other hfree howner hnone hsome hother
  have hcount : ∀ u, (waiters s' u).count t₂ ≤ (waiters s u).count t₂ := by
    intro u'
    cases hchange with
    | plain _ _ _ hwait | lock _ _ _ _ hwait | unlock _ _ _ _ hwait => rw [hwait]
    | signal u _ hwait =>
      by_cases hu : u' = u
      · subst hu
        simpa [hwait] using (List.tail_sublist _).count_le t₂
      · simp [hwait, hu]
    | wait u _ _ _ hwait =>
      by_cases hu : u' = u
      · subst hu
        simp [hwait, List.count_append, hne.symm]
      · simp [hwait, hu]
    | wakeup u _ _ _ hwait =>
      by_cases hu : u' = u
      · subst hu
        simp [hwait, List.count_erase_of_ne hne]
      · simp [hwait, hu]
  refine ⟨fun lock => (howners lock).trans (hfits.owner lock), fun u hx => ?_,
    fun u => Nat.le_trans (hcount u) (hfits.once u)⟩
  have hzero := List.count_eq_zero_of_not_mem (hfits.waiting u hx)
  exact List.count_eq_zero.mp (Nat.le_zero.mp (hzero ▸ hcount u))

/-- Nobody has a mutex when the agent starts. -/
theorem fits_started (ctrl : Table CompCtrl) (records : Table RecordContent) :
    Fits t .free (cfg.started ctrl records) where
  owner := by
    intro lock
    have hnone : Shared.owner (cfg.started ctrl records) lock = none := by cases lock <;> rfl
    simp [hnone]
  waiting := fun _ _ h => by cases h
  once := fun _ => Nat.zero_le 1

theorem sound : locking.Sound .free (fun t x w => Fits t x w.shared) (agent cfg) where
  init := by
    rintro w ⟨-, ctrl, hw⟩ t
    rw [hw]
    exact fits_started ctrl _
  restart := by
    rintro w w' ⟨-, ctrl, hw⟩ t
    rw [hw]
    exact fits_started ctrl _
  sees := by
    rintro t w phase x' hfits rfl
    exact hfits t
  act := by
    rintro t o b w w' phase x' hfits ⟨heffect, -⟩ ⟨hmay, rfl⟩
    have hchange := effect_locks heffect
    have hothers : ∀ t₂, t₂ ≠ t → Fits t₂ (phase t₂) w'.shared := fun t₂ hne =>
      fits_other (hfits t₂) hne hchange
    refine ⟨fits_after (hfits t) hchange hmay, fun t₂ hne _ => hothers t₂ hne, ?_⟩
    intro t₂ p hne hfork hrest
    have hforked : fork t o b = some (t₂, p) := hfork
    refine ⟨.free, ?_, balanced_of_fork hforked⟩
    rw [← hrest]
    exact hothers t₂ hne
  arrive := by
    rintro t p w w' phase hfits hrest ⟨e, harrive, rfl⟩
    refine ⟨⟨.free, ?_, ?_⟩, fun t₂ _ => hfits t₂⟩
    · rw [← hrest]
      exact hfits t
    · cases harrive with
      | message u msg _ => exact balanced_runnerPass u msg
      | presence connected => exact balanced_handlePresence cfg.nUah connected

/-! Threads that are blocked. -/

variable {c : AgentConfiguration}

/-- The agent has crashed in thread `t`, which makes a call that has no answer. -/
def Crashed (t : Tid) (c : AgentConfiguration) : Prop :=
  ∃ o k, c.pool t = .call (.ext o) k ∧ ∀ b, ExtOp.possible c.st.shared o b = false

/-- Thread `t` wants to lock the mutex, or to lock it again at the end of a wait. -/
def Wants (t : Tid) (lock : Mutex) (c : AgentConfiguration) : Prop :=
  ∃ o k, c.pool t = .call o k ∧
    (o = .mutexLock lock ∨ ∃ u, lock = .updateStatus u ∧ o = .condWakeup u)

theorem phase_of_reachable (hc : (agent cfg).Reachable c) (t : Tid) :
    ∃ x, Fits t x c.st.shared ∧ locking.Follows t (c.pool t) x fun _ y => y = .free := by
  obtain ⟨phase, hphase⟩ := sound.phases hc
  exact ⟨phase t, hphase t⟩

/-- An operation that is not possible now is a crash, or it waits for a mutex. -/
theorem effect_cases (cfg : AgentConfig) (t : Tid) (s : Shared) {x : Hold} (hfits : Fits t x s)
    {o : Op} (hmay : x.May o) :
    (∃ b s', effect cfg t s o b = some s' ∧ fork t o b = none) ∨
    (∃ e, o = .ext e ∧ ∀ b, ExtOp.possible s e b = false) ∨
    ∃ lock owner, (o = .mutexLock lock ∨ ∃ u, lock = .updateStatus u ∧ o = .condWakeup u) ∧
      Shared.owner s lock = some owner := by
  cases o with
  | ext e =>
    by_cases hpossible : ∃ b, ExtOp.possible s e b = true
    · obtain ⟨b, hb⟩ := hpossible
      exact .inl ⟨b, s, if_pos hb, rfl⟩
    · refine .inr (.inl ⟨e, rfl, fun b => ?_⟩)
      exact Bool.eq_false_iff.mpr fun hb => hpossible ⟨b, hb⟩
  | mutexLock lock =>
    cases howner : Shared.owner s lock with
    | none => exact .inl ⟨(), _, if_pos howner, rfl⟩
    | some owner => exact .inr (.inr ⟨lock, owner, .inl rfl, howner⟩)
  | condWakeup u =>
    cases howner : Shared.owner s (.updateStatus u) with
    | none =>
      have hwake : ∀ b, (b = .signalled ↔ t ∉ (s.comp u).updateStatusInfo.cond) →
          ∃ s', effect cfg t s (.condWakeup u) b = some s' := by
        intro b hb
        have hlock : (s.comp u).updateStatusInfo.lock = none := howner
        simp only [effect, wakeup, if_pos (And.intro hlock hb)]
        exact ⟨_, rfl⟩
      by_cases hmem : t ∈ (s.comp u).updateStatusInfo.cond
      · obtain ⟨s', heffect⟩ := hwake .timedOut (by simpa using hmem)
        exact .inl ⟨.timedOut, s', heffect, rfl⟩
      · obtain ⟨s', heffect⟩ := hwake .signalled (by simpa using hmem)
        exact .inl ⟨.signalled, s', heffect, rfl⟩
    | some owner => exact .inr (.inr ⟨_, owner, .inr ⟨u, rfl, rfl⟩, howner⟩)
  | mutexUnlock lock =>
    have howner : Shared.owner s lock = some t := (hfits.owner lock).mpr hmay
    exact .inl ⟨(), _, if_pos howner, rfl⟩
  | condTimedwait u =>
    have howner : Shared.owner s (.updateStatus u) = some t := (hfits.owner _).mpr hmay
    exact .inl ⟨(), _, if_pos howner, rfl⟩
  | testCleanupOk | matchReplyId | chkIncomingSeq | updateOutgoingSeq | setCompContext
  | queryHashTree => exact .inl ⟨_, _, if_pos rfl, rfl⟩
  | recordLoad path => exact .inl ⟨none, s, by simp [effect], rfl⟩
  | createWorker | createPresence | createSequence => exact .inl ⟨none, s, rfl, rfl⟩
  | createResume => exact .inl ⟨false, s, rfl, rfl⟩
  | recordOpen | recordWrite => exact .inl ⟨false, _, rfl, rfl⟩
  | assign | assignIntl | mark | condSignal | remove => exact .inl ⟨(), _, rfl, rfl⟩

/-- A thread that is not idle can take a step, has crashed or waits for the owner of a mutex. -/
theorem runs_or_waits (hc : (agent cfg).Reachable c) (hidle : ¬c.Idle t) :
    CanStep (agent cfg) t c ∨ Crashed t c ∨
    ∃ lock owner, Wants t lock c ∧ Shared.owner c.st.shared lock = some owner := by
  obtain ⟨x, hfits, hfollows⟩ := phase_of_reachable hc t
  cases hpool : c.pool t with
  | pure a => exact absurd hpool hidle
  | get k => exact .inl ⟨_, .get k hpool⟩
  | call o k =>
    rw [hpool] at hfollows
    obtain ⟨b, s', heffect, hfork⟩ | ⟨e, rfl, hcrash⟩ | ⟨lock, owner, hwants, howner⟩ :=
      effect_cases cfg t c.st.shared hfits hfollows.1
    · exact .inl ⟨_, .call o k b ⟨s', .did t o b :: c.st.trace⟩ hpool ⟨heffect, rfl⟩ hfork⟩
    · exact .inr (.inl ⟨e, k, hpool, hcrash⟩)
    · exact .inr (.inr ⟨lock, owner, ⟨o, k, hpool, hwants⟩, howner⟩)

/-- A thread that wants a mutex has none. -/
theorem owner_ne_of_wants (hc : (agent cfg).Reachable c) {lock lock' : Mutex}
    (hwants : Wants t lock c) : Shared.owner c.st.shared lock' ≠ some t := by
  intro howner
  obtain ⟨x, hfits, hfollows⟩ := phase_of_reachable hc t
  obtain ⟨o, k, hpool, ho⟩ := hwants
  rw [hpool] at hfollows
  have hmay : x.May o := hfollows.1
  rw [(hfits.owner lock').mp howner] at hmay
  obtain rfl | ⟨u, -, rfl⟩ := ho <;> cases hmay

/-- The owner of a mutex does not wait for one. -/
theorem owner_runs (hc : (agent cfg).Reachable c) {lock : Mutex}
    (howner : Shared.owner c.st.shared lock = some t) : CanStep (agent cfg) t c ∨ Crashed t c := by
  obtain ⟨x, hfits, hfollows⟩ := phase_of_reachable hc t
  have hidle : ¬c.Idle t := by
    intro hidle
    rw [hidle, (hfits.owner lock).mp howner] at hfollows
    cases hfollows
  obtain hcan | hcrash | ⟨lock', owner, hwants, -⟩ := runs_or_waits hc hidle
  · exact .inl hcan
  · exact .inr hcrash
  · exact absurd howner (owner_ne_of_wants hc hwants)

/-- A thread has at most one mutex, and none when its program has ended. It unlocks what it has
locked, signals and waits only with the mutex of the condition, and is among the waiting threads
only while it is blocked in that wait, and only once. -/
theorem mutexes_kept (cfg : AgentConfig) (c : AgentConfiguration) (hc : (agent cfg).Reachable c)
    (t : Tid) :
    (∀ lock lock', Shared.owner c.st.shared lock = some t →
      Shared.owner c.st.shared lock' = some t → lock = lock') ∧
    (c.Idle t → ∀ lock, Shared.owner c.st.shared lock ≠ some t) ∧
    (∀ lock k, c.pool t = .call (.mutexUnlock lock) k →
      Shared.owner c.st.shared lock = some t) ∧
    (∀ u k, c.pool t = .call (.condSignal u) k →
      Shared.owner c.st.shared (.updateStatus u) = some t) ∧
    (∀ u k, c.pool t = .call (.condTimedwait u) k →
      Shared.owner c.st.shared (.updateStatus u) = some t) ∧
    ∀ u, t ∈ waiters c.st.shared u →
      (∃ k, c.pool t = .call (.condWakeup u) k) ∧ (waiters c.st.shared u).count t = 1 := by
  obtain ⟨x, hfits, hfollows⟩ := phase_of_reachable hc t
  refine ⟨?_, ?_, ?_, ?_, ?_, ?_⟩
  · intro lock lock' howner howner'
    have hx := (hfits.owner lock).mp howner
    rw [(hfits.owner lock').mp howner'] at hx
    exact (Hold.holds.inj hx).symm
  · intro hidle lock howner
    rw [hidle, (hfits.owner lock).mp howner] at hfollows
    cases hfollows
  · intro lock k hpool
    rw [hpool] at hfollows
    exact (hfits.owner lock).mpr hfollows.1
  · intro u k hpool
    rw [hpool] at hfollows
    exact (hfits.owner _).mpr hfollows.1
  · intro u k hpool
    rw [hpool] at hfollows
    exact (hfits.owner _).mpr hfollows.1
  · intro u hmem
    have hx : x = .waits u := by
      by_contra hx
      exact hfits.waiting u hx hmem
    subst hx
    have hpos := List.count_pos_iff.mpr hmem
    have honce := hfits.once u
    refine ⟨?_, by omega⟩
    -- A waiting thread neither reads nor does anything but wake up.
    cases hpool : c.pool t with
    | pure a =>
      rw [hpool] at hfollows
      cases hfollows
    | get k =>
      rw [hpool] at hfollows
      exact absurd rfl (hfollows.1 u)
    | call o k =>
      rw [hpool] at hfollows
      have hmay : Hold.May (.waits u) o := hfollows.1
      cases o with
      | condWakeup u' =>
        obtain rfl := Hold.waits.inj hmay
        exact ⟨k, rfl⟩
      | mutexLock | mutexUnlock | condSignal | condTimedwait => cases hmay
      | _ => exact absurd rfl (hmay u)

/-- A worker that has made `n` steps for a ready-update when the reply to its request comes. -/
def replied (n : ℕ) : AgentConfiguration :=
  rehearse (sampleConfig false 1) Anything (usualOracle "1")
    [connected _ _, .steps .bus 60, .steps (.presence 0) 10,
      message _ _ 0 Nat.one_pos (packageMessage bmtReadyUpdate [] "pkg" "2" (downloadedFile "2")),
      .steps (.runner 0) 60, .steps (.worker 0 0) n, message _ _ 0 Nat.one_pos grantingReply,
      .steps (.runner 0) 4]

/-- The worker waits for the reply. -/
theorem mutexes_kept_waiting :
    (∃ k, (replied 67).pool (.worker 0 0) = .call (.condWakeup 0) k) ∧
      (waiters (replied 67).st.shared 0).count (.worker 0 0) = 1 := by
  obtain ⟨-, -, -, -, -, hwaiting⟩ :=
    mutexes_kept (sampleConfig false 1) (replied 67) (agent_reachable _ _ _) (.worker 0 0)
  exact hwaiting 0 (by decide +kernel)

/-- No threads wait for one another: one that cannot take a step waits for a mutex whose owner
can, or the agent has crashed in one of the two. -/
theorem blocked_by_running (cfg : AgentConfig) (c : AgentConfiguration)
    (hc : (agent cfg).Reachable c) (t : Tid) (hidle : ¬c.Idle t) :
    CanStep (agent cfg) t c ∨ Crashed t c ∨
    ∃ lock owner, Wants t lock c ∧ Shared.owner c.st.shared lock = some owner ∧ owner ≠ t ∧
      (CanStep (agent cfg) owner c ∨ Crashed owner c) := by
  obtain hcan | hcrash | ⟨lock, owner, hwants, howner⟩ := runs_or_waits hc hidle
  · exact .inl hcan
  · exact .inr (.inl hcrash)
  · refine .inr (.inr ⟨lock, owner, hwants, howner, ?_, owner_runs hc howner⟩)
    rintro rfl
    exact owner_ne_of_wants hc hwants howner

/-- The worker has locked the mutex, and is going to wait, when the reply is processed. -/
theorem blocked_by_running_example :
    ¬(replied 66).Idle (.runner 0) ∧
    (CanStep (agent (sampleConfig false 1)) (.runner 0) (replied 66) ∨
      Crashed (.runner 0) (replied 66) ∨
      ∃ lock owner, Wants (.runner 0) lock (replied 66) ∧
        Shared.owner (replied 66).st.shared lock = some owner ∧ owner ≠ .runner 0 ∧
        (CanStep (agent (sampleConfig false 1)) owner (replied 66) ∨
          Crashed owner (replied 66))) := by
  have hbusy : ¬(replied 66).Idle (.runner 0) := by
    intro hidle
    have hrunning : isIdle ((replied 66).pool (.runner 0)) = false := by decide +kernel
    rw [hidle] at hrunning
    cases hrunning
  exact ⟨hbusy, blocked_by_running _ _ (agent_reachable _ _ _) _ hbusy⟩

/-! Fair runs. -/

/-- In one step a mutex is not handed over from one thread to another one. -/
theorem owner_of_step {c' : AgentConfiguration} (h : (agent cfg).Step c c') {lock : Mutex}
    (howner : Shared.owner c.st.shared lock = some t) :
    Shared.owner c'.st.shared lock = some t ∨ Shared.owner c'.st.shared lock = none := by
  have hact : ∀ {t₁ : Tid} {o : Op} {b : o.Ans} {w : World},
      (agent cfg).act t₁ o b c.st w →
      Shared.owner w.shared lock = some t ∨ Shared.owner w.shared lock = none := by
    intro t₁ o b w hact
    have hchange := effect_locks hact.1
    -- Whoever gets the mutex finds it free, and whoever gives it back leaves it free.
    cases hchange with
    | plain _ _ hsame _ | signal _ hsame _ => exact .inl (hsame ▸ howner)
    | lock lock₁ hfree _ hother _ =>
      have hne : lock ≠ lock₁ := by
        rintro rfl
        rw [howner] at hfree
        cases hfree
      exact .inl ((hother lock hne).trans howner)
    | wakeup u hfree _ hother _ =>
      have hne : lock ≠ .updateStatus u := by
        rintro rfl
        rw [howner] at hfree
        cases hfree
      exact .inl ((hother lock hne).trans howner)
    | unlock lock₁ _ hnone hother _ =>
      by_cases hne : lock = lock₁
      · exact .inr (hne ▸ hnone)
      · exact .inl ((hother lock hne).trans howner)
    | wait u _ hnone hother _ =>
      by_cases hne : lock = .updateStatus u
      · exact .inr (hne ▸ hnone)
      · exact .inl ((hother lock hne).trans howner)
  cases h with
  | get t₁ k hpool => exact .inl howner
  | call t₁ o k b w hpool hact₁ hfork => exact hact hact₁
  | fork t₁ o k b w t' p hpool hact₁ hfork hne hidle => exact hact hact₁
  | arrive t₁ p w hidle harrive =>
    obtain ⟨e, -, rfl⟩ := harrive
    exact .inl howner
  | restart w hrestart =>
    obtain ⟨-, ctrl, hw⟩ := hrestart
    refine .inr ?_
    rw [hw]
    cases lock <;> rfl

variable {r : Run (agent cfg)}

/-- In a fair run without a crash every mutex gets free again. -/
theorem mutex_freed (hfair : ∀ t, r.StrongFair t) {n : ℕ}
    (hcrash : ∀ m, n ≤ m → ∀ t, ¬Crashed t (r.config m)) (lock : Mutex) :
    ∃ m, n ≤ m ∧ Shared.owner (r.config m).st.shared lock = none := by
  by_contra hnot
  have howned : ∀ m, n ≤ m → ∃ t, Shared.owner (r.config m).st.shared lock = some t := by
    intro m hm
    refine Option.ne_none_iff_exists'.mp fun hnone => hnot ⟨m, hm, hnone⟩
  obtain ⟨t, ht⟩ := howned n le_rfl
  have hsame : ∀ d, Shared.owner (r.config (n + d)).st.shared lock = some t := by
    intro d
    induction d with
    | zero => exact ht
    | succ d ih =>
      obtain hsame | hnone := owner_of_step (r.step (n + d)) ih
      · exact hsame
      · exact absurd ⟨n + d + 1, by omega, hnone⟩ hnot
  have hcan : ∀ m, n ≤ m → CanStep (agent cfg) t (r.config m) := by
    intro m hm
    have howner := hsame (m - n)
    rw [Nat.add_sub_cancel' hm] at howner
    exact (owner_runs (r.reachable m) howner).resolve_right (hcrash m hm t)
  obtain ⟨m, hm, hidle⟩ := (hfair t).ends fun m hm => ⟨m, le_rfl, hcan m hm⟩
  exact (hcan m hm).not_idle hidle

theorem wants_unique {c' : AgentConfiguration} {lock lock' : Mutex} (h : Wants t lock c)
    (h' : Wants t lock' c') (hpool : c'.pool t = c.pool t) : lock' = lock := by
  obtain ⟨o, k, hk, ho⟩ := h
  obtain ⟨o', k', hk', ho'⟩ := h'
  obtain ⟨rfl, -⟩ := Prog.call.inj (hk'.symm.trans (hpool.trans hk))
  obtain rfl | ⟨u, rfl, rfl⟩ := ho
  · obtain heq | ⟨u, -, heq⟩ := ho'
    · exact (Op.mutexLock.inj heq).symm
    · cases heq
  · obtain heq | ⟨u', rfl, heq⟩ := ho'
    · cases heq
    · rw [Op.condWakeup.inj heq]

/-- In a fair run every program that a thread is given comes to its end, unless the agent
crashes. -/
theorem programs_end (cfg : AgentConfig) (r : Run (agent cfg)) (hfair : ∀ t, r.StrongFair t)
    (t : Tid) (n : ℕ) :
    ∃ m, n ≤ m ∧ ((r.config m).Idle t ∨ ∃ t', Crashed t' (r.config m)) := by
  by_contra hnot
  have hidle : ∀ m, n ≤ m → ¬(r.config m).Idle t := fun m hm h => hnot ⟨m, hm, .inl h⟩
  have hcrash : ∀ m, n ≤ m → ∀ t', ¬Crashed t' (r.config m) :=
    fun m hm t' h => hnot ⟨m, hm, .inr ⟨t', h⟩⟩
  have hcan : ∀ m, n ≤ m → ∃ j, m ≤ j ∧ CanStep (agent cfg) t (r.config j) := by
    intro m hm
    by_contra hnone
    have hblocked : ∀ j, m ≤ j → ∃ lock owner, Wants t lock (r.config j) ∧
        Shared.owner (r.config j).st.shared lock = some owner := by
      intro j hj
      obtain hcan | hcrashed | hwaits := runs_or_waits (r.reachable j) (hidle j (by omega))
      · exact absurd ⟨j, hj, hcan⟩ hnone
      · exact absurd hcrashed (hcrash j (by omega) t)
      · exact hwaits
    have hpool : ∀ d, (r.config (m + d)).pool t = (r.config m).pool t := by
      intro d
      induction d with
      | zero => rfl
      | succ d ih =>
        obtain hstep | hsame | hstopped := step_cases (r.step (m + d)) (hidle (m + d) (by omega))
        · exact absurd ⟨m + d, by omega, _, hstep⟩ hnone
        · exact hsame.trans ih
        · exact absurd hstopped (hidle (m + d + 1) (by omega))
    -- The mutex that the thread wants gets free, and the thread still wants it then.
    obtain ⟨lock, -, hwants, -⟩ := hblocked m le_rfl
    have hafter : ∀ i, m ≤ i → ∀ t', ¬Crashed t' (r.config i) := fun i hi => hcrash i (by omega)
    obtain ⟨j, hj, hfree⟩ := mutex_freed hfair hafter lock
    obtain ⟨lock', owner, hwants', howner⟩ := hblocked j hj
    have hsame := hpool (j - m)
    rw [Nat.add_sub_cancel' hj] at hsame
    rw [wants_unique hwants hwants' hsame, hfree] at howner
    cases howner
  obtain ⟨m, hm, hend⟩ := (hfair t).ends hcan
  exact hidle m hm hend

/-! A query thread that locks, and then comes to its end. -/

def querying (steps : ℕ) : AgentConfiguration :=
  rehearse (sampleConfig false 1) Anything (usualOracle "1")
    [connected _ _, .steps .bus 10, .steps (.sequence 0) steps]

/-- The query thread runs as long as it can, and then the agent restarts for ever. -/
def restarting : ℕ → AgentConfiguration
  | 0 => querying 4
  | n + 1 =>
    ((player (sampleConfig false 1) Anything (usualOracle "1")).next (.sequence 0)
      (restarting n)).getD
      ⟨⟨(sampleConfig false 1).started .empty (restarting n).st.shared.records,
        .rebooted :: (restarting n).st.trace⟩, idlePool⟩

theorem restarting_step (n : ℕ) :
    (agent (sampleConfig false 1)).Step (restarting n) (restarting (n + 1)) := by
  rw [restarting]
  cases hnext : (player (sampleConfig false 1) Anything (usualOracle "1")).next (.sequence 0)
    (restarting n) with
  | none => exact .restart _ _ ⟨rfl, .empty, rfl⟩
  | some c' => exact (Player.next_step _ hnext).of_restrict

theorem restarting_idle (n : ℕ) : (restarting (n + 10)).pool = idlePool := by
  induction n with
  | zero => rfl
  | succ n ih =>
    have hnone : (player (sampleConfig false 1) Anything (usualOracle "1")).next (.sequence 0)
        (restarting (n + 10)) = none := by
      rw [Player.next, ih]
      rfl
    rw [Nat.add_right_comm, restarting, hnone]
    rfl

def restartingRun : Run (agent (sampleConfig false 1)) where
  config := restarting
  start := agent_reachable _ _ _
  step := restarting_step

theorem programs_end_example :
    ∃ m, 0 ≤ m ∧ ((restarting m).Idle (.sequence 0) ∨ ∃ t', Crashed t' (restarting m)) := by
  refine programs_end (sampleConfig false 1) restartingRun (fun t hcan => ?_) (.sequence 0) 0
  obtain ⟨m, hm, hstep⟩ := hcan 10
  obtain ⟨n, rfl⟩ := Nat.exists_eq_add_of_le' hm
  exact absurd (congrFun (restarting_idle n) t) hstep.not_idle

end EsyncUa.Deadlocks
