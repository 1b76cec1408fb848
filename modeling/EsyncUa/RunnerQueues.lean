import EsyncUa.LabelledSystems
import Mathlib.Logic.Function.Basic

/-!
The queues of the message runners: `handle_message`, `runner_loop` and the end of a runner in
`ua_unregister`. Any number of bus threads queue messages, each runner takes them from the front,
and the lock and the condition of the runner stand between them. ua_unregister clears the flag of
the loop without the lock and unlocks what it has not locked.
-/
namespace EsyncUa.RunnerQueues

open EsyncUa.LabelledSystems

/-- incoming_msg_t with the thread that has queued it. -/
structure IncomingMsg (δ μ : Type) where
  msg : μ
  msgTs : UInt64
  sender : δ

def msgTimeout : UInt64 := 10

/-- Where a thread stands in runner_loop. -/
inductive RunnerPc (α : Type)
  | loop
  | lock
  | testRun
  | testQueue
  | wait
  | waiting
  | woken
  | unlock (im : α)
  | handle (im : α)
  | returned

/-- How far ua_unregister is with a runner. -/
inductive StopPc
  | registered | broadcast | unlock | join | joined
  deriving DecidableEq

/-- Who holds the lock of a runner. -/
inductive Holder (δ : Type)
  | runner
  | sender (d : δ)
  deriving DecidableEq

/-- runner_info_t with its thread. The messages that were ever queued are kept in `appended`, and
those that process_message was called for, or not because they had timed out, in `handled`. -/
structure Runner (δ μ : Type) where
  run : Bool
  queue : List (IncomingMsg δ μ)
  owner : Option (Holder δ)
  pc : RunnerPc (IncomingMsg δ μ)
  stop : StopPc
  appended : List (IncomingMsg δ μ)
  handled : List (IncomingMsg δ μ × Bool)

/-- A call of handle_message: the runners it has queued its message to so far, and whether a lock
that failed has ended it. -/
structure Call (ρ μ : Type) where
  type : List Char
  msg : μ
  served : List ρ
  cut : Bool

/-- Where a thread stands in the loop of handle_message over the gathered runners. -/
inductive SenderPc (ρ μ : Type)
  | idle
  | lock (c : Call ρ μ) (ri : ρ) (rest : List ρ)
  | append (c : Call ρ μ) (ri : ρ) (rest : List ρ)
  | signal (c : Call ρ μ) (ri : ρ) (rest : List ρ)
  | unlock (c : Call ρ μ) (ri : ρ) (rest : List ρ)

/-- A bus thread and the calls that it has finished. -/
structure Sender (ρ μ : Type) where
  pc : SenderPc ρ μ
  calls : List (Call ρ μ)

structure State (ρ δ μ : Type) where
  runners : ρ → Runner δ μ
  senders : δ → Sender ρ μ

/-- Who takes the next step. The clock and the outcome of pthread_mutex_lock are given. -/
inductive Label (ρ δ μ : Type)
  | pass (ri : ρ) (lockWorks : Bool) (tnow : UInt64)
  | wakeup (ri : ρ)
  | call (d : δ) (type : List Char) (msg : μ)
  | deliver (d : δ) (lockWorks : Bool) (now : UInt64)
  | unregister (ri : ρ)

variable {ρ δ μ : Type}

namespace Runner

/-- The runner that ua_register has started. -/
def started : Runner δ μ := ⟨true, [], none, .loop, .registered, [], []⟩

/-- pthread_cond_signal and pthread_cond_broadcast; only the runner ever waits. -/
def wake (r : Runner δ μ) : Runner δ μ :=
  match r.pc with
  | .waiting => { r with pc := .woken }
  | _ => r

/-- pthread_mutex_lock by the runner, also as the last part of pthread_cond_wait. -/
def acquire (r : Runner δ μ) : Option (Runner δ μ) :=
  match r.owner with
  | none => some { r with owner := some .runner, pc := .testRun }
  | some _ => none

/-- One step of runner_loop. -/
def pass (r : Runner δ μ) (lockWorks : Bool) (tnow : UInt64) : Option (Runner δ μ) :=
  match r.pc with
  | .loop => some { r with pc := if r.run then .lock else .returned }
  | .lock => if lockWorks then r.acquire else some { r with pc := .loop }
  -- the loop is left with the lock held when the flag was cleared meanwhile
  | .testRun => some { r with pc := if r.run then .testQueue else .loop }
  | .testQueue =>
      match r.queue with
      | [] => some { r with pc := .wait }
      | im :: queue => some { r with queue := queue, pc := .unlock im }
  | .wait => some { r with owner := none, pc := .waiting }
  | .waiting => none
  | .woken => r.acquire
  | .unlock im => some { r with owner := none, pc := .handle im }
  | .handle im =>
      let tout := im.msgTs + msgTimeout * 1000
      some { r with handled := r.handled ++ [(im, decide (tnow < tout))], pc := .loop }
  | .returned => none

/-- One step of ua_unregister for a runner that was taken out of the tree. -/
def unregister (r : Runner δ μ) : Option (Runner δ μ) :=
  match r.stop with
  | .registered => some { r with run := false, stop := .broadcast }
  | .broadcast => some { r.wake with stop := .unlock }
  | .unlock => some { r with owner := none, stop := .join }
  | .join =>
      match r.pc with
      | .returned => some { r with stop := .joined }
      | _ => none
  | .joined => none

/-- DL_APPEND. -/
def append (r : Runner δ μ) (im : IncomingMsg δ μ) : Runner δ μ :=
  { r with queue := r.queue ++ [im], appended := r.appended ++ [im] }

end Runner

/-- The head of the loop of handle_message. -/
def Sender.next (x : Sender ρ μ) (c : Call ρ μ) : List ρ → Sender ρ μ
  | [] => ⟨.idle, x.calls ++ [c]⟩
  | ri :: rest => { x with pc := .lock c ri rest }

namespace State

/-- Every runner has just been started and no message has come. -/
def initial : State ρ δ μ := ⟨fun _ => .started, fun _ => ⟨.idle, []⟩⟩

def setRunner [DecidableEq ρ] (s : State ρ δ μ) (ri : ρ) (r : Runner δ μ) : State ρ δ μ :=
  { s with runners := Function.update s.runners ri r }

def setSender [DecidableEq δ] (s : State ρ δ μ) (d : δ) (x : Sender ρ μ) : State ρ δ μ :=
  { s with senders := Function.update s.senders d x }

variable [DecidableEq ρ] [DecidableEq δ]

/-- One step of handle_message. -/
def deliver (s : State ρ δ μ) (d : δ) (lockWorks : Bool) (now : UInt64) :
    Option (State ρ δ μ) :=
  let x := s.senders d
  match x.pc with
  | .idle => none
  | .lock c ri rest =>
      let r := s.runners ri
      if lockWorks then
        match r.owner with
        | none =>
            some ((s.setRunner ri { r with owner := some (.sender d) }).setSender d
              { x with pc := .append c ri rest })
        | some _ => none
      else some (s.setSender d (x.next { c with cut := true } []))
  | .append c ri rest =>
      some ((s.setRunner ri ((s.runners ri).append ⟨c.msg, now, d⟩)).setSender d
        { x with pc := .signal { c with served := c.served ++ [ri] } ri rest })
  | .signal c ri rest =>
      some ((s.setRunner ri (s.runners ri).wake).setSender d { x with pc := .unlock c ri rest })
  | .unlock c ri rest =>
      some ((s.setRunner ri { s.runners ri with owner := none }).setSender d (x.next c rest))

/-- One step of the thread that the label names. -/
def perform (gather : List Char → List ρ) (s : State ρ δ μ) :
    Label ρ δ μ → Option (State ρ δ μ)
  | .pass ri lockWorks tnow => ((s.runners ri).pass lockWorks tnow).map (s.setRunner ri)
  | .wakeup ri => some (s.setRunner ri (s.runners ri).wake)
  | .call d type msg =>
      match (s.senders d).pc with
      | .idle => some (s.setSender d ((s.senders d).next ⟨type, msg, [], false⟩ (gather type)))
      | _ => none
  | .deliver d lockWorks now => s.deliver d lockWorks now
  | .unregister ri => (s.runners ri).unregister.map (s.setRunner ri)

end State

/-- All interleavings of the runners, the bus threads and ua_unregister. -/
def queues [DecidableEq ρ] [DecidableEq δ] (gather : List Char → List ρ) :
    System (State ρ δ μ) (Label ρ δ μ) :=
  .ofOption .initial (State.perform gather)

namespace Runner

/-- What one step of runner_loop can do. -/
inductive PassStep (r : Runner δ μ) : Bool → UInt64 → Runner δ μ → Prop
  | enter {lockWorks tnow} (hpc : r.pc = .loop) (hrun : r.run = true) :
      PassStep r lockWorks tnow { r with pc := .lock }
  | leave {lockWorks tnow} (hpc : r.pc = .loop) (hrun : r.run = false) :
      PassStep r lockWorks tnow { r with pc := .returned }
  | lockFails {tnow} (hpc : r.pc = .lock) : PassStep r false tnow { r with pc := .loop }
  | acquire {lockWorks tnow} (hpc : r.pc = .lock ∨ r.pc = .woken) (howner : r.owner = none) :
      PassStep r lockWorks tnow { r with owner := some .runner, pc := .testRun }
  | proceed {lockWorks tnow} (hpc : r.pc = .testRun) (hrun : r.run = true) :
      PassStep r lockWorks tnow { r with pc := .testQueue }
  | stopped {lockWorks tnow} (hpc : r.pc = .testRun) (hrun : r.run = false) :
      PassStep r lockWorks tnow { r with pc := .loop }
  | empty {lockWorks tnow} (hpc : r.pc = .testQueue) (hqueue : r.queue = []) :
      PassStep r lockWorks tnow { r with pc := .wait }
  | take {lockWorks tnow} (im queue) (hpc : r.pc = .testQueue) (hqueue : r.queue = im :: queue) :
      PassStep r lockWorks tnow { r with queue := queue, pc := .unlock im }
  | wait {lockWorks tnow} (hpc : r.pc = .wait) :
      PassStep r lockWorks tnow { r with owner := none, pc := .waiting }
  | unlock {lockWorks tnow} (im) (hpc : r.pc = .unlock im) :
      PassStep r lockWorks tnow { r with owner := none, pc := .handle im }
  | handle {lockWorks tnow} (im) (hpc : r.pc = .handle im) :
      PassStep r lockWorks tnow { r with
        handled := r.handled ++ [(im, decide (tnow < im.msgTs + msgTimeout * 1000))], pc := .loop }

theorem acquire_eq_some {r r' : Runner δ μ} (h : r.acquire = some r') :
    r.owner = none ∧ r' = { r with owner := some .runner, pc := .testRun } := by
  unfold acquire at h
  split at h
  · next howner => exact ⟨howner, (Option.some.inj h).symm⟩
  · cases h

theorem passStep {r r' : Runner δ μ} {lockWorks : Bool} {tnow : UInt64}
    (h : r.pass lockWorks tnow = some r') : PassStep r lockWorks tnow r' := by
  unfold pass at h
  split at h
  case h_1 hpc =>
    cases h
    split
    · next hrun => exact .enter hpc hrun
    · next hrun => exact .leave hpc (Bool.eq_false_iff.mpr hrun)
  case h_2 hpc =>
    cases lockWorks
    · cases h
      exact .lockFails hpc
    · obtain ⟨howner, rfl⟩ := acquire_eq_some h
      exact .acquire (.inl hpc) howner
  case h_3 hpc =>
    cases h
    split
    · next hrun => exact .proceed hpc hrun
    · next hrun => exact .stopped hpc (Bool.eq_false_iff.mpr hrun)
  case h_4 hpc =>
    split at h
    · next hqueue =>
      cases h
      exact .empty hpc hqueue
    · next im queue hqueue =>
      cases h
      exact .take im queue hpc hqueue
  case h_5 hpc =>
    cases h
    exact .wait hpc
  case h_6 => cases h
  case h_7 hpc =>
    obtain ⟨howner, rfl⟩ := acquire_eq_some h
    exact .acquire (.inr hpc) howner
  case h_8 im hpc =>
    cases h
    exact .unlock im hpc
  case h_9 im hpc =>
    cases h
    exact .handle im hpc
  case h_10 => cases h

theorem wake_cases (r : Runner δ μ) :
    (r.pc = .waiting ∧ r.wake = { r with pc := .woken }) ∨ (r.pc ≠ .waiting ∧ r.wake = r) := by
  unfold wake
  split
  · next hpc => exact .inl ⟨hpc, rfl⟩
  · next hpc => exact .inr ⟨hpc, rfl⟩

@[simp] theorem wake_stop (r : Runner δ μ) : r.wake.stop = r.stop := by
  rcases r.wake_cases with ⟨-, h⟩ | ⟨-, h⟩ <;> rw [h]

/-- What one step of ua_unregister can do. -/
inductive UnregisterStep (r : Runner δ μ) : Runner δ μ → Prop
  | clear (hstop : r.stop = .registered) :
      UnregisterStep r { r with run := false, stop := .broadcast }
  | broadcast (hstop : r.stop = .broadcast) : UnregisterStep r { r.wake with stop := .unlock }
  | unlock (hstop : r.stop = .unlock) : UnregisterStep r { r with owner := none, stop := .join }
  | join (hstop : r.stop = .join) (hpc : r.pc = .returned) :
      UnregisterStep r { r with stop := .joined }

theorem unregisterStep {r r' : Runner δ μ} (h : r.unregister = some r') :
    UnregisterStep r r' := by
  unfold unregister at h
  split at h
  case h_1 hstop =>
    cases h
    exact .clear hstop
  case h_2 hstop =>
    cases h
    exact .broadcast hstop
  case h_3 hstop =>
    cases h
    exact .unlock hstop
  case h_4 hstop =>
    split at h
    · next hpc =>
      cases h
      exact .join hstop hpc
    · cases h
  case h_5 => cases h

end Runner

theorem Runner.PassStep.stop_eq {r r' : Runner δ μ} {lockWorks : Bool} {tnow : UInt64}
    (h : r.PassStep lockWorks tnow r') : r'.stop = r.stop := by
  cases h <;> rfl

section Deliver

variable [DecidableEq ρ] [DecidableEq δ]

/-- What one step of handle_message can do. -/
inductive DeliverStep (s : State ρ δ μ) (d : δ) : Bool → UInt64 → State ρ δ μ → Prop
  | cut {now} (c ri rest) (hpc : (s.senders d).pc = .lock c ri rest) :
      DeliverStep s d false now
        (s.setSender d ((s.senders d).next { c with cut := true } []))
  | lock {now} (c ri rest) (hpc : (s.senders d).pc = .lock c ri rest)
      (howner : (s.runners ri).owner = none) :
      DeliverStep s d true now
        ((s.setRunner ri { s.runners ri with owner := some (.sender d) }).setSender d
          { s.senders d with pc := .append c ri rest })
  | append {lockWorks now} (c ri rest) (hpc : (s.senders d).pc = .append c ri rest) :
      DeliverStep s d lockWorks now
        ((s.setRunner ri ((s.runners ri).append ⟨c.msg, now, d⟩)).setSender d
          { s.senders d with pc := .signal { c with served := c.served ++ [ri] } ri rest })
  | signal {lockWorks now} (c ri rest) (hpc : (s.senders d).pc = .signal c ri rest) :
      DeliverStep s d lockWorks now
        ((s.setRunner ri (s.runners ri).wake).setSender d
          { s.senders d with pc := .unlock c ri rest })
  | unlock {lockWorks now} (c ri rest) (hpc : (s.senders d).pc = .unlock c ri rest) :
      DeliverStep s d lockWorks now
        ((s.setRunner ri { s.runners ri with owner := none }).setSender d
          ((s.senders d).next c rest))

theorem deliverStep {s s' : State ρ δ μ} {d : δ} {lockWorks : Bool} {now : UInt64}
    (h : s.deliver d lockWorks now = some s') : DeliverStep s d lockWorks now s' := by
  simp only [State.deliver] at h
  split at h
  case h_1 => cases h
  case h_2 c ri rest hpc =>
    cases lockWorks
    · cases h
      exact .cut c ri rest hpc
    · rw [if_pos rfl] at h
      split at h
      · next howner =>
        cases h
        exact .lock c ri rest hpc howner
      · cases h
  case h_3 c ri rest hpc =>
    cases h
    exact .append c ri rest hpc
  case h_4 c ri rest hpc =>
    cases h
    exact .signal c ri rest hpc
  case h_5 c ri rest hpc =>
    cases h
    exact .unlock c ri rest hpc

/-- What a step of handle_message can do to one runner. -/
inductive Touched (r : Runner δ μ) : Runner δ μ → Prop
  | same : Touched r r
  | owner (o) : Touched r { r with owner := o }
  | append (im) : Touched r (r.append im)
  | wake : Touched r r.wake

theorem DeliverStep.touched {s s' : State ρ δ μ} {d : δ} {lockWorks : Bool} {now : UInt64}
    (h : DeliverStep s d lockWorks now s') (ri : ρ) :
    Touched (s.runners ri) (s'.runners ri) := by
  have hupdate : ∀ ri' r' x, Touched (s.runners ri') r' →
      Touched (s.runners ri) (((s.setRunner ri' r').setSender d x).runners ri) := by
    intro ri' r' x hr'
    by_cases heq : ri = ri'
    · subst heq
      simpa [State.setRunner, State.setSender] using hr'
    · simpa [State.setRunner, State.setSender, Function.update_of_ne heq] using Touched.same
  cases h with
  | cut c ri' rest hpc => exact .same
  | lock c ri' rest hpc howner => exact hupdate ri' _ _ (.owner _)
  | append c ri' rest hpc => exact hupdate ri' _ _ (.append _)
  | signal c ri' rest hpc => exact hupdate ri' _ _ .wake
  | unlock c ri' rest hpc => exact hupdate ri' _ _ (.owner _)

omit [DecidableEq ρ] [DecidableEq δ] in
theorem Touched.stop_eq {r r' : Runner δ μ} (h : Touched r r') : r'.stop = r.stop := by
  cases h with
  | wake => exact r.wake_stop
  | _ => rfl

/-- The steps of the machine. -/
inductive Step (gather : List Char → List ρ) (s : State ρ δ μ) :
    Label ρ δ μ → State ρ δ μ → Prop
  | pass {ri lockWorks tnow r'} (h : (s.runners ri).PassStep lockWorks tnow r') :
      Step gather s (.pass ri lockWorks tnow) (s.setRunner ri r')
  | wakeup (ri) : Step gather s (.wakeup ri) (s.setRunner ri (s.runners ri).wake)
  | call {d type msg} (hpc : (s.senders d).pc = .idle) :
      Step gather s (.call d type msg)
        (s.setSender d ((s.senders d).next ⟨type, msg, [], false⟩ (gather type)))
  | deliver {d lockWorks now s'} (h : DeliverStep s d lockWorks now s') :
      Step gather s (.deliver d lockWorks now) s'
  | unregister {ri r'} (h : (s.runners ri).UnregisterStep r') :
      Step gather s (.unregister ri) (s.setRunner ri r')

theorem step_of_perform {gather : List Char → List ρ} {l : Label ρ δ μ} {s s' : State ρ δ μ}
    (h : (queues gather).step l s s') : Step gather s l s' := by
  cases l with
  | pass ri lockWorks tnow =>
    obtain ⟨r', hr', rfl⟩ := Option.map_eq_some_iff.mp h
    exact .pass (Runner.passStep hr')
  | wakeup ri =>
    obtain rfl := Option.some.inj h
    exact .wakeup ri
  | call d type msg =>
    simp only [queues, System.ofOption, State.perform] at h
    split at h
    · next hpc =>
      cases h
      exact .call hpc
    · cases h
  | deliver d lockWorks now => exact .deliver (deliverStep h)
  | unregister ri =>
    obtain ⟨r', hr', rfl⟩ := Option.map_eq_some_iff.mp h
    exact .unregister (Runner.unregisterStep hr')

/-- What a step does to one runner: a step of its own loop, a step of its ua_unregister, or what
other threads do to it. -/
inductive RunnerStep (ri : ρ) (r : Runner δ μ) : Label ρ δ μ → Runner δ μ → Prop
  | own {lockWorks tnow r'} (h : r.PassStep lockWorks tnow r') :
      RunnerStep ri r (.pass ri lockWorks tnow) r'
  | stop {r'} (h : r.UnregisterStep r') : RunnerStep ri r (.unregister ri) r'
  | other {l r'} (hpass : ∀ lockWorks tnow, l ≠ .pass ri lockWorks tnow)
      (hstop : l ≠ .unregister ri) (h : Touched r r') : RunnerStep ri r l r'

theorem Step.runner {gather : List Char → List ρ} {l : Label ρ δ μ} {s s' : State ρ δ μ}
    (h : Step gather s l s') (ri : ρ) : RunnerStep ri (s.runners ri) l (s'.runners ri) := by
  have hsame : ∀ ri' r', ri' ≠ ri → Touched (s.runners ri) ((s.setRunner ri' r').runners ri) := by
    intro ri' r' hne
    simpa [State.setRunner, Function.update_of_ne (Ne.symm hne)] using Touched.same
  have hself : ∀ r', (s.setRunner ri r').runners ri = r' := fun r' => Function.update_self ..
  cases h with
  | @pass ri' lockWorks tnow r' hpass =>
    by_cases heq : ri' = ri
    · subst heq
      rw [hself]
      exact .own hpass
    · exact .other (fun _ _ h => heq (Label.pass.inj h).1) nofun (hsame _ _ heq)
  | wakeup ri' =>
    refine .other nofun nofun ?_
    by_cases heq : ri' = ri
    · subst heq
      rw [hself]
      exact .wake
    · exact hsame _ _ heq
  | call hpc => exact .other nofun nofun .same
  | deliver hd => exact .other nofun nofun (hd.touched ri)
  | @unregister ri' r' hun =>
    by_cases heq : ri' = ri
    · subst heq
      rw [hself]
      exact .stop hun
    · exact .other nofun (fun h => heq (Label.unregister.inj h)) (hsame _ _ heq)

end Deliver

/-- The message that a runner has taken from its queue and not handled yet. -/
def RunnerPc.inHand {α : Type} : RunnerPc α → List α
  | .unlock im => [im]
  | .handle im => [im]
  | _ => []

/-- The runner is where it should hold its lock. -/
def RunnerPc.inside {α : Type} : RunnerPc α → Bool
  | .testRun | .testQueue | .wait | .unlock _ => true
  | _ => false

/-- The thread is where it should hold the lock of the runner. -/
def SenderPc.Inside (ri : ρ) : SenderPc ρ μ → Prop
  | .idle | .lock _ _ _ => False
  | .append _ ri' _ | .signal _ ri' _ | .unlock _ ri' _ => ri' = ri

theorem next_inside (x : Sender ρ μ) (c : Call ρ μ) (rest : List ρ) (ri : ρ) :
    ¬(x.next c rest).pc.Inside ri := by
  cases rest <;> exact id

/-- As long as a runner is registered, its lock is held by whoever is where it should be held, a
runner that is about to wait has an empty queue, and one that waits with messages in its queue is
about to be signalled. -/
structure Guarded (s : State ρ δ μ) (ri : ρ) : Prop where
  run : (s.runners ri).run = true
  runner : (s.runners ri).owner = some .runner ↔ (s.runners ri).pc.inside = true
  sender : ∀ d, (s.runners ri).owner = some (.sender d) ↔ (s.senders d).pc.Inside ri
  empty : (s.runners ri).pc = .wait → (s.runners ri).queue = []
  signalled : (s.runners ri).pc = .waiting → (s.runners ri).queue ≠ [] →
    ∃ d c rest, (s.senders d).pc = .signal c ri rest
  returned : (s.runners ri).pc ≠ .returned

section Guarded

variable [DecidableEq ρ] {s : State ρ δ μ} {ri : ρ}

/-- A step of the runner itself. -/
theorem Guarded.pass {r' : Runner δ μ} {lockWorks : Bool} {tnow : UInt64} (h : Guarded s ri)
    (hpass : (s.runners ri).PassStep lockWorks tnow r') : Guarded (s.setRunner ri r') ri := by
  obtain ⟨hrun, hrunner, hsender, hempty, hsignalled, hreturned⟩ := h
  have hfree : (s.runners ri).pc.inside = true → ∀ d, ¬(s.senders d).pc.Inside ri := by
    intro hin d hd
    have h₁ := (hsender d).mpr hd
    rw [hrunner.mpr hin] at h₁
    cases h₁
  cases hpass with
  | acquire hpc howner =>
    have hnone : ∀ d, ¬(s.senders d).pc.Inside ri := by
      intro d hd
      have h₁ := (hsender d).mpr hd
      rw [howner] at h₁
      cases h₁
    constructor <;> simp_all [State.setRunner, RunnerPc.inside]
  | wait hpc =>
    have hin := hfree (by rw [hpc]; rfl)
    constructor <;> simp_all [State.setRunner, RunnerPc.inside]
  | unlock im hpc =>
    have hin := hfree (by rw [hpc]; rfl)
    constructor <;> simp_all [State.setRunner, RunnerPc.inside]
  | _ => constructor <;> simp_all [State.setRunner, RunnerPc.inside]

/-- A wake-up that no signal has caused. -/
theorem Guarded.wakeup (h : Guarded s ri) :
    Guarded (s.setRunner ri (s.runners ri).wake) ri := by
  rcases (s.runners ri).wake_cases with ⟨hpc, hwake⟩ | ⟨hpc, hwake⟩
  · obtain ⟨hrun, hrunner, hsender, hempty, hsignalled, hreturned⟩ := h
    rw [hwake]
    constructor <;> simp_all [State.setRunner, RunnerPc.inside]
  · rw [hwake]
    simpa [State.setRunner] using h

omit [DecidableEq ρ] in
/-- A step that leaves the runner as it is, in which no thread comes to its lock or leaves it. -/
theorem Guarded.unchanged {s' : State ρ δ μ} (h : Guarded s ri)
    (hrunner : s'.runners ri = s.runners ri)
    (hinside : ∀ d, (s'.senders d).pc.Inside ri ↔ (s.senders d).pc.Inside ri)
    (hsignal : ∀ d c rest, (s.senders d).pc = .signal c ri rest →
      ∃ c' rest', (s'.senders d).pc = .signal c' ri rest') : Guarded s' ri := by
  obtain ⟨hrun, hrun', hsender, hempty, hsignalled, hreturned⟩ := h
  refine ⟨by rw [hrunner]; exact hrun, by rw [hrunner]; exact hrun', ?_, by
    rw [hrunner]; exact hempty, ?_, by rw [hrunner]; exact hreturned⟩
  · intro d
    rw [hrunner, hinside]
    exact hsender d
  · rw [hrunner]
    intro hpc hqueue
    obtain ⟨d, c, rest, hd⟩ := hsignalled hpc hqueue
    obtain ⟨c', rest', hd'⟩ := hsignal d c rest hd
    exact ⟨d, c', rest', hd'⟩

variable [DecidableEq δ]

omit [DecidableEq ρ] in
/-- A thread that is not at the lock of a runner, before and after its step. -/
theorem Guarded.elsewhere {s' : State ρ δ μ} {d : δ} {x : Sender ρ μ} (h : Guarded s ri)
    (hrunner : s'.runners ri = s.runners ri)
    (hsenders : s'.senders = Function.update s.senders d x)
    (hbefore : ¬(s.senders d).pc.Inside ri) (hafter : ¬x.pc.Inside ri) : Guarded s' ri := by
  refine h.unchanged hrunner ?_ ?_
  · intro d'
    by_cases heq : d' = d
    · subst heq
      simp [hsenders, hbefore, hafter]
    · simp [hsenders, Function.update_of_ne heq]
  · intro d' c rest hd'
    have heq : d' ≠ d := by
      rintro rfl
      exact hbefore (by rw [hd']; exact rfl)
    exact ⟨c, rest, by rw [hsenders, Function.update_of_ne heq]; exact hd'⟩

/-- A step of a thread at the lock of the runner, to it or away from it. -/
theorem Guarded.sent {r' : Runner δ μ} {d : δ} {x : Sender ρ μ} (h : Guarded s ri)
    (hothers : ∀ d', d' ≠ d → ¬(s.senders d').pc.Inside ri) (hrun : r'.run = (s.runners ri).run)
    (howner : x.pc.Inside ri ∧ r'.owner = some (.sender d) ∨
      ¬x.pc.Inside ri ∧ r'.owner = none)
    (hpc : r'.pc.inside = false) (hreturned : r'.pc ≠ .returned)
    (hsignal : r'.pc = .waiting → r'.queue ≠ [] → ∃ c rest, x.pc = .signal c ri rest) :
    Guarded ((s.setRunner ri r').setSender d x) ri := by
  have hrunner : ((s.setRunner ri r').setSender d x).runners ri = r' := Function.update_self ..
  constructor
  · rw [hrunner, hrun, h.run]
  · rw [hrunner, hpc]
    rcases howner with ⟨-, ho⟩ | ⟨-, ho⟩ <;> simp [ho]
  · intro d'
    rw [hrunner]
    by_cases heq : d' = d
    · subst heq
      rcases howner with ⟨hin, ho⟩ | ⟨hin, ho⟩ <;> simp [State.setSender, ho, hin]
    · have hd' : ((s.setRunner ri r').setSender d x).senders d' = s.senders d' :=
        Function.update_of_ne heq ..
      rw [hd']
      refine ⟨fun ho' => ?_, fun hin => absurd hin (hothers d' heq)⟩
      rcases howner with ⟨-, ho⟩ | ⟨-, ho⟩
      · rw [ho] at ho'
        cases ho'
        exact absurd rfl heq
      · rw [ho] at ho'
        cases ho'
  · rw [hrunner]
    intro hwait
    rw [hwait] at hpc
    cases hpc
  · rw [hrunner]
    intro hwaiting hqueue
    obtain ⟨c, rest, hx⟩ := hsignal hwaiting hqueue
    exact ⟨d, c, rest, by simp [State.setSender, hx]⟩
  · rw [hrunner]
    exact hreturned

omit [DecidableEq ρ] [DecidableEq δ] in
/-- Where one thread holds the lock, no other one is. -/
theorem Guarded.others {d : δ} (h : Guarded s ri) (hin : (s.senders d).pc.Inside ri) (d' : δ)
    (hne : d' ≠ d) : ¬(s.senders d').pc.Inside ri := by
  intro hin'
  have h₁ := (h.sender d).mpr hin
  rw [(h.sender d').mpr hin'] at h₁
  cases h₁
  exact hne rfl

omit [DecidableEq ρ] [DecidableEq δ] in
theorem Guarded.runner_outside {d : δ} (h : Guarded s ri) (hin : (s.senders d).pc.Inside ri) :
    (s.runners ri).pc.inside = false := by
  rw [Bool.eq_false_iff]
  intro hpc
  have h₁ := (h.sender d).mpr hin
  rw [h.runner.mpr hpc] at h₁
  cases h₁

/-- A step of handle_message. -/
theorem Guarded.deliver {s' : State ρ δ μ} {d : δ} {lockWorks : Bool} {now : UInt64}
    (h : Guarded s ri) (hstep : DeliverStep s d lockWorks now s') : Guarded s' ri := by
  cases hstep with
  | cut c ri' rest hpc =>
    refine h.elsewhere rfl rfl ?_ (next_inside _ _ _ _)
    rw [hpc]
    exact id
  | lock c ri' rest hpc howner =>
    by_cases heq : ri' = ri
    · subst heq
      have hnone : ∀ d', ¬(s.senders d').pc.Inside ri' := by
        intro d' hin
        have h₁ := (h.sender d').mpr hin
        rw [howner] at h₁
        cases h₁
      have hout : (s.runners ri').pc.inside = false := by
        rw [Bool.eq_false_iff]
        intro hin
        have h₁ := h.runner.mpr hin
        rw [howner] at h₁
        cases h₁
      refine h.sent (fun d' _ => hnone d') rfl (.inl ⟨rfl, rfl⟩) hout h.returned ?_
      intro hwaiting hqueue
      obtain ⟨d', c', rest', hd'⟩ := h.signalled hwaiting hqueue
      exact absurd (by rw [hd']; exact rfl) (hnone d')
    · refine h.elsewhere (Function.update_of_ne (Ne.symm heq) ..) rfl ?_ heq
      rw [hpc]
      exact id
  | append c ri' rest hpc =>
    by_cases heq : ri' = ri
    · subst heq
      have hin : (s.senders d).pc.Inside ri' := by
        rw [hpc]
        exact rfl
      exact h.sent (h.others hin) rfl (.inl ⟨rfl, (h.sender d).mpr hin⟩) (h.runner_outside hin)
        h.returned fun _ _ => ⟨_, _, rfl⟩
    · refine h.elsewhere (Function.update_of_ne (Ne.symm heq) ..) rfl ?_ heq
      rw [hpc]
      exact heq
  | signal c ri' rest hpc =>
    by_cases heq : ri' = ri
    · subst heq
      have hin : (s.senders d).pc.Inside ri' := by
        rw [hpc]
        exact rfl
      have howner := (h.sender d).mpr hin
      rcases (s.runners ri').wake_cases with ⟨hpc', hwake⟩ | ⟨hpc', hwake⟩
      · rw [hwake]
        exact h.sent (h.others hin) rfl (.inl ⟨rfl, howner⟩) rfl nofun nofun
      · rw [hwake]
        exact h.sent (h.others hin) rfl (.inl ⟨rfl, howner⟩) (h.runner_outside hin) h.returned
          fun hwaiting => absurd hwaiting hpc'
    · refine h.elsewhere (Function.update_of_ne (Ne.symm heq) ..) rfl ?_ heq
      rw [hpc]
      exact heq
  | unlock c ri' rest hpc =>
    by_cases heq : ri' = ri
    · subst heq
      have hin : (s.senders d).pc.Inside ri' := by
        rw [hpc]
        exact rfl
      refine h.sent (h.others hin) rfl (.inr ⟨next_inside _ _ _ _, rfl⟩) (h.runner_outside hin)
        h.returned ?_
      -- the thread that would signal can only be this one, which has signalled already
      intro hwaiting hqueue
      obtain ⟨d', c', rest', hd'⟩ := h.signalled hwaiting hqueue
      by_cases hd : d' = d
      · subst hd
        rw [hpc] at hd'
        cases hd'
      · exact absurd (by rw [hd']; exact rfl) (h.others hin d' hd)
    · refine h.elsewhere (Function.update_of_ne (Ne.symm heq) ..) rfl ?_ (next_inside _ _ _ _)
      rw [hpc]
      exact heq

/-- Every step keeps the locks of the runners that stay registered. -/
theorem Guarded.step {gather : List Char → List ρ} {l : Label ρ δ μ} {s' : State ρ δ μ}
    (h : (s.runners ri).stop = .registered → Guarded s ri) (hstep : Step gather s l s')
    (hstop : (s'.runners ri).stop = .registered) : Guarded s' ri := by
  have hother : ∀ ri' r', ri ≠ ri' → Guarded s ri → Guarded (s.setRunner ri' r') ri := by
    intro ri' r' hne hs
    exact hs.unchanged (Function.update_of_ne hne ..) (fun _ => Iff.rfl)
      fun d c rest hd => ⟨c, rest, hd⟩
  have hkept : ∀ ri' r', ri ≠ ri' → (s.setRunner ri' r').runners ri = s.runners ri :=
    fun ri' r' hne => Function.update_of_ne hne ..
  have hself : ∀ r', (s.setRunner ri r').runners ri = r' := fun r' => Function.update_self ..
  cases hstep with
  | @pass ri' lockWorks tnow r' hpass =>
    by_cases heq : ri = ri'
    · subst heq
      rw [hself, hpass.stop_eq] at hstop
      exact (h hstop).pass hpass
    · rw [hkept ri' r' heq] at hstop
      exact hother ri' r' heq (h hstop)
  | wakeup ri' =>
    by_cases heq : ri = ri'
    · subst heq
      rw [hself, Runner.wake_stop] at hstop
      exact (h hstop).wakeup
    · rw [hkept ri' _ heq] at hstop
      exact hother ri' _ heq (h hstop)
  | @call d type msg hpc =>
    refine (h hstop).elsewhere rfl rfl ?_ (next_inside _ _ _ _)
    rw [hpc]
    exact id
  | deliver hd =>
    rw [(hd.touched ri).stop_eq] at hstop
    exact (h hstop).deliver hd
  | @unregister ri' r' hun =>
    by_cases heq : ri = ri'
    · subst heq
      rw [hself] at hstop
      cases hun <;> cases hstop
    · rw [hkept ri' r' heq] at hstop
      exact hother ri' r' heq (h hstop)

omit [DecidableEq ρ] [DecidableEq δ] in
theorem guarded_initial (ri : ρ) : Guarded (State.initial : State ρ δ μ) ri where
  run := rfl
  runner := by simp [State.initial, Runner.started, RunnerPc.inside]
  sender := by simp [State.initial, Runner.started, SenderPc.Inside]
  empty := fun _ => rfl
  signalled := fun _ h => absurd rfl h
  returned := nofun

/-- In every reachable state the lock of a registered runner is in order. -/
theorem guarded_of_reachable {gather : List Char → List ρ} {s : State ρ δ μ}
    (h : (queues gather).Reachable s) {ri : ρ} (hstop : (s.runners ri).stop = .registered) :
    Guarded s ri := by
  have hinv : ∀ ri, (s.runners ri).stop = .registered → Guarded s ri := by
    refine h.invariant (I := fun s => ∀ ri, (s.runners ri).stop = .registered → Guarded s ri) ?_ ?_
    · rintro s rfl ri -
      exact guarded_initial ri
    · intro l s s' hs hstep ri hstop
      exact .step (hs ri) (step_of_perform hstep) hstop
  exact hinv ri hstop

/-- A registered runner is alone at its queue or not there, and it can go on, unless it waits and
nothing is queued or a thread that can go on is at its queue. -/
theorem no_wakeup_lost (gather : List Char → List ρ) (s : State ρ δ μ)
    (h : (queues gather).Reachable s) (ri : ρ) (hstop : (s.runners ri).stop = .registered) :
    (∀ d, (s.senders d).pc.Inside ri → (s.runners ri).pc.inside = false ∧
      ∀ d', d' ≠ d → ¬(s.senders d').pc.Inside ri) ∧
    ((∀ tnow, ∃ s', s.perform gather (.pass ri true tnow) = some s') ∨
      ((s.runners ri).pc = .waiting ∧ (s.runners ri).queue = []) ∨
      ∃ d, (s.senders d).pc.Inside ri ∧
        ∀ now, ∃ s', s.perform gather (.deliver d true now) = some s') := by
  have hguarded := guarded_of_reachable h hstop
  refine ⟨fun d hd => ⟨hguarded.runner_outside hd, hguarded.others hd⟩, ?_⟩
  -- a thread at the queue is never held up there
  have hgoes : ∀ d, (s.senders d).pc.Inside ri →
      ∀ now, ∃ s', s.perform gather (.deliver d true now) = some s' := by
    intro d hin now
    simp only [State.perform, State.deliver]
    split <;> simp_all [SenderPc.Inside]
  have hacquire : (s.runners ri).pc = .lock ∨ (s.runners ri).pc = .woken →
      (∀ tnow, ∃ s', s.perform gather (.pass ri true tnow) = some s') ∨
      ∃ d, (s.senders d).pc.Inside ri := by
    intro hpc
    cases howner : (s.runners ri).owner with
    | none =>
      refine .inl fun tnow => ?_
      rcases hpc with hpc | hpc <;> simp [State.perform, Runner.pass, hpc, Runner.acquire, howner]
    | some holder =>
      cases holder with
      | runner =>
        have hin := hguarded.runner.mp howner
        rcases hpc with hpc | hpc <;> simp [hpc, RunnerPc.inside] at hin
      | sender d => exact .inr ⟨d, (hguarded.sender d).mp howner⟩
  cases hpc : (s.runners ri).pc with
  | lock =>
    rcases hacquire (.inl hpc) with hpass | ⟨d, hd⟩
    · exact .inl hpass
    · exact .inr (.inr ⟨d, hd, hgoes d hd⟩)
  | woken =>
    rcases hacquire (.inr hpc) with hpass | ⟨d, hd⟩
    · exact .inl hpass
    · exact .inr (.inr ⟨d, hd, hgoes d hd⟩)
  | waiting =>
    by_cases hqueue : (s.runners ri).queue = []
    · exact .inr (.inl ⟨rfl, hqueue⟩)
    · obtain ⟨d, c, rest, hd⟩ := hguarded.signalled hpc hqueue
      have hin : (s.senders d).pc.Inside ri := by
        rw [hd]
        exact rfl
      exact .inr (.inr ⟨d, hin, hgoes d hin⟩)
  | returned => exact absurd hpc hguarded.returned
  | testQueue =>
    refine .inl fun tnow => ?_
    simp only [State.perform, Runner.pass, hpc]
    split <;> simp
  | _ =>
    refine .inl fun tnow => ?_
    simp [State.perform, Runner.pass, hpc]

/-- A runner waits while a message has just been queued to it. -/
theorem no_wakeup_lost_before_signal :
    ∃ s : State ℕ ℕ String, (queues fun _ => [0]).Reachable s ∧
      (s.runners 0).pc = .waiting ∧ (s.runners 0).queue.length = 1 ∧
      ∃ d, (s.senders d).pc.Inside 0 ∧
        ∀ now, ∃ s', s.perform (fun _ => [0]) (.deliver d true now) = some s' := by
  have hplayed : ∃ s : State ℕ ℕ String,
      (List.replicate 5 (.pass 0 true 0) ++ [.call 0 "/A".toList "m", .deliver 0 true 0,
        .deliver 0 true 0] : List (Label ℕ ℕ String)).foldlM (State.perform fun _ => [0])
        .initial = some s ∧
      (s.runners 0).stop = .registered ∧ (s.runners 0).pc = .waiting ∧
      (s.runners 0).queue.length = 1 := ⟨_, rfl, rfl, rfl, rfl⟩
  obtain ⟨s, hs, hstop, hpc, hqueue⟩ := hplayed
  have hreach := System.reachable_of_foldlM hs
  refine ⟨s, hreach, hpc, hqueue, ?_⟩
  rcases (no_wakeup_lost _ s hreach 0 hstop).2 with hpass | ⟨-, hempty⟩ | hsender
  · obtain ⟨s', hs'⟩ := hpass 0
    simp [State.perform, Runner.pass, hpc] at hs'
  · simp [hempty] at hqueue
  · exact hsender

end Guarded

end EsyncUa.RunnerQueues
