import EsyncUa.RunnerQueues
import EsyncUa.Delivery
import Mathlib.Algebra.BigOperators.Ring.List
import Mathlib.Algebra.Ring.Nat

/-!
What becomes of a message that handle_message is called with. It is queued once to each runner
that its type addresses, in the order of the calls of its thread, and comes to be handled after a
number of steps of the runner that does not depend on the other threads. A runner that is
unregistered leaves its loop unless the broadcast comes between its test of the flag and its wait.
-/
namespace EsyncUa.RunnerQueues

open EsyncUa.LabelledSystems

variable {ρ δ μ : Type}

/-- What was queued was handled, is in hand or still queued, in this order. -/
def Runner.Accounted (r : Runner δ μ) : Prop :=
  r.appended = r.handled.map Prod.fst ++ r.pc.inHand ++ r.queue

section Accounted

variable {r r' : Runner δ μ}

theorem Runner.PassStep.accounted {lockWorks : Bool} {tnow : UInt64} (h : r.Accounted)
    (hpass : r.PassStep lockWorks tnow r') : r'.Accounted := by
  unfold Runner.Accounted at h ⊢
  cases hpass with
  | acquire hpc howner => rcases hpc with hpc | hpc <;> simp_all [RunnerPc.inHand]
  | _ => simp_all [RunnerPc.inHand]

theorem Runner.accounted_wake (h : r.Accounted) : r.wake.Accounted := by
  rcases r.wake_cases with ⟨hpc, hwake⟩ | ⟨-, hwake⟩
  · rw [hwake]
    simpa [Runner.Accounted, hpc, RunnerPc.inHand] using h
  · rw [hwake]
    exact h

theorem Runner.UnregisterStep.accounted (h : r.Accounted) (hstep : r.UnregisterStep r') :
    r'.Accounted := by
  cases hstep with
  | broadcast hstop => exact Runner.accounted_wake h
  | _ => exact h

theorem Touched.accounted (h : r.Accounted) (htouched : Touched r r') :
    r'.Accounted := by
  cases htouched with
  | same => exact h
  | owner o => exact h
  | append im =>
    unfold Runner.Accounted at h ⊢
    simp [Runner.append, h]
  | wake => exact Runner.accounted_wake h

/-- Every step of the machine accounts for the messages. -/
theorem RunnerStep.accounted {ri : ρ} {l : Label ρ δ μ} (h : r.Accounted)
    (hstep : RunnerStep ri r l r') : r'.Accounted := by
  cases hstep with
  | own hpass => exact hpass.accounted h
  | stop hun => exact hun.accounted h
  | other _ _ htouched => exact htouched.accounted h

theorem accounted_of_reachable [DecidableEq ρ] [DecidableEq δ] {gather : List Char → List ρ}
    {s : State ρ δ μ} (h : (queues gather).Reachable s) (ri : ρ) : (s.runners ri).Accounted := by
  have hinv : ∀ ri, (s.runners ri).Accounted := by
    refine h.invariant (I := fun s => ∀ ri, (s.runners ri).Accounted) ?_ ?_
    · rintro s rfl ri
      rfl
    · intro l s s' hs hstep
      exact fun ri => ((step_of_perform hstep).runner ri).accounted (hs ri)
  exact hinv ri

end Accounted

/-- The call of handle_message that the thread is in. -/
def SenderPc.current : SenderPc ρ μ → List (Call ρ μ)
  | .idle => []
  | .lock c _ _ | .append c _ _ | .signal c _ _ | .unlock c _ _ => [c]

/-- The runners that the call has still to serve. -/
def SenderPc.pending : SenderPc ρ μ → List ρ
  | .idle => []
  | .lock _ ri rest | .append _ ri rest => ri :: rest
  | .signal _ _ rest | .unlock _ _ rest => rest

/-- The messages of the calls that have come to the runner so far. -/
def Sender.sentTo [DecidableEq ρ] (x : Sender ρ μ) (ri : ρ) : List μ :=
  ((x.calls ++ x.pc.current).filter fun c => ri ∈ c.served).map Call.msg

/-- The messages of a thread that were ever queued to the runner. -/
def Runner.queuedBy [DecidableEq δ] (r : Runner δ μ) (d : δ) : List μ :=
  (r.appended.filter fun im => im.sender = d).map IncomingMsg.msg

section Ordered

variable [DecidableEq ρ] [DecidableEq δ]

/-- A call serves the runners that were gathered for its type one after the other, to the end
unless it is cut. -/
structure Ordered (gather : List Char → List ρ) (s : State ρ δ μ) : Prop where
  queued : ∀ d ri, (s.runners ri).queuedBy d = (s.senders d).sentTo ri
  current : ∀ d, ∀ c ∈ (s.senders d).pc.current,
    c.cut = false ∧ c.served ++ (s.senders d).pc.pending = gather c.type
  finished : ∀ d, ∀ c ∈ (s.senders d).calls, c.served <+: gather c.type ∧
    (c.cut = false → c.served = gather c.type)

theorem sentTo_next (x : Sender ρ μ) (c : Call ρ μ) (rest : List ρ) (ri : ρ)
    (hx : x.pc.current = [c]) : (x.next c rest).sentTo ri = x.sentTo ri := by
  rw [Sender.sentTo, Sender.sentTo, hx]
  cases rest <;> simp [Sender.next, SenderPc.current]

/-- The step of a thread that queues nothing. -/
theorem Ordered.moved {gather : List Char → List ρ} {s s' : State ρ δ μ} {d : δ}
    {x : Sender ρ μ} (h : Ordered gather s) (hsenders : s'.senders = Function.update s.senders d x)
    (hrunners : ∀ ri, (s'.runners ri).appended = (s.runners ri).appended)
    (hsent : ∀ ri, x.sentTo ri = (s.senders d).sentTo ri)
    (hcurrent : ∀ c ∈ x.pc.current, c.cut = false ∧ c.served ++ x.pc.pending = gather c.type)
    (hfinished : ∀ c ∈ x.calls, c.served <+: gather c.type ∧
      (c.cut = false → c.served = gather c.type)) : Ordered gather s' := by
  constructor
  · intro d' ri
    rw [Runner.queuedBy, hrunners, hsenders]
    by_cases heq : d' = d
    · subst heq
      rw [Function.update_self, hsent]
      exact h.queued d' ri
    · rw [Function.update_of_ne heq]
      exact h.queued d' ri
  · intro d'
    rw [hsenders]
    by_cases heq : d' = d
    · subst heq
      rw [Function.update_self]
      exact hcurrent
    · rw [Function.update_of_ne heq]
      exact h.current d'
  · intro d'
    rw [hsenders]
    by_cases heq : d' = d
    · subst heq
      rw [Function.update_self]
      exact hfinished
    · rw [Function.update_of_ne heq]
      exact h.finished d'

/-- The head of the loop, with a call that has served all runners before `rest`. -/
theorem Ordered.next {gather : List Char → List ρ} {s s' : State ρ δ μ} {d : δ}
    {c : Call ρ μ} {rest : List ρ} (h : Ordered gather s)
    (hsenders : s'.senders = Function.update s.senders d ((s.senders d).next c rest))
    (hrunners : ∀ ri, (s'.runners ri).appended = (s.runners ri).appended)
    (hsent : ∀ ri, ((s.senders d).next c rest).sentTo ri = (s.senders d).sentTo ri)
    (hcut : c.cut = false) (hserved : c.served ++ rest = gather c.type) :
    Ordered gather s' := by
  refine h.moved hsenders hrunners hsent ?_ ?_
  · cases rest with
    | nil => exact nofun
    | cons ri rest => simpa [Sender.next, SenderPc.current, SenderPc.pending] using ⟨hcut, hserved⟩
  · cases rest with
    | nil =>
      intro c' hc'
      rw [List.append_nil] at hserved
      rcases List.mem_append.mp hc' with hc' | hc'
      · exact h.finished d c' hc'
      · rw [List.mem_singleton.mp hc']
        exact ⟨by rw [hserved], fun _ => hserved⟩
    | cons ri rest => exact h.finished d

omit [DecidableEq δ] in
theorem appended_setRunner {s : State ρ δ μ} {ri' : ρ} {r' : Runner δ μ}
    (hr' : r'.appended = (s.runners ri').appended) (ri : ρ) :
    ((s.setRunner ri' r').runners ri).appended = (s.runners ri).appended := by
  by_cases heq : ri = ri'
  · subst heq
    simpa [State.setRunner] using hr'
  · simp [State.setRunner, Function.update_of_ne heq]

/-- The message comes to the runner that the call is at, which it has not served before. -/
theorem Ordered.append {gather : List Char → List ρ} (hgather : ∀ type, (gather type).Nodup)
    {s : State ρ δ μ} {d : δ} {now : UInt64} {c : Call ρ μ} {ri : ρ} {rest : List ρ}
    (h : Ordered gather s) (hpc : (s.senders d).pc = .append c ri rest) :
    Ordered gather ((s.setRunner ri ((s.runners ri).append ⟨c.msg, now, d⟩)).setSender d
      { s.senders d with pc := .signal { c with served := c.served ++ [ri] } ri rest }) := by
  obtain ⟨hcut, hserved⟩ := h.current d c (by simp [hpc, SenderPc.current])
  rw [hpc] at hserved
  have hnew : ri ∉ c.served := by
    have hnodup := hgather c.type
    rw [← hserved] at hnodup
    intro hmem
    exact (List.disjoint_of_nodup_append hnodup) hmem List.mem_cons_self
  constructor
  · intro d' ri'
    have hold := h.queued d' ri'
    by_cases hri : ri' = ri
    · subst hri
      by_cases hd : d' = d
      · subst hd
        simp only [Runner.queuedBy, Sender.sentTo, hpc, SenderPc.current] at hold
        simp [State.setRunner, State.setSender, Runner.queuedBy, Runner.append, hold,
          Sender.sentTo, SenderPc.current, hnew]
      · simp [State.setRunner, State.setSender, Runner.queuedBy, Runner.append,
          Function.update_of_ne hd, ← hold, Ne.symm hd]
    · by_cases hd : d' = d
      · subst hd
        simp only [Runner.queuedBy, Sender.sentTo, hpc, SenderPc.current] at hold
        simp only [State.setRunner, State.setSender, Runner.queuedBy, hold, Sender.sentTo,
          SenderPc.current, List.filter_append, List.filter_cons, List.filter_nil,
          List.mem_append, List.mem_singleton, hri, Function.update_of_ne hri,
          Function.update_self, or_false, List.map_append]
        split <;> rfl
      · simpa [State.setRunner, State.setSender, Function.update_of_ne hri,
          Function.update_of_ne hd] using hold
  · intro d'
    by_cases hd : d' = d
    · subst hd
      simpa [State.setRunner, State.setSender, SenderPc.current, SenderPc.pending]
        using ⟨hcut, hserved⟩
    · simpa [State.setRunner, State.setSender, Function.update_of_ne hd] using h.current d'
  · intro d'
    by_cases hd : d' = d
    · subst hd
      simpa [State.setRunner, State.setSender] using h.finished d'
    · simpa [State.setRunner, State.setSender, Function.update_of_ne hd] using h.finished d'

omit [DecidableEq ρ] [DecidableEq δ] in
theorem Runner.wake_appended (r : Runner δ μ) : r.wake.appended = r.appended := by
  rcases r.wake_cases with ⟨-, h⟩ | ⟨-, h⟩ <;> rw [h]

theorem Ordered.step {gather : List Char → List ρ} (hgather : ∀ type, (gather type).Nodup)
    {s s' : State ρ δ μ} {l : Label ρ δ μ} (h : Ordered gather s) (hstep : Step gather s l s') :
    Ordered gather s' := by
  -- a step of another thread queues nothing
  have hother : ∀ ri r', r'.appended = (s.runners ri).appended →
      Ordered gather (s.setRunner ri r') := by
    intro ri r' hr'
    refine ⟨fun d ri' => ?_, h.current, h.finished⟩
    rw [Runner.queuedBy, appended_setRunner hr']
    exact h.queued d ri'
  cases hstep with
  | pass hpass => exact hother _ _ (by cases hpass <;> rfl)
  | wakeup ri => exact hother _ _ (Runner.wake_appended _)
  | @call d type msg hpc =>
    refine h.next rfl (fun _ => rfl) ?_ rfl rfl
    intro ri
    cases gather type <;> simp [Sender.next, Sender.sentTo, SenderPc.current, hpc]
  | unregister hun =>
    refine hother _ _ ?_
    cases hun with
    | broadcast hstop => exact Runner.wake_appended _
    | _ => rfl
  | @deliver d lockWorks now s' hd =>
    cases hd with
    | cut c ri rest hpc =>
      obtain ⟨hcut, hserved⟩ := h.current d c (by simp [hpc, SenderPc.current])
      refine h.moved rfl (fun _ => rfl) ?_ nofun ?_
      · intro ri'
        simp only [Sender.next, Sender.sentTo, SenderPc.current, hpc, List.append_nil,
          List.filter_append, List.filter_cons, List.filter_nil, List.map_append]
        split <;> rfl
      · intro c' hc'
        rcases List.mem_append.mp hc' with hc' | hc'
        · exact h.finished d c' hc'
        · rw [List.mem_singleton.mp hc']
          exact ⟨⟨_, hserved⟩, nofun⟩
    | lock c ri rest hpc howner =>
      have hc := h.current d c (by simp [hpc, SenderPc.current])
      rw [hpc] at hc
      refine h.moved rfl (appended_setRunner rfl) ?_ ?_ (h.finished d)
      · intro ri'
        simp [Sender.sentTo, SenderPc.current, hpc]
      · simpa [SenderPc.current, SenderPc.pending] using hc
    | append c ri rest hpc => exact h.append hgather hpc
    | signal c ri rest hpc =>
      have hc := h.current d c (by simp [hpc, SenderPc.current])
      rw [hpc] at hc
      refine h.moved rfl (appended_setRunner (Runner.wake_appended _)) ?_ ?_ (h.finished d)
      · intro ri'
        simp [Sender.sentTo, SenderPc.current, hpc]
      · simpa [SenderPc.current, SenderPc.pending] using hc
    | unlock c ri rest hpc =>
      obtain ⟨hcut, hserved⟩ := h.current d c (by simp [hpc, SenderPc.current])
      rw [hpc] at hserved
      exact h.next rfl (appended_setRunner rfl)
        (fun ri' => sentTo_next _ c rest ri' (by simp [hpc, SenderPc.current])) hcut hserved

theorem ordered_of_reachable {gather : List Char → List ρ}
    (hgather : ∀ type, (gather type).Nodup) {s : State ρ δ μ}
    (h : (queues gather).Reachable s) : Ordered gather s := by
  refine h.invariant ?_ fun l s s' hs hstep => hs.step hgather (step_of_perform hstep)
  rintro s rfl
  exact ⟨fun _ _ => rfl, fun _ _ => nofun, fun _ _ => nofun⟩

end Ordered

section Delivered

open EsyncUa.JsonProperties EsyncUa.Components EsyncUa.Routing EsyncUa.RoutingTree
open EsyncUa.Registration

variable {κ : Type} [LinearOrder ρ] [DecidableEq κ] [DecidableEq δ]

/-- What query_hash_tree gathers for a type. -/
def gathering (lib : Library ρ κ) (type : List Char) : List ρ :=
  gatherAt false (components type) (lib.riTree.getD .bare)

omit [DecidableEq κ] in
theorem appendMessage_count (msg : List Char) {g : List ρ} {lib lib' : Library ρ κ}
    (h : appendMessage msg g lib = some lib') (ri : ρ) :
    (lib.runners ri = none → ri ∉ g ∧ lib'.runners ri = none) ∧
    ∀ info, lib.runners ri = some info → lib'.runners ri =
      some { info with queue := info.queue ++ List.replicate (g.count ri) msg } := by
  induction g generalizing lib with
  | nil =>
    cases h
    simp +contextual
  | cons r rest ih =>
    obtain ⟨info, hinfo, hrest⟩ := Option.bind_eq_some_iff.mp h
    have ih := ih hrest
    by_cases heq : ri = r
    · subst heq
      simp only [setRunner, Function.update_self] at ih
      refine ⟨fun hnone => by simp [hinfo] at hnone, ?_⟩
      intro info' hinfo'
      cases hinfo.symm.trans hinfo'
      rw [ih.2 _ rfl, List.count_cons_self]
      simp [List.replicate_succ]
    · simp only [setRunner, Function.update_of_ne heq] at ih
      refine ⟨fun hnone => ⟨?_, (ih.1 hnone).2⟩, ?_⟩
      · intro hmem
        exact (ih.1 hnone).1 ((List.mem_cons.mp hmem).resolve_left heq)
      · intro info' hinfo'
        rw [ih.2 info' hinfo', List.count_cons_of_ne (Ne.symm heq)]

omit [DecidableEq κ] in
/-- As long as every ua_unregister covers all runners, each runner that a type addresses is
gathered once and no other one is. -/
theorem gathering_spec {S : Set (Delivery.Entry ρ κ)} {lib : Library ρ κ}
    (h : Delivery.Inv S lib) (type : List Char) :
    (gathering lib type).Nodup ∧ ∀ ri, ri ∈ gathering lib type ↔ Delivery.Addressed S type ri := by
  obtain ⟨g, hquery, hg⟩ := Delivery.query_gathers lib.riTree type false
  have hspec : ∀ ri, (Delivery.Addressed S type ri → g.count ri = 1) ∧
      (¬Delivery.Addressed S type ri → ri ∉ g) := by
    intro ri
    obtain ⟨lib', hhandle, hri⟩ := h.delivers type []
    have happend : appendMessage [] g lib = some lib' := by
      simpa [handleMessage, hquery] using hhandle
    obtain ⟨hnone, hsome⟩ := appendMessage_count [] happend ri
    constructor
    · intro haddr
      obtain ⟨info, hinfo, hinfo'⟩ := (hri ri).1 haddr
      have hqueue := (hsome info hinfo).symm.trans hinfo'
      simp only [Option.some.injEq, RunnerInfo.mk.injEq, List.append_cancel_left_eq] at hqueue
      simpa using congrArg List.length hqueue.2.2.2
    · intro hnot
      have hsame := (hri ri).2 hnot
      cases hinfo : lib.runners ri with
      | none => exact (hnone hinfo).1
      | some info =>
        rw [hsome info hinfo, hinfo] at hsame
        have hcount := congrArg (fun info => info.queue.length) (Option.some.inj hsame)
        simpa [List.count_eq_zero] using hcount
  have hgathering : gathering lib type = g := hg.symm
  rw [hgathering]
  have hmem : ∀ ri, ri ∈ g ↔ Delivery.Addressed S type ri := by
    intro ri
    refine ⟨fun hri => by_contra fun hnot => (hspec ri).2 hnot hri, fun haddr => ?_⟩
    exact List.count_pos_iff.mp (by rw [(hspec ri).1 haddr]; exact Nat.one_pos)
  refine ⟨List.nodup_iff_count_le_one.mpr fun ri => ?_, hmem⟩
  by_cases hri : ri ∈ g
  · exact ((hspec ri).1 ((hmem ri).mp hri)).le
  · rw [List.count_eq_zero_of_not_mem hri]
    exact Nat.zero_le 1

/-- Two handlers, one for a type and one for a type below it. -/
def sampleHandlers : List (Handler ℕ × Start ℕ) :=
  [(⟨['/', 'A'], some 0⟩, ⟨1, true, true⟩), (⟨['/', 'A', '/', 'B'], some 0⟩, ⟨2, true, true⟩)]

def sampleCallbacks (_ : ℕ) : Callbacks := ⟨false, false, true⟩

def sampleLibrary : Library ℕ ℕ where
  riTree := some (registerAt 2 (components ['/', 'A', '/', 'B'])
    (registerAt 1 (components ['/', 'A']) .bare))
  runners := Function.update (Function.update (fun _ => none) 1
    (some ⟨['/', 'A'], some 0, true, []⟩)) 2 (some ⟨['/', 'A', '/', 'B'], some 0, true, []⟩)
  uah := sampleHandlers.map Prod.fst
  state := .handlerRegistered

theorem sampleLibrary_run :
    Delivery.Run sampleCallbacks [.register sampleHandlers fun _ => true] sampleLibrary := by
  have hcall : Delivery.call sampleCallbacks Delivery.initial
      (.register sampleHandlers fun _ => true) = some (sampleLibrary, eUaOk) := by
    simp [Delivery.call, uaRegister, sampleHandlers, sampleLibrary, sampleCallbacks,
      registerHandlers, registerHandler, queryRiTree, setRunner, query_register,
      Delivery.initial, eUaOk]
  exact Delivery.Run.nil.snoc _ ⟨by decide, fun _ _ => rfl⟩ hcall

theorem sampleLibrary_gathering :
    gathering sampleLibrary ['/', 'A'] = [1] ∧
      gathering sampleLibrary ['/', 'A', '/', 'B'] = [1, 2] := by
  have hshort : components ['/', 'A'] = [['A']] := by decide +kernel
  have hlong : components ['/', 'A', '/', 'B'] = [['A'], ['B']] := by decide +kernel
  constructor
  · simp only [gathering, sampleLibrary, hshort, hlong, Option.getD_some]
    decide +kernel
  · simp only [gathering, sampleLibrary, hshort, hlong, Option.getD_some]
    decide +kernel

/-- A message for both handlers, which the upper one handles, and one for the upper one. -/
def sampleLabels : List (Label ℕ ℕ String) :=
  [.call 0 ['/', 'A', '/', 'B'] "m"] ++ List.replicate 8 (.deliver 0 true 0) ++
    List.replicate 6 (.pass 1 true 0) ++ [.call 0 ['/', 'A'] "n"] ++
    List.replicate 4 (.deliver 0 true 0)

def SenderPc.isIdle : SenderPc ρ μ → Bool
  | .idle => true
  | _ => false

/-- Whether the thread has no call in progress and none that a lock has cut. -/
def Sender.isDone (x : Sender ρ μ) : Bool := x.pc.isIdle && x.calls.all fun c => !c.cut

theorem sampleLabels_play :
    ∃ s, sampleLabels.foldlM (State.perform (gathering sampleLibrary)) .initial = some s ∧
      (s.runners 1).handled.length = 1 ∧ (s.senders 0).isDone ∧
      (s.senders 0).calls.map (fun c => (c.type, c.msg)) =
        [(['/', 'A', '/', 'B'], "m"), (['/', 'A'], "n")] := by
  have hplayed : (sampleLabels.foldlM (State.perform (gathering sampleLibrary)) .initial).any
      fun s => (s.runners 1).handled.length = 1 && (s.senders 0).isDone &&
        decide ((s.senders 0).calls.map (fun c => (c.type, c.msg)) =
          [(['/', 'A', '/', 'B'], "m"), (['/', 'A'], "n")]) := by
    decide +kernel
  obtain ⟨s, hs, hall⟩ := (Option.any_eq_true _ _).mp hplayed
  simp only [Bool.and_eq_true, decide_eq_true_eq] at hall
  exact ⟨s, hs, hall.1.1, hall.1.2, hall.2⟩

end Delivered

/-- How many steps of its loop a runner makes before the step that handles a message. -/
def RunnerPc.before {α : Type} : RunnerPc α → ℕ
  | .loop => 5
  | .lock | .waiting | .woken => 4
  | .testRun => 3
  | .testQueue => 2
  | .unlock _ => 1
  | _ => 0

section Handled

variable [DecidableEq ρ] [DecidableEq δ]

/-- One for each step of the runner. -/
def passes (ri : ρ) : Label ρ δ μ → ℕ
  | .pass ri' _ _ => if ri' = ri then 1 else 0
  | _ => 0

/-- One for each step of the runner in which pthread_mutex_lock may fail. -/
def lockFailures (ri : ρ) : Label ρ δ μ → ℕ
  | .pass ri' false _ => if ri' = ri then 1 else 0
  | _ => 0

omit [DecidableEq δ] in
theorem passes_eq_zero {ri : ρ} {l : Label ρ δ μ}
    (h : ∀ lockWorks tnow, l ≠ .pass ri lockWorks tnow) : passes ri l = 0 := by
  cases l with
  | pass ri' lockWorks tnow =>
    exact if_neg fun heq => h lockWorks tnow (by rw [heq])
  | _ => rfl

omit [DecidableEq δ] in
/-- Once the message at place `k` is queued, every step of the runner brings it nearer. -/
theorem RunnerStep.nearer {ri : ρ} {l : Label ρ δ μ} {r r' : Runner δ μ} {k : ℕ}
    (hstep : RunnerStep ri r l r') (haccounted : r.Accounted) (hk : k < r.appended.length)
    (hrun : r.run = true) (hempty : r.pc = .wait → r.queue = []) :
    (k < r'.handled.length ∨ r'.stop ≠ .registered) ∨
      6 * (k - r'.handled.length) + r'.pc.before + passes ri l ≤
        6 * (k - r.handled.length) + r.pc.before + 2 * lockFailures ri l := by
  have hlen := congrArg List.length haccounted
  simp only [List.length_append, List.length_map] at hlen
  cases hstep with
  | @own lockWorks tnow r' hpass =>
    have hone : passes ri (.pass ri lockWorks tnow : Label ρ δ μ) = 1 := if_pos rfl
    rw [hone]
    cases hpass with
    | leave hpc hoff => simp [hrun] at hoff
    | stopped hpc hoff => simp [hrun] at hoff
    | lockFails hpc =>
      have hfails : lockFailures ri (.pass ri false tnow : Label ρ δ μ) = 1 := if_pos rfl
      simp only [hpc, hfails, RunnerPc.before]
      omega
    | acquire hpc howner => rcases hpc with hpc | hpc <;> simp [hpc, RunnerPc.before]
    | empty hpc hqueue =>
      -- nothing is queued or in hand, so the message has been handled
      rw [hqueue, hpc] at hlen
      simp only [RunnerPc.inHand, List.length_nil, Nat.add_zero] at hlen
      exact .inl (.inl (hlen ▸ hk))
    | wait hpc =>
      rw [hempty hpc, hpc] at hlen
      simp only [RunnerPc.inHand, List.length_nil, Nat.add_zero] at hlen
      exact .inl (.inl (hlen ▸ hk))
    | handle im hpc =>
      simp only [hpc, RunnerPc.before, List.length_append, List.length_singleton]
      omega
    | enter hpc _ => simp only [hpc, RunnerPc.before]; omega
    | proceed hpc _ => simp only [hpc, RunnerPc.before]; omega
    | take im queue hpc _ => simp only [hpc, RunnerPc.before]; omega
    | unlock im hpc => simp only [hpc, RunnerPc.before]; omega
  | stop hun =>
    refine .inl (.inr ?_)
    cases hun <;> exact nofun
  | other hpass hstop htouched =>
    rw [passes_eq_zero hpass]
    cases htouched with
    | wake =>
      rcases r.wake_cases with ⟨hpc, hwake⟩ | ⟨-, hwake⟩ <;> rw [hwake]
      · simp only [hpc, RunnerPc.before]
        omega
      · omega
    | same => omega
    | owner o => simp only; omega
    | append im => simp only [Runner.append]; omega

omit [DecidableEq ρ] [DecidableEq δ] in
/-- The message at a place stays there. -/
theorem RunnerStep.appended {ri : ρ} {l : Label ρ δ μ} {r r' : Runner δ μ}
    (hstep : RunnerStep ri r l r') : r.appended <+: r'.appended := by
  cases hstep with
  | own hpass => cases hpass <;> exact List.prefix_refl _
  | stop hun =>
    cases hun with
    | broadcast hstop => rw [Runner.wake_appended]
    | _ => exact List.prefix_refl _
  | other hpass hstop htouched =>
    cases htouched with
    | wake => rw [Runner.wake_appended]
    | append im => exact List.prefix_append _ _
    | _ => exact List.prefix_refl _

/-- Whether process_message is called for a message that is taken out at this time. -/
def IncomingMsg.isYoung (im : IncomingMsg δ μ) (tnow : UInt64) : Bool :=
  decide (tnow < im.msgTs + msgTimeout * 1000)

omit [DecidableEq ρ] [DecidableEq δ] in
/-- Only a step of the runner handles a message, by its age at that moment. -/
theorem RunnerStep.handled_cases {ri : ρ} {l : Label ρ δ μ} {r r' : Runner δ μ}
    (hstep : RunnerStep ri r l r') :
    r'.handled = r.handled ∨ ∃ lockWorks tnow im, l = .pass ri lockWorks tnow ∧
      r.pc = .handle im ∧ r'.handled = r.handled ++ [(im, im.isYoung tnow)] := by
  cases hstep with
  | @own lockWorks tnow r' hpass =>
    cases hpass with
    | handle im hpc => exact .inr ⟨lockWorks, tnow, im, rfl, hpc, rfl⟩
    | _ => exact .inl rfl
  | stop hun =>
    refine .inl ?_
    cases hun with
    | broadcast hstop => rcases r.wake_cases with ⟨-, hwake⟩ | ⟨-, hwake⟩ <;> simp [hwake]
    | _ => rfl
  | other hpass hstop htouched =>
    refine .inl ?_
    cases htouched with
    | wake => rcases r.wake_cases with ⟨-, hwake⟩ | ⟨-, hwake⟩ <;> rw [hwake]
    | _ => rfl

omit [DecidableEq ρ] [DecidableEq δ] in
theorem RunnerStep.handled {ri : ρ} {l : Label ρ δ μ} {r r' : Runner δ μ}
    (hstep : RunnerStep ri r l r') : r.handled.length ≤ r'.handled.length := by
  rcases hstep.handled_cases with hsame | ⟨_, _, _, _, _, hnew⟩
  · rw [hsame]
  · rw [hnew, List.length_append]
    exact Nat.le_add_right _ _

/-- In the run the runner takes the step for the message with `k` others before it, at this
time. -/
def HandledAt (gather : List Char → List ρ) (ls : List (Label ρ δ μ)) (s : State ρ δ μ) (ri : ρ)
    (k : ℕ) (im : IncomingMsg δ μ) (tnow : UInt64) : Prop :=
  ∃ before lockWorks after s₁, ls = before ++ .pass ri lockWorks tnow :: after ∧
    (queues gather).Run before s s₁ ∧ (s₁.runners ri).pc = .handle im ∧
    (s₁.runners ri).handled.length = k

/-- What has been handled in a run was handled by a step of it. -/
theorem handled_in_run {gather : List Char → List ρ} {ls : List (Label ρ δ μ)}
    {s s' : State ρ δ μ} (hrun : (queues gather).Run ls s s') {ri : ρ} {k : ℕ}
    {im : IncomingMsg δ μ} {processed : Bool}
    (h : (s'.runners ri).handled[k]? = some (im, processed)) :
    (s.runners ri).handled[k]? = some (im, processed) ∨
      ∃ tnow, HandledAt gather ls s ri k im tnow ∧ processed = im.isYoung tnow := by
  induction hrun with
  | nil s => exact .inl h
  | @cons l ls s s₁ s' hl hrun ih =>
    rcases ih h with hbefore | ⟨tnow, ⟨before, lockWorks, after, s₂, rfl, hrun₂, hat⟩, hyoung⟩
    · rcases ((step_of_perform hl).runner ri).handled_cases with hsame |
        ⟨lockWorks, tnow, im', rfl, hpc, hnew⟩
      · exact .inl (hsame ▸ hbefore)
      · rw [hnew] at hbefore
        rcases Nat.lt_trichotomy k (s.runners ri).handled.length with hlt | rfl | hgt
        · rw [List.getElem?_append_left hlt] at hbefore
          exact .inl hbefore
        · rw [List.getElem?_concat_length, Option.some.injEq, Prod.mk.injEq] at hbefore
          obtain ⟨rfl, rfl⟩ := hbefore
          exact .inr ⟨tnow, ⟨[], lockWorks, ls, s, rfl, .nil s, hpc, rfl⟩, rfl⟩
        · rw [List.getElem?_eq_none (by simp; omega)] at hbefore
          cases hbefore
    · exact .inr ⟨tnow, ⟨l :: before, lockWorks, after, s₂, rfl, .cons hl hrun₂, hat⟩, hyoung⟩

omit [DecidableEq ρ] [DecidableEq δ] in
theorem RunnerStep.unregistered {ri : ρ} {l : Label ρ δ μ} {r r' : Runner δ μ}
    (hstep : RunnerStep ri r l r') (hstop : r.stop ≠ .registered) : r'.stop ≠ .registered := by
  cases hstep with
  | own hpass => rwa [hpass.stop_eq]
  | stop hun => cases hun <;> exact nofun
  | other _ _ htouched => rwa [htouched.stop_eq]

/-- A message with `n` messages before it is taken out before the runner has made `6 * n + 6` more
steps, in any interleaving, not counting twice what it makes for each lock that fails. It is
processed or dropped, by its age when it is taken out. -/
theorem queued_message_handled (gather : List Char → List ρ) (s s' : State ρ δ μ)
    (ls : List (Label ρ δ μ)) (h : (queues gather).Reachable s)
    (hrun : (queues gather).Run ls s s') (ri : ρ) (hstop : (s'.runners ri).stop = .registered)
    (k : ℕ) (im : IncomingMsg δ μ) (him : (s.runners ri).appended[k]? = some im)
    (hpasses : 6 * (k + 1 - (s.runners ri).handled.length) + 2 * (ls.map (lockFailures ri)).sum ≤
      (ls.map (passes ri)).sum) :
    ∃ processed, (s'.runners ri).handled[k]? = some (im, processed) ∧
      ((s.runners ri).handled[k]? = some (im, processed) ∨
        ∃ tnow, HandledAt gather ls s ri k im tnow ∧ processed = im.isYoung tnow) := by
  have hstep : ∀ l (s s' : State ρ δ μ), (queues gather).step l s s' →
      RunnerStep ri (s.runners ri) l (s'.runners ri) := fun l s s' hl =>
    (step_of_perform hl).runner ri
  have hkept : ∀ l (s s' : State ρ δ μ), (queues gather).step l s s' →
      (s.runners ri).appended[k]? = some im → (s'.runners ri).appended[k]? = some im := by
    intro l s s' hl hs
    obtain ⟨rest, hrest⟩ := (hstep l s s' hl).appended
    rw [← hrest, List.getElem?_append_left (List.getElem?_eq_some_iff.mp hs).1, hs]
  have hstays : ∀ l (s s' : State ρ δ μ),
      k < (s.runners ri).handled.length ∨ (s.runners ri).stop ≠ .registered →
      (queues gather).step l s s' →
      k < (s'.runners ri).handled.length ∨ (s'.runners ri).stop ≠ .registered := by
    intro l s s' hG hl
    rcases hG with hG | hG
    · exact .inl (Nat.lt_of_lt_of_le hG (hstep l s s' hl).handled)
    · exact .inr ((hstep l s s' hl).unregistered hG)
  have hgoal : k < (s'.runners ri).handled.length ∨ (s'.runners ri).stop ≠ .registered := by
    by_cases hdone : k < (s.runners ri).handled.length
    · exact hrun.keeps (fun l s s' hG hl => hstays l s s' hG hl) (.inl hdone)
    refine hrun.reaches
      (I := fun s => (queues gather).Reachable s ∧ (s.runners ri).appended[k]? = some im)
      (G := fun s => k < (s.runners ri).handled.length ∨ (s.runners ri).stop ≠ .registered)
      (m := fun s => 6 * (k - (s.runners ri).handled.length) + (s.runners ri).pc.before)
      (c := passes ri) (g := fun l => 2 * lockFailures ri l) ⟨h, him⟩ ?_ ?_ ?_ ?_
    · intro l s s' hs hl
      exact ⟨hs.1.step hl, hkept l s s' hl hs.2⟩
    · exact fun l s s' _ hG hl => hstays l s s' hG hl
    · intro l s s' hs hl
      by_cases hreg : (s.runners ri).stop = .registered
      · have hguarded := guarded_of_reachable hs.1 hreg
        exact (hstep l s s' hl).nearer (accounted_of_reachable hs.1 ri)
          (List.getElem?_eq_some_iff.mp hs.2).1 hguarded.run hguarded.empty
      · exact .inl (.inr ((hstep l s s' hl).unregistered hreg))
    · have hbefore : (s.runners ri).pc.before ≤ 5 := by
        cases (s.runners ri).pc <;> simp [RunnerPc.before]
      rw [List.sum_map_mul_left]
      omega
  have hk := hgoal.resolve_right (absurd hstop)
  have hqueued : (s'.runners ri).appended[k]? = some im :=
    hrun.keeps (fun l s s' hs hl => hkept l s s' hl hs) him
  have haccounted := accounted_of_reachable (h.run hrun) ri
  rw [haccounted, List.append_assoc, List.getElem?_append_left (by simpa using hk),
    List.getElem?_map, Option.map_eq_some_iff] at hqueued
  obtain ⟨⟨im', processed⟩, hhandled, rfl⟩ := hqueued
  exact ⟨processed, hhandled, handled_in_run hrun hhandled⟩

/-- Two threads queue a message each. A lock of the runner fails, and the second message is too
old when it is taken out. -/
theorem queued_message_handled_second :
    ∃ (s s' : State ℕ ℕ String) (ls : List (Label ℕ ℕ String)),
      (queues fun _ => [0]).Reachable s ∧ (queues fun _ => [0]).Run ls s s' ∧
      ∃ processed, (s'.runners 0).handled[1]? = some (⟨"n", 5, 1⟩, processed) ∧
        ((s.runners 0).handled[1]? = some (⟨"n", 5, 1⟩, processed) ∨
          ∃ tnow, HandledAt (fun _ => [0]) ls s 0 1 ⟨"n", 5, 1⟩ tnow ∧
            processed = decide (tnow < 5 + msgTimeout * 1000)) := by
  have hsent : ∃ s : State ℕ ℕ String,
      ([.call 0 ['/', 'A'] "m", .deliver 0 true 0, .deliver 0 true 0, .deliver 0 true 0,
        .deliver 0 true 0, .call 1 ['/', 'A'] "n", .deliver 1 true 5, .deliver 1 true 5] :
        List (Label ℕ ℕ String)).foldlM (State.perform fun _ => [0]) .initial = some s ∧
      (s.runners 0).appended[1]? = some ⟨"n", 5, 1⟩ ∧ (s.runners 0).handled.length = 0 ∧
      ∃ s', ([.pass 0 true 0, .pass 0 false 0, .deliver 1 true 5, .deliver 1 true 5] ++
          List.replicate 6 (.pass 0 true 6) ++ List.replicate 6 (.pass 0 true 20000) :
          List (Label ℕ ℕ String)).foldlM (State.perform fun _ => [0]) s = some s' ∧
        (s'.runners 0).stop = .registered :=
    ⟨_, rfl, rfl, rfl, _, rfl, rfl⟩
  obtain ⟨s, hs, him, hhandled, s', hs', hstop⟩ := hsent
  have hreach := System.reachable_of_foldlM hs
  have hrun : (queues fun _ => [0]).Run _ s s' := System.run_of_foldlM hs'
  exact ⟨s, s', _, hreach, hrun, queued_message_handled _ s s' _ hreach hrun 0 hstop 1 _ him
    (by rw [hhandled]; decide)⟩

end Handled

/-- The runner has seen the flag set and an empty queue, or will see it, and does not wait yet. -/
def Runner.Unwarned (r : Runner δ μ) : Prop :=
  r.pc = .wait ∨ r.pc = .testQueue ∧ r.queue = []

/-- The flag is cleared and the runner will not wait any more. -/
structure Runner.Leaving (r : Runner δ μ) : Prop where
  run : r.run = false
  stop : r.stop ≠ .registered ∧ r.stop ≠ .broadcast
  waiting : r.pc ≠ .waiting
  unwarned : ¬r.Unwarned

/-- How many steps a runner that leaves makes before the one that leaves runner_loop. -/
def RunnerPc.beforeLeaving {α : Type} : RunnerPc α → ℕ
  | .testQueue => 3
  | .lock | .woken | .unlock _ => 2
  | .testRun | .handle _ => 1
  | _ => 0

section Leaving

variable [DecidableEq ρ] [DecidableEq δ] {ri : ρ} {l : Label ρ δ μ} {r r' : Runner δ μ}

omit [DecidableEq ρ] [DecidableEq δ] in
theorem Runner.Leaving.wake_eq (h : r.Leaving) : r.wake = r := by
  rcases r.wake_cases with ⟨hpc, -⟩ | ⟨-, hwake⟩
  · exact absurd hpc h.waiting
  · exact hwake

omit [DecidableEq ρ] [DecidableEq δ] in
theorem RunnerStep.leaving (hstep : RunnerStep ri r l r') (h : r.Leaving) : r'.Leaving := by
  cases hstep with
  | own hpass =>
    obtain ⟨hrun, hstop, hwaiting, hunwarned⟩ := h
    cases hpass with
    | enter hpc hon => simp [hrun] at hon
    | proceed hpc hon => simp [hrun] at hon
    | empty hpc hqueue => exact absurd (.inr ⟨hpc, hqueue⟩) hunwarned
    | wait hpc => exact absurd (.inl hpc) hunwarned
    | _ => constructor <;> simp_all [Runner.Unwarned]
  | stop hun =>
    cases hun with
    | clear hstop => exact absurd hstop h.stop.1
    | broadcast hstop => exact absurd hstop h.stop.2
    | unlock hstop => exact ⟨h.run, ⟨nofun, nofun⟩, h.waiting, h.unwarned⟩
    | join hstop hpc => exact ⟨h.run, ⟨nofun, nofun⟩, h.waiting, h.unwarned⟩
  | other _ _ htouched =>
    cases htouched with
    | same => exact h
    | owner o => exact ⟨h.run, h.stop, h.waiting, h.unwarned⟩
    | append im =>
      refine ⟨h.run, h.stop, h.waiting, ?_⟩
      rintro (hpc | ⟨hpc, hqueue⟩)
      · exact h.unwarned (.inl hpc)
      · simp [Runner.append] at hqueue
    | wake =>
      rw [h.wake_eq]
      exact h

omit [DecidableEq δ] in
theorem RunnerStep.leaves (hstep : RunnerStep ri r l r') (h : r.Leaving) :
    r'.pc = .returned ∨ r'.pc.beforeLeaving + passes ri l ≤ r.pc.beforeLeaving + 0 := by
  cases hstep with
  | @own lockWorks tnow r' hpass =>
    have hone : passes ri (.pass ri lockWorks tnow : Label ρ δ μ) = 1 := if_pos rfl
    rw [hone]
    obtain ⟨hrun, hstop, hwaiting, hunwarned⟩ := h
    cases hpass with
    | enter hpc hon => simp [hrun] at hon
    | proceed hpc hon => simp [hrun] at hon
    | empty hpc hqueue => exact absurd (.inr ⟨hpc, hqueue⟩) hunwarned
    | wait hpc => exact absurd (.inl hpc) hunwarned
    | leave hpc _ => exact .inl rfl
    | acquire hpc howner => rcases hpc with hpc | hpc <;> simp [hpc, RunnerPc.beforeLeaving]
    | _ => simp_all [RunnerPc.beforeLeaving]
  | stop hun =>
    refine .inr ?_
    cases hun with
    | broadcast hstop => exact absurd hstop h.stop.2
    | _ => exact Nat.le_refl _
  | other hpass _ htouched =>
    refine .inr ?_
    rw [passes_eq_zero hpass]
    cases htouched with
    | wake => rw [h.wake_eq]
    | _ => exact Nat.le_refl _

omit [DecidableEq ρ] [DecidableEq δ] in
theorem RunnerStep.returned (hstep : RunnerStep ri r l r') (h : r.pc = .returned) :
    r'.pc = .returned := by
  cases hstep with
  | own hpass => cases hpass <;> simp_all
  | stop hun =>
    cases hun with
    | broadcast hstop =>
      rcases r.wake_cases with ⟨hpc, -⟩ | ⟨-, hwake⟩
      · simp [h] at hpc
      · simpa [hwake] using h
    | _ => exact h
  | other _ _ htouched =>
    cases htouched with
    | wake =>
      rcases r.wake_cases with ⟨hpc, -⟩ | ⟨-, hwake⟩
      · simp [h] at hpc
      · rwa [hwake]
    | _ => exact h

omit [DecidableEq ρ] [DecidableEq δ] in
/-- The flag stays cleared. -/
theorem RunnerStep.cleared (hstep : RunnerStep ri r l r')
    (h : r.stop ≠ .registered → r.run = false) : r'.stop ≠ .registered → r'.run = false := by
  cases hstep with
  | own hpass => cases hpass <;> exact h
  | stop hun =>
    cases hun with
    | clear hstop => exact fun _ => rfl
    | broadcast hstop =>
      intro _
      have hrun := h (by rw [hstop]; exact nofun)
      rcases r.wake_cases with ⟨-, hwake⟩ | ⟨-, hwake⟩ <;> simp [hwake, hrun]
    | unlock hstop => exact fun _ => h (by rw [hstop]; exact nofun)
    | join hstop hpc => exact fun _ => h (by rw [hstop]; exact nofun)
  | other _ _ htouched =>
    cases htouched with
    | wake => rcases r.wake_cases with ⟨-, hwake⟩ | ⟨-, hwake⟩ <;> simpa [hwake] using h
    | _ => exact h

theorem cleared_of_reachable {gather : List Char → List ρ} {s : State ρ δ μ}
    (h : (queues gather).Reachable s) (ri : ρ) :
    (s.runners ri).stop ≠ .registered → (s.runners ri).run = false := by
  refine h.invariant (I := fun s => (s.runners ri).stop ≠ .registered → (s.runners ri).run = false)
    ?_ fun l s s' hs hl => ((step_of_perform hl).runner ri).cleared hs
  rintro s rfl hstop
  exact absurd rfl hstop

/-- The broadcast of ua_unregister reaches the runner, which then leaves its loop after four more
steps at most, exactly if it does not come between the test of the flag and the wait. -/
theorem unregistered_runner_returns_iff (gather : List Char → List ρ) (s s₁ : State ρ δ μ)
    (h : (queues gather).Reachable s) (ri : ρ) (hstop : (s.runners ri).stop = .broadcast)
    (h₁ : s.perform gather (.unregister ri) = some s₁) :
    (∀ ls s', (queues gather).Run ls s₁ s' → (s'.runners ri).pc ≠ .waiting ∧
      (4 ≤ (ls.map (passes ri)).sum → (s'.runners ri).pc = .returned)) ↔
    ¬(s.runners ri).Unwarned := by
  have hr₁ : s₁.runners ri = { (s.runners ri).wake with stop := .unlock } := by
    simp only [State.perform, Runner.unregister, hstop, Option.map_some, Option.some.injEq] at h₁
    rw [← h₁]
    exact Function.update_self ..
  have hstep : ∀ l (s s' : State ρ δ μ), (queues gather).step l s s' →
      RunnerStep ri (s.runners ri) l (s'.runners ri) := fun l s s' hl =>
    (step_of_perform hl).runner ri
  constructor
  · intro hall hunwarned
    have hawake : (s.runners ri).wake = s.runners ri := by
      rcases (s.runners ri).wake_cases with ⟨hpc, -⟩ | ⟨-, hwake⟩
      · rcases hunwarned with hw | ⟨hw, -⟩ <;> simp [hw] at hpc
      · exact hwake
    have hwaits : ∀ s' : State ρ δ μ, (s'.runners ri).pc = .wait →
        ∃ s'', (queues gather).Run [.pass ri true 0] s' s'' ∧ (s''.runners ri).pc = .waiting := by
      intro s' hpc
      let s'' := s'.setRunner ri { s'.runners ri with owner := none, pc := .waiting }
      have hwait : (queues gather).step (.pass ri true 0) s' s'' := by
        simp [queues, System.ofOption, State.perform, Runner.pass, hpc, s'']
      exact ⟨s'', .cons hwait (.nil _), by simp [State.setRunner, s'']⟩
    rcases hunwarned with hpc | ⟨hpc, hqueue⟩
    · obtain ⟨s', hrun, hs'⟩ := hwaits s₁ (by rw [hr₁, hawake]; exact hpc)
      exact (hall _ s' hrun).1 hs'
    · let s₂ : State ρ δ μ := s₁.setRunner ri { s₁.runners ri with pc := .wait }
      have hfirst : (queues gather).step (.pass ri true 0) s₁ s₂ := by
        simp [queues, System.ofOption, State.perform, Runner.pass, hr₁, hawake, hpc, hqueue, s₂]
      obtain ⟨s', hrun, hs'⟩ := hwaits s₂ (by simp [s₂, State.setRunner])
      exact (hall _ s' (.cons hfirst hrun)).1 hs'
  · intro hunwarned ls s' hrun
    have hleaving : (s₁.runners ri).Leaving := by
      have hoff := cleared_of_reachable h ri (by simp [hstop])
      rw [hr₁]
      rcases (s.runners ri).wake_cases with ⟨hpc, hwake⟩ | ⟨hpc, hwake⟩
      · rw [hwake]
        exact ⟨hoff, by simp, by simp, by simp [Runner.Unwarned]⟩
      · rw [hwake]
        exact ⟨hoff, by simp, hpc, hunwarned⟩
    have hkeeps : ∀ l (s s' : State ρ δ μ), (s.runners ri).Leaving →
        (queues gather).step l s s' → (s'.runners ri).Leaving :=
      fun l s s' hs hl => (hstep l s s' hl).leaving hs
    refine ⟨(hrun.keeps hkeeps hleaving).waiting, fun hlong => ?_⟩
    refine hrun.reaches (I := fun s => (s.runners ri).Leaving)
      (G := fun s => (s.runners ri).pc = .returned)
      (m := fun s => (s.runners ri).pc.beforeLeaving) (c := passes ri) (g := fun _ => 0) hleaving
      hkeeps (fun l s s' _ hG hl => (hstep l s s' hl).returned hG)
      (fun l s s' hs hl => (hstep l s s' hl).leaves hs) ?_
    have hbefore : (s₁.runners ri).pc.beforeLeaving ≤ 3 := by
      cases (s₁.runners ri).pc <;> simp [RunnerPc.beforeLeaving]
    have hnone : (ls.map fun _ : Label ρ δ μ => 0).sum = 0 := List.sum_eq_zero (by simp)
    omega

/-- A runner that waits for messages returns after its ua_unregister. -/
theorem unregistered_runner_returns_while_waiting :
    ∃ s₁ : State ℕ ℕ String, (queues fun _ => [0]).Reachable s₁ ∧
      ∀ ls s', (queues fun _ => [0]).Run ls s₁ s' → (s'.runners 0).pc ≠ .waiting ∧
        (4 ≤ (ls.map (passes 0)).sum → (s'.runners 0).pc = .returned) := by
  have hplayed : ∃ s : State ℕ ℕ String,
      (List.replicate 5 (.pass 0 true 0) ++ [.unregister 0] : List (Label ℕ ℕ String)).foldlM
        (State.perform fun _ => [0]) .initial = some s ∧
      (s.runners 0).stop = .broadcast ∧ (s.runners 0).pc = .waiting ∧
      ∃ s₁, s.perform (fun _ => [0]) (.unregister 0) = some s₁ := ⟨_, rfl, rfl, rfl, _, rfl⟩
  obtain ⟨s, hs, hstop, hpc, s₁, hs₁⟩ := hplayed
  have hreach := System.reachable_of_foldlM hs
  refine ⟨s₁, hreach.step hs₁, ?_⟩
  rw [unregistered_runner_returns_iff _ s s₁ hreach 0 hstop hs₁]
  rintro (h | ⟨h, -⟩) <;> simp [hpc] at h

end Leaving

end EsyncUa.RunnerQueues
