import EsyncUa.Sequence

/-!
Messages that are dropped after their sequence number was entered. A message whose worker
is busy, or that comes before the DM client is there, is dropped; its number has been
entered by then. Until the agent is started again the same message is refused whenever it
is delivered, and nothing of it is ever executed.
-/
namespace EsyncUa.Redelivery

open EsyncUa.JsonProperties EsyncUa.Components EsyncUa.Programs EsyncUa.Operations
open EsyncUa.Installation EsyncUa.Messages EsyncUa.Machines EsyncUa.Outlines EsyncUa.Schedules
open EsyncUa.Agents EsyncUa.Footprints EsyncUa.Frames EsyncUa.Rehearsals EsyncUa.Sequence
open Relation

/-- The event is a check that the number of this package has passed. -/
def accepts (u : UaccPtr) (name : String) (num : Int32) : Event → Bool
  | .did _ (.chkIncomingSeq u' name' num') false => u' = u ∧ name' = name ∧ num' = num
  | _ => false

/-- The message of the component that is dropped by the event. -/
def dropped (u : UaccPtr) : Event → Option Json
  | .did _ (.mark (.workerBusy u' jObj)) _ => if u' = u then some jObj else none
  | .did _ (.mark (.readyUpdateDropped u' jObj)) _ => if u' = u then some jObj else none
  | _ => none

/-- Whether the runner has done more with its latest message than to check and to free it. -/
def executed (u : UaccPtr) : List Event → Bool
  | [] => false
  | .received u' _ :: h => if u' = u then false else executed u h
  | .did _ (.chkIncomingSeq _ _ _) _ :: h => executed u h
  | .did _ (.ext (.freeMsg _)) _ :: h => executed u h
  | .did (.runner u') _ _ :: h => u' = u || executed u h
  | _ :: h => executed u h

def isRebooted : Event → Bool
  | .rebooted => true
  | _ => false

/-- A run from one configuration to another in which `more` happened and no reboot. -/
structure Later (cfg : AgentConfig) (more : List Event) (c c' : AgentConfiguration) : Prop where
  run : ReflTransGen (agent cfg).Step c c'
  trace : c'.st.trace = more ++ c.st.trace
  sameBoot : more.any isRebooted = false

/-- In `c₀` the message is about to be checked, the next step accepts its number, and in `c`
the message has just been dropped. -/
structure AcceptedAndDropped (cfg : AgentConfig) (u : UaccPtr) (jObj : Json)
    (c₀ c : AgentConfiguration) : Prop where
  reachable : (agent cfg).Reachable c₀
  message : latest u c₀.st.trace = some (some jObj)
  accepted : ∃ name num e c₁ more, sequenced jObj = some (name, num) ∧
    (agent cfg).Step c₀ c₁ ∧ c₁.st.trace = e :: c₀.st.trace ∧ accepts u name num e = true ∧
    Later cfg more c₁ c
  dropped : (c.st.trace.head?.bind (dropped u)) = some jObj

/-- The message has had no effect: the numbers entered are those from before, and whenever it
is delivered again while no worker is there, it is executed. -/
structure NoEffect (cfg : AgentConfig) (u : UaccPtr) (jObj : Json)
    (c₀ c : AgentConfiguration) : Prop where
  unchanged : (c.st.shared.comp u).seqIn = (c₀.st.shared.comp u).seqIn
  redelivered : ∀ m₁ c₁ m₂ c₂, Later cfg m₁ c c₁ →
    (c₁.st.shared.comp u).worker.workerRunning = false → c₁.st.shared.intl.dmcHandlerDone = true →
    Later cfg (m₂ ++ [.received u (some jObj)]) c₁ c₂ → latest u m₂ = none →
    c₂.Idle (.runner u) → executed u c₂.st.trace = true

/-- The message is lost: whenever it is delivered again, nothing of it is executed. -/
def Lost (cfg : AgentConfig) (u : UaccPtr) (jObj : Json) (c : AgentConfiguration) : Prop :=
  ∀ more c', Later cfg more c c' → latest u more = some (some jObj) →
    executed u c'.st.trace = false

/-! Numbers that have been entered stay entered. -/

theorem mem_numbersOf_cons {u : UaccPtr} {name : String} {e : Event} {h : List Event} {m : Int32}
    (he : isRebooted e = false) (hm : m ∈ numbersOf u name h) : m ∈ numbersOf u name (e :: h) := by
  cases e with
  | did t o b =>
      cases o with
      | chkIncomingSeq u' name' num =>
          cases b with
          | true => exact hm
          | false =>
              simp only [numbersOf]
              split
              · exact List.mem_cons_of_mem _ hm
              · exact hm
      | setCompContext u' cc =>
          simp only [numbersOf]
          split
          · split
            · exact List.mem_cons_of_mem _ hm
            · exact hm
          · exact hm
      | _ => exact hm
  | rebooted => simp [isRebooted] at he
  | received | presence => exact hm

theorem mem_numbersOf_append {u : UaccPtr} {name : String} {more h : List Event} {m : Int32}
    (hboot : more.any isRebooted = false) (hm : m ∈ numbersOf u name h) :
    m ∈ numbersOf u name (more ++ h) := by
  induction more with
  | nil => exact hm
  | cons e more ih =>
      simp only [List.any_cons, Bool.or_eq_false_iff] at hboot
      exact mem_numbersOf_cons hboot.1 (ih hboot.2)

theorem mem_numbersOf_accepts {u : UaccPtr} {name : String} {num : Int32} {e : Event}
    (he : accepts u name num e = true) (h : List Event) : num ∈ numbersOf u name (e :: h) := by
  unfold accepts at he
  split at he
  · simp only [decide_eq_true_eq] at he
    obtain ⟨rfl, rfl, rfl⟩ := he
    simp [numbersOf]
  · simp at he

/-- The history before the runner took its latest message. -/
def beforeLatest (u : UaccPtr) : List Event → List Event
  | [] => []
  | .received u' _ :: h => if u' = u then h else beforeLatest u h
  | _ :: h => beforeLatest u h

theorem mem_numbersOf_beforeLatest {u : UaccPtr} {name : String} {h : List Event} {m : Int32}
    {msg : Option Json} (hlatest : latest u h = some msg)
    (hm : m ∈ numbersOf u name (beforeLatest u h)) : m ∈ numbersOf u name h := by
  induction h with
  | nil => exact hm
  | cons e h ih =>
      cases e with
      | received u' msg' =>
          by_cases hu : u' = u
          · simp only [beforeLatest, hu, if_true] at hm
            exact hm
          · simp only [latest, beforeLatest, hu, if_false] at hlatest hm
            exact ih hlatest hm
      | rebooted => simp [latest] at hlatest
      | did t o b => exact mem_numbersOf_cons rfl (ih hlatest hm)
      | presence => exact ih hlatest hm

theorem latest_append {u : UaccPtr} {more h : List Event} {msg : Option Json}
    (hlatest : latest u more = some msg) : latest u (more ++ h) = some msg := by
  induction more with
  | nil => simp [latest] at hlatest
  | cons e more ih =>
      cases e with
      | received u' msg' =>
          by_cases hu : u' = u
          · simpa only [List.cons_append, latest, hu, if_true] using hlatest
          · simp only [List.cons_append, latest, hu, if_false] at hlatest ⊢
            exact ih hlatest
      | rebooted => simp [latest] at hlatest
      | did | presence => exact ih hlatest

/-- What was entered before a message is delivered was entered before its check. -/
theorem mem_beforeLatest_append {u : UaccPtr} {name : String} {more h : List Event} {m : Int32}
    {msg : Option Json} (hlatest : latest u more = some msg)
    (hboot : more.any isRebooted = false) (hm : m ∈ numbersOf u name h) :
    m ∈ numbersOf u name (beforeLatest u (more ++ h)) := by
  induction more with
  | nil => simp [latest] at hlatest
  | cons e more ih =>
      simp only [List.any_cons, Bool.or_eq_false_iff] at hboot
      cases e with
      | received u' msg' =>
          by_cases hu : u' = u
          · simpa only [List.cons_append, beforeLatest, hu, if_true] using
              mem_numbersOf_append hboot.2 hm
          · simp only [List.cons_append, latest, beforeLatest, hu, if_false] at hlatest ⊢
            exact ih hlatest hboot.2
      | rebooted => simp [isRebooted] at hboot
      | did | presence => exact ih hlatest hboot.2

/-! A message whose number was entered before it was delivered is refused. -/

/-- A message with a number that was outdated when it came has not been executed. -/
def Refusing (w : World) : Prop :=
  ∀ u jObj name num, latest u w.trace = some (some jObj) → sequenced jObj = some (name, num) →
    (∃ m ∈ numbersOf u name (beforeLatest u w.trace), num ≤ m) →
    executed u w.trace = false ∧ verdict u w.trace ≠ some false

variable {cfg : AgentConfig} {C : Tid → Event → World → Prop} {t : Tid} {o : Op} {b : o.Ans}
variable {w w' : World}

theorem executed_did {u : UaccPtr} {h : List Event}
    (hne : t ≠ .runner u ∨ Op.kind o = .seqIn ∨ o = .ext (.freeMsg u)) :
    executed u (.did t o b :: h) = executed u h := by
  by_cases hkind : Op.kind o = .seqIn
  · obtain ⟨u', name, num, rfl⟩ := eq_of_kind_seqIn hkind
    rfl
  by_cases hfree : o = .ext (.freeMsg u)
  · subst hfree
    rfl
  have ht : t ≠ .runner u := by simpa [hkind, hfree] using hne
  cases t with
  | runner u' =>
      have hu : u' ≠ u := fun h => ht (by rw [h])
      cases o with
      | ext o => cases o <;> simp [executed, hu]
      | _ => simp [executed, hu]
  | _ =>
      cases o with
      | ext o => cases o <;> rfl
      | _ => rfl

theorem refusing_act (hact : (agent cfg).act t o b w w') (hconduct : WhenEvents Conduct t w w')
    (hentered : Entered w) (hw : Refusing w) : Refusing w' := by
  obtain ⟨heffect, htrace⟩ := hact
  obtain ⟨-, -, hfollows, -⟩ := hconduct _ htrace
  intro u jObj name num hlatest hsequenced hold
  rw [htrace, latest_did] at hlatest
  rw [htrace] at hold ⊢
  obtain ⟨hexecuted, hverdict⟩ := hw u jObj name num hlatest hsequenced hold
  by_cases ht : t = .runner u
  · have hnext := hfollows u ht
    unfold Follows at hnext
    split at hnext
    · rename_i hrefused
      subst hnext
      rw [executed_did (.inr (.inr rfl)), verdict_did u _ (.inr (by simp [Op.kind, ExtOp.kind]))]
      exact ⟨hexecuted, hverdict⟩
    · rename_i haccepted
      exact absurd haccepted hverdict
    · obtain rfl := hnext jObj name num hlatest hsequenced
      rw [executed_did (.inr (.inl rfl))]
      refine ⟨hexecuted, ?_⟩
      -- the check is answered by the numbers entered, and one of them is not smaller
      have houtdated : b = true := by
        simp only [effect] at heffect
        split at heffect
        · rename_i hb
          obtain ⟨m, hm, hle⟩ := hold
          rw [hb]
          exact (outdated_iff (hentered u name) num).mpr
            ⟨m, mem_numbersOf_beforeLatest hlatest hm, hle⟩
        · simp at heffect
      simp [ht, verdict, houtdated]
  · rw [executed_did (.inl ht), verdict_did u _ (.inl ht)]
    exact ⟨hexecuted, hverdict⟩

theorem refusing_of_reachable {c : AgentConfiguration} (h : (runsWhere cfg C).Reachable c) :
    Refusing c.st := by
  have hboth : Entered c.st ∧ Refusing c.st := by
    refine (outline_sound.strengthen h).invariant (I := fun w => Entered w ∧ Refusing w) ?_ ?_ ?_ ?_
    · intro w hinit
      have hentered := entered_of_reachable (.init w hinit : (runsWhere cfg C).Reachable _)
      refine ⟨hentered, fun u jObj name num hlatest => ?_⟩
      simp [hinit.1, latest] at hlatest
    · intro t o b w w' hw hact
      obtain ⟨⟨hact, -⟩, -, -, hconduct⟩ := hact
      exact ⟨entered_act hact hconduct hw.1, refusing_act hact hconduct hw.1 hw.2⟩
    · intro t p w w' hw harrive
      obtain ⟨⟨⟨e, harrive, rfl⟩, -⟩, -⟩ := harrive
      refine ⟨fun u name => ?_, ?_⟩
      · cases harrive <;> exact hw.1 u name
      · intro u jObj name num hlatest hsequenced hold
        cases harrive with
        | message u' msg hreg =>
            by_cases hu : u' = u
            · simp [executed, verdict, hu]
            · simp only [latest, beforeLatest, executed, verdict, hu, if_false] at hlatest hold ⊢
              exact hw.2 u jObj name num hlatest hsequenced hold
        | presence => exact hw.2 u jObj name num hlatest hsequenced hold
    · intro w w' hw hrestart
      obtain ⟨htrace, ctrl, hshared⟩ := hrestart
      refine ⟨fun u name => ?_, fun u jObj name num hlatest => ?_⟩
      · rw [hshared, htrace]
        rfl
      · simp [htrace, latest] at hlatest
  exact hboth.2

/-! The effect of a dropped message. -/

/-- A number that is accepted is larger than every number entered before. -/
theorem lt_of_accepts {c₀ c₁ : AgentConfiguration} {u : UaccPtr} {name : String} {num : Int32}
    {e : Event} (hstep : (agent cfg).Step c₀ c₁) (htrace : c₁.st.trace = e :: c₀.st.trace)
    (haccepts : accepts u name num e = true) (hentered : Entered c₀.st) :
    ∀ m ∈ numbersOf u name c₀.st.trace, m < num := by
  have hact : ∀ {t : Tid} {o : Op} {b : o.Ans} {w : World}, (agent cfg).act t o b c₀.st w →
      w.trace = e :: c₀.st.trace → ∀ m ∈ numbersOf u name c₀.st.trace, m < num := by
    intro t o b w hact heq m hm
    obtain ⟨heffect, hdid⟩ := hact
    obtain ⟨he, -⟩ := List.cons.inj (hdid.symm.trans heq)
    subst he
    unfold accepts at haccepts
    split at haccepts
    · simp only [decide_eq_true_eq] at haccepts
      obtain ⟨rfl, rfl, rfl⟩ := haccepts
      rename_i t' u' name' num' hevent
      obtain ⟨-, ho, hb⟩ := Event.did.inj hevent
      subst ho
      obtain rfl := eq_of_heq hb
      simp only [effect] at heffect
      split at heffect
      · rename_i hout
        by_contra hle
        have houtdated := (outdated_iff (hentered _ _) _).mpr ⟨m, hm, by simpa using hle⟩
        exact Bool.false_ne_true (hout.trans houtdated)
      · simp at heffect
    · simp at haccepts
  cases hstep with
  | get t k hpool => simp at htrace
  | call t o k b w hpool hcall hfork => exact hact hcall htrace
  | fork t o k b w t' p hpool hcall hfork hne hidle => exact hact hcall htrace
  | arrive t p w hidle harrive =>
      obtain ⟨e', harrive, rfl⟩ := harrive
      obtain ⟨rfl, -⟩ := List.cons.inj htrace
      cases harrive <;> simp [accepts] at haccepts
  | restart w hrestart =>
      obtain ⟨rfl, -⟩ := List.cons.inj (hrestart.1.symm.trans htrace)
      simp [accepts] at haccepts

/-- A dropped message has changed the numbers of its component, and until the next start of the
agent it is never executed again. -/
theorem dropped_message_never_executed (cfg : AgentConfig) (u : UaccPtr) (jObj : Json)
    (c₀ c : AgentConfiguration) (h : AcceptedAndDropped cfg u jObj c₀ c) :
    ¬NoEffect cfg u jObj c₀ c ∧ Lost cfg u jObj c := by
  obtain ⟨name, num, e, c₁, more, hsequenced, hstep, htrace, haccepts, hlater⟩ := h.accepted
  have hreach : (agent cfg).Reachable c :=
    (h.reachable.step _ _ hstep).run hlater.run
  have hentered₀ := entered_of_reachable
    (h.reachable.restrict (C := WhenEvents Anything) fun _ _ _ _ _ => trivial)
  have hentered := entered_of_reachable
    (hreach.restrict (C := WhenEvents Anything) fun _ _ _ _ _ => trivial)
  have hnum : num ∈ numbersOf u name c.st.trace := by
    rw [hlater.trace, htrace]
    exact mem_numbersOf_append hlater.sameBoot (mem_numbersOf_accepts haccepts _)
  have hgreater := lt_of_accepts hstep htrace haccepts hentered₀
  constructor
  · intro hnone
    have hold := hentered₀ u name
    have hnew := hentered u name
    rw [hnone.unchanged] at hnew
    unfold IsEntry at hold hnew
    cases hentry : (c₀.st.shared.comp u).seqIn name with
    | none =>
        simp only [hentry] at hnew
        simp [hnew] at hnum
    | some s =>
        simp only [hentry] at hold hnew
        have hlt : s < num := hgreater s hold.1
        exact Int32.not_lt.mpr (hnew.2 num hnum) hlt
  · intro again c' hagain hlatest
    have hreach' := hreach.run hagain.run
    have hrefusing := refusing_of_reachable
      (hreach'.restrict (C := WhenEvents Anything) fun _ _ _ _ _ => trivial)
    refine (hrefusing u jObj name num ?_ hsequenced ⟨num, ?_, Int32.le_refl num⟩).1
    · rw [hagain.trace]
      exact latest_append hlatest
    · rw [hagain.trace]
      exact mem_beforeLatest_append hlatest hagain.sameBoot hnum

/-! A ready-update that comes while a prepare-update is being worked on. -/

theorem step_trace {c c' : AgentConfiguration} (h : (agent cfg).Step c c') :
    ∃ more, c'.st.trace = more ++ c.st.trace := by
  cases h with
  | get t k hpool => exact ⟨[], rfl⟩
  | call t o k b w hpool hact hfork => exact ⟨[_], hact.2⟩
  | fork t o k b w t' p hpool hact hfork hne hidle => exact ⟨[_], hact.2⟩
  | arrive t p w hidle harrive =>
      obtain ⟨e, -, rfl⟩ := harrive
      exact ⟨[e], rfl⟩
  | restart w hrestart => exact ⟨[_], hrestart.1⟩

theorem later_of_run {c c' : AgentConfiguration} (h : ReflTransGen (agent cfg).Step c c')
    (hboot : c'.st.trace.any isRebooted = false) : ∃ more, Later cfg more c c' := by
  have htrace : ∃ more, c'.st.trace = more ++ c.st.trace := by
    clear hboot
    induction h with
    | refl => exact ⟨[], rfl⟩
    | tail _ hstep ih =>
        obtain ⟨more, hmore⟩ := ih
        obtain ⟨new, hnew⟩ := step_trace hstep
        exact ⟨new ++ more, by rw [hnew, hmore, List.append_assoc]⟩
  obtain ⟨more, hmore⟩ := htrace
  refine ⟨more, h, hmore, ?_⟩
  rw [hmore, List.any_append, Bool.or_eq_false_iff] at hboot
  exact hboot.1

def readySix : Json :=
  packageMessage bmtReadyUpdate [("sequence", .int 6)] "pkg" "2" []

def busyPlayer : Player (runsWhere (sampleConfig false 1) Anything) :=
  player (sampleConfig false 1) Anything (usualOracle "1")

/-- A worker has been started for a prepare-update when the ready-update is taken. -/
def beforeCheck : AgentConfiguration :=
  rehearse (sampleConfig false 1) Anything (usualOracle "1")
    [message (sampleConfig false 1) Anything 0 Nat.one_pos
      (packageMessage bmtPrepareUpdate [("sequence", .int 5)] "pkg" "2" []),
      .steps (.runner 0) 40,
      message (sampleConfig false 1) Anything 0 Nat.one_pos readySix]

def afterCheck : AgentConfiguration := busyPlayer.advance (.runner 0) 1 beforeCheck

def afterDrop : AgentConfiguration := busyPlayer.advance (.runner 0) 4 afterCheck

theorem readySix_dropped :
    AcceptedAndDropped (sampleConfig false 1) 0 readySix beforeCheck afterDrop := by
  have hstep : (agent (sampleConfig false 1)).Step beforeCheck afterCheck :=
    (busyPlayer.advance_step (by decide +kernel)).of_restrict
  have hrun : ReflTransGen (agent (sampleConfig false 1)).Step afterCheck afterDrop :=
    (busyPlayer.advance_run (.runner 0) 4 afterCheck).lift id fun _ _ h => h.of_restrict
  obtain ⟨more, hlater⟩ := later_of_run hrun (by decide +kernel)
  obtain ⟨new, hnew⟩ := step_trace hstep
  have hlength : afterCheck.st.trace.length = beforeCheck.st.trace.length + 1 := by
    decide +kernel
  have haccepts : (afterCheck.st.trace.head?.map (accepts 0 "pkg" 6)) = some true := by
    decide +kernel
  match new, hnew with
  | [e], hnew =>
      refine ⟨agent_reachable _ _ _, by decide +kernel, ⟨"pkg", 6, e, afterCheck, more,
        by decide +kernel, hstep, hnew, ?_, hlater⟩, by decide +kernel⟩
      simpa only [hnew, List.singleton_append, List.head?_cons, Option.map_some,
        Option.some.injEq] using haccepts
  | [], hnew => simp [hnew] at hlength
  | _ :: _ :: _, hnew =>
      simp only [hnew, List.length_append, List.length_cons] at hlength
      omega

theorem dropped_message_never_executed_example :
    Lost (sampleConfig false 1) 0 readySix afterDrop :=
  (dropped_message_never_executed _ _ _ _ _ readySix_dropped).2

/-- The number 6 has been entered by the message that was dropped. -/
theorem dropped_message_has_effect :
    ∃ c₀ c, AcceptedAndDropped (sampleConfig false 1) 0 readySix c₀ c ∧
      ¬NoEffect (sampleConfig false 1) 0 readySix c₀ c := by
  refine ⟨beforeCheck, afterDrop, readySix_dropped, fun h => ?_⟩
  have hentry := congrFun h.unchanged "pkg"
  have hbefore : (beforeCheck.st.shared.comp 0).seqIn "pkg" = some 5 := by decide +kernel
  have hafter : (afterDrop.st.shared.comp 0).seqIn "pkg" = some 6 := by decide +kernel
  rw [hbefore, hafter] at hentry
  exact absurd hentry (by decide)

end EsyncUa.Redelivery
