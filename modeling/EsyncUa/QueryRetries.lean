import EsyncUa.Queries

/-!
The loop that asks for the sequence numbers until an answer has been accepted. Each
BUS_CONN_DMC_CONNECTED event starts one. A pass of the loop sends its query only if no
reply id is recorded, and the loop does nothing once an answer has been accepted, which may
have been before the event. Where neither happens, every pass sends a query, and every event
is followed by one.
-/
namespace EsyncUa.QueryRetries

open EsyncUa.JsonProperties EsyncUa.Components EsyncUa.Programs EsyncUa.Operations
open EsyncUa.Installation EsyncUa.Messages EsyncUa.Machines EsyncUa.Outlines EsyncUa.Agents
open EsyncUa.Footprints EsyncUa.Frames EsyncUa.Rules EsyncUa.Schedules EsyncUa.Rehearsals

/-- A query for sequence numbers is put on the bus. -/
def asks : Event → Bool
  | .did _ (.ext (.uaSendMessage m)) _ =>
      decide (getTypeFromJson m.toJson = (eUaOk, some bmtQuerySequence))
  | _ => false

/-- A sequence-info answer is accepted. -/
def takesOver : Event → Bool
  | .did _ (.assignIntl (.seqInfoValid valid)) _ => valid
  | _ => false

/-- An answer has been accepted since the agent was started. -/
def accepted : List Event → Bool
  | [] => false
  | .rebooted :: _ => false
  | e :: h => takesOver e || accepted h

/-- An answer has been accepted since the latest BUS_CONN_DMC_CONNECTED event. -/
def acceptedSince : List Event → Bool
  | [] => false
  | .rebooted :: _ => false
  | .presence true :: _ => false
  | e :: h => takesOver e || acceptedSince h

/-- There has been a BUS_CONN_DMC_CONNECTED event since the agent was started. -/
def connectedOnce : List Event → Bool
  | [] => false
  | .rebooted :: _ => false
  | .presence true :: _ => true
  | _ :: h => connectedOnce h

/-- The latest BUS_CONN_DMC_CONNECTED event, and with it each one before, has been followed by
a query for sequence numbers. -/
def followed : List Event → Bool
  | [] => true
  | .rebooted :: _ => true
  | .presence true :: _ => false
  | e :: h => asks e || followed h

/-- The thread that runs the loop for the latest BUS_CONN_DMC_CONNECTED event. -/
def retryThread : List Event → Option Nat
  | [] => none
  | .rebooted :: _ => none
  | .presence true :: _ => none
  | .did .bus .createSequence (some (n, _)) :: _ => some n
  | _ :: h => retryThread h

/-- The thread has put a query for sequence numbers on the bus in its latest pass. -/
def sentInPass (n : Nat) : List Event → Bool
  | [] => false
  | .did t (.mark .sequencePass) _ :: h => if t = .sequence n then false else sentInPass n h
  | .did t o b :: h => (decide (t = .sequence n) && asks (.did t o b)) || sentInPass n h
  | _ :: h => sentInPass n h

/-- A thread other than `t` is in `send_sequence_query`. -/
def OtherAsks (t : Tid) (lock : Option Tid) : Prop :=
  match lock with
  | some (.sequence n) => t ≠ .sequence n
  | _ => False

instance (t : Tid) (lock : Option Tid) : Decidable (OtherAsks t lock) := by
  unfold OtherAsks
  split <;> infer_instance

/-- An answer is accepted only after the event has been followed by a query, and no other
thread records a reply id while a pass sends its query. -/
def AssignsInTime (t : Tid) (x : AssignIntl) (w : World) : Prop :=
  match x with
  | .seqInfoValid valid => valid = true → followed w.trace = true
  | .queryReplyId replyId => replyId ≠ none → ¬OtherAsks t w.shared.intl.lock
  | _ => True

instance (t : Tid) (x : AssignIntl) (w : World) : Decidable (AssignsInTime t x w) := by
  unfold AssignsInTime
  split <;> infer_instance

/-- No answer has been accepted when the DM client connects; the thread for the event can be
started and gets its reply id; and no reply id is recorded when a pass starts to send. -/
def RetriesSend (t : Tid) (e : Event) (w : World) : Prop :=
  match e with
  | .presence connected => connected = true → accepted w.trace = false
  | .did _ .createSequence thread => Option.isSome thread = true
  | .did _ (.assignIntl x) _ => AssignsInTime t x w
  | .did (.sequence _) (.mutexLock .intl) _ =>
      accepted w.trace = false → w.shared.intl.queryReplyId = none
  | .did (.sequence _) (.ext .randstring) replyId => replyId ≠ none
  | _ => True

instance (t : Tid) (e : Event) (w : World) : Decidable (RetriesSend t e w) := by
  unfold RetriesSend
  split <;> infer_instance

/-- What is recorded of the answers fits to the flag and to the events. -/
structure Timely (w : World) : Prop where
  valid : w.shared.intl.seqInfoValid = true → accepted w.trace = true
  since : accepted w.trace = true → acceptedSince w.trace = true
  followed : accepted w.trace = true → followed w.trace = true

/-- A pass in which no answer has been accepted has sent a query when it unlocks `ua_intl`. -/
def Conduct (_t : Tid) (e : Event) (w : World) : Prop :=
  match e with
  | .did (.sequence n) (.mutexUnlock .intl) _ =>
      accepted w.trace = true ∨ sentInPass n w.trace = true
  | _ => True

/-- What the loop of a thread may rely on. -/
structure Kept (n : Nat) (w w' : World) : Prop where
  accepted : accepted w.trace = true → accepted w'.trace = true
  lock : w.shared.intl.lock = some (.sequence n) → w'.shared.intl.lock = some (.sequence n)
  replyId : w.shared.intl.lock = some (.sequence n) → w.shared.intl.queryReplyId = none →
    w'.shared.intl.queryReplyId = none
  sent : sentInPass n w.trace = true → sentInPass n w'.trace = true
  followed : retryThread w'.trace = some n → retryThread w.trace = some n ∧
    (followed w.trace = true → followed w'.trace = true)

/-- The event for which the thread was started has been followed by a query. -/
def Done (n : Nat) (w : World) : Prop := retryThread w.trace = some n → followed w.trace = true

/-- A loop has been started for the latest event. -/
def HasThread (w : World) : Prop :=
  connectedOnce w.trace = true → (retryThread w.trace).isSome = true

def rely (t : Tid) (w w' : World) : Prop :=
  match t with
  | .sequence n => Kept n w w'
  | .bus => HasThread w → HasThread w'
  | _ => True

def start (cfg : AgentConfig) (t : Tid) (p : UaProg Unit) (w : World) : Prop :=
  match t with
  | .sequence _ => ∃ passes, p = updateSequenceInfo (passes + 1)
  | .bus => ∃ connected, p = handlePresence cfg.nUah connected ∧ (connected = false → HasThread w)
  | _ => True

def post (t : Tid) (w : World) : Prop :=
  match t with
  | .sequence n => Done n w
  | .bus => HasThread w
  | _ => True

variable (cfg : AgentConfig) (C : Tid → Event → World → Prop)

def outline : Outline (runsWhere cfg C) where
  inv := Timely
  rely := rely
  guar := WhenEvents Conduct
  start := start cfg
  post := post

variable {cfg C} {t : Tid} {o : Op} {b : o.Ans} {w w' : World}

theorem timely_did (heffect : effect cfg t w.shared o b = some w'.shared)
    (htrace : w'.trace = .did t o b :: w.trace) (hC : RetriesSend t (.did t o b) w)
    (hw : Timely w) : Timely w' := by
  have haccepted : accepted w'.trace = (takesOver (.did t o b) || accepted w.trace) := by
    rw [htrace]
    rfl
  have hsince : acceptedSince w'.trace = (takesOver (.did t o b) || acceptedSince w.trace) := by
    rw [htrace]
    rfl
  have hfollowed : followed w'.trace = (asks (.did t o b) || followed w.trace) := by
    rw [htrace]
    rfl
  have htaken : takesOver (.did t o b) = true → followed w.trace = true := by
    intro h
    cases o with
    | assignIntl x =>
        cases x with
        | seqInfoValid valid => exact hC h
        | _ => cases h
    | _ => cases h
  refine ⟨?_, ?_, ?_⟩
  · intro hvalid
    rw [haccepted, Bool.or_eq_true]
    have hchange := effect_intl heffect
    generalize w'.shared.intl = intl at hchange hvalid
    cases hchange with
    | assign x =>
        cases x with
        | seqInfoValid valid => exact Or.inl hvalid
        | _ => exact Or.inr (hw.valid hvalid)
    | _ => exact Or.inr (hw.valid hvalid)
  · rw [haccepted, hsince, Bool.or_eq_true, Bool.or_eq_true]
    exact Or.imp_right hw.since
  · rw [haccepted, hfollowed, Bool.or_eq_true, Bool.or_eq_true]
    rintro (h | h)
    · exact Or.inr (htaken h)
    · exact Or.inr (hw.followed h)

theorem retryThread_did (h : List Event) :
    retryThread (.did t o b :: h) = retryThread h ∨ ∃ n passes,
      fork t o b = some (.sequence n, updateSequenceInfo (passes + 1)) ∧
        retryThread (.did t o b :: h) = some n := by
  cases o with
  | createSequence =>
      cases t with
      | bus =>
          cases b with
          | none => exact Or.inl rfl
          | some thread => exact Or.inr ⟨thread.1, thread.2, rfl, rfl⟩
      | _ => exact Or.inl rfl
  | _ => cases t <;> exact Or.inl rfl

theorem sentInPass_did {n : Nat} (h : List Event)
    (hne : t ≠ .sequence n ∨ o ≠ .mark .sequencePass) :
    sentInPass n (.did t o b :: h) =
      ((decide (t = .sequence n) && asks (.did t o b)) || sentInPass n h) := by
  cases o with
  | mark m =>
      cases m with
      | sequencePass =>
          have ht : t ≠ .sequence n := hne.resolve_right fun hmark => hmark rfl
          simp [sentInPass, ht]
      | _ => rfl
  | _ => rfl

theorem hasThread_did (htrace : w'.trace = .did t o b :: w.trace) (hw : HasThread w) :
    HasThread w' := by
  unfold HasThread
  rw [htrace]
  intro hconnected
  rcases retryThread_did (t := t) (o := o) (b := b) w.trace with hsame | ⟨n, -, -, hnew⟩
  · rw [hsame]
    exact hw hconnected
  · rw [hnew]
    rfl

/-- An operation of another thread. -/
theorem kept_did {n : Nat} (heffect : effect cfg t w.shared o b = some w'.shared)
    (htrace : w'.trace = .did t o b :: w.trace) (hC : RetriesSend t (.did t o b) w)
    (hne : .sequence n ≠ t) (hfork : ∀ p, fork t o b ≠ some (.sequence n, p)) :
    Kept n w w' := by
  refine ⟨?_, effect_lock heffect hne, ?_, ?_, ?_⟩
  · intro h
    rw [htrace]
    exact (Bool.or_eq_true _ _).mpr (Or.inr h)
  · intro hlock hnone
    by_cases hkind : Op.kind o = .query
    · obtain ⟨value, rfl⟩ := eq_of_kind_query hkind
      have hvalue : value = none := by
        by_contra hsome
        have hother : OtherAsks t w.shared.intl.lock := by
          rw [hlock]
          exact Ne.symm hne
        exact hC hsome hother
      simp only [effect, Option.some.injEq] at heffect
      rw [← heffect]
      exact hvalue
    · rw [effect_queryReplyId heffect hkind]
      exact hnone
  · intro hsent
    rw [htrace, sentInPass_did _ (Or.inl (Ne.symm hne)), hsent, Bool.or_true]
  · rw [htrace]
    intro hthread
    rcases retryThread_did (t := t) (o := o) (b := b) w.trace with hsame | ⟨m, _, hnewFork, hnew⟩
    · rw [hsame] at hthread
      exact ⟨hthread, fun h => (Bool.or_eq_true _ _).mpr (Or.inr h)⟩
    · rw [hnew] at hthread
      obtain rfl := Option.some.inj hthread
      exact absurd hnewFork (hfork _)

theorem fork_start {t' : Tid} {p : UaProg Unit} (h : fork t o b = some (t', p)) (w : World) :
    start cfg t' p w := by
  rcases fork_cases h with ⟨u, n, -, rfl, rfl⟩ | ⟨u, -, rfl, rfl⟩ | ⟨n, -, rfl, rfl⟩ |
    ⟨n, passes, -, rfl, rfl⟩
  · trivial
  · trivial
  · trivial
  · exact ⟨passes, rfl⟩

variable (hC : ∀ t e w, C t e w → RetriesSend t e w)

include hC in
/-- What one operation owes to the outline. -/
theorem grants (hact : (runsWhere cfg C).act t o b w w') (hw : Timely w)
    (hconduct : Conduct t (.did t o b) w) : (outline cfg C).Grants t o b w w' := by
  obtain ⟨⟨heffect, htrace⟩, hevents⟩ := hact
  have hmeets := hC _ _ _ (hevents _ htrace)
  refine ⟨timely_did heffect htrace hmeets hw, ?_, ?_, ?_⟩
  · intro e he
    rw [htrace] at he
    obtain ⟨rfl, -⟩ := List.cons.inj he
    exact hconduct
  · intro t₂ hne hfork
    cases t₂ with
    | sequence n => exact kept_did heffect htrace hmeets hne hfork
    | bus => exact fun h => hasThread_did htrace h
    | _ => trivial
  · exact fun t₂ p _ hfork _ => fork_start (t := t) hfork w'

/-! The thread of one event. -/

section Loop

variable {n : Nat}

/-- Either an answer has been accepted or no reply id is there, as long as `ua_intl` is locked. -/
def Free (n : Nat) (w : World) : Prop :=
  accepted w.trace = true ∨
    w.shared.intl.lock = some (.sequence n) ∧ w.shared.intl.queryReplyId = none

/-- A query has been sent in this pass, unless an answer has been accepted. -/
def Sent (n : Nat) (w : World) : Prop :=
  (accepted w.trace = true ∨ sentInPass n w.trace = true) ∧ Done n w

theorem stable_free : (outline cfg C).Stable (.sequence n) (Free n) := by
  intro w w' _ h hkept _
  rcases h with haccepted | ⟨hlock, hnone⟩
  · exact Or.inl (hkept.accepted haccepted)
  · exact Or.inr ⟨hkept.lock hlock, hkept.replyId hlock hnone⟩

theorem stable_done : (outline cfg C).Stable (.sequence n) (Done n) := by
  intro w w' _ h hkept _ hthread
  obtain ⟨hold, hfollowed⟩ := hkept.followed hthread
  exact hfollowed (h hold)

theorem stable_sent : (outline cfg C).Stable (.sequence n) (Sent n) := by
  intro w w' hw h hkept hw'
  refine ⟨?_, stable_done w w' hw h.2 hkept hw'⟩
  rcases h.1 with haccepted | hsent
  · exact Or.inl (hkept.accepted haccepted)
  · exact Or.inr (hkept.sent hsent)

theorem done_of_accepted (hw : Timely w) (h : accepted w.trace = true) : Done n w :=
  fun _ => hw.followed h

include hC in
theorem lock_triple : (outline cfg C).Triple (.sequence n) (fun _ => True)
    (op (.mutexLock .intl)) fun _ => Free n := by
  refine Outline.Triple.perform (Outline.stable_const True) (fun _ => stable_free) ?_
  intro w b w' hw _ hact
  refine ⟨grants hC hact hw trivial, ?_⟩
  obtain ⟨⟨heffect, htrace⟩, hevents⟩ := hact
  have hmeets := hC _ _ _ (hevents _ htrace)
  cases haccepted : accepted w.trace with
  | true =>
      left
      rw [htrace]
      exact (Bool.or_eq_true _ _).mpr (Or.inr haccepted)
  | false =>
      right
      simp only [effect] at heffect
      split at heffect
      · rw [← Option.some.inj heffect]
        exact ⟨rfl, hmeets haccepted⟩
      · cases heffect

/-- What `send_sequence_query` sends asks for sequence numbers. -/
theorem asks_query (replyId : String) (rc : Rc) :
    asks (.did t (.ext (.uaSendMessage (.json (.object ([("type", .string bmtQuerySequence),
      ("body", .object [("domain", .string "change-notifications")])] ++
      [("reply-id", .string replyId)]))))) rc) = true := by
  simp [asks, OutMsg.toJson, getTypeFromJson, getString, jsonGetProperty, Json.field?, Json.isType,
    Json.string?]

include hC in
theorem sendQuery_triple : (outline cfg C).Triple (.sequence n) (Free n)
    (sendQuery [("type", .string bmtQuerySequence),
      ("body", .object [("domain", .string "change-notifications")])]) fun _ => Sent n := by
  have hpre : ∀ waiting : Option String, (outline cfg C).Stable (.sequence n)
      fun w => accepted w.trace = true ∨ waiting = none := by
    intro waiting w w' _ h hkept _
    exact Or.imp_left hkept.accepted h
  refine .read_bind (R := fun (waiting : Option String) (w : World) =>
    accepted w.trace = true ∨ waiting = none) stable_free (fun w _ h => Or.imp_right And.right h)
    fun waiting => ?_
  refine Outline.Triple.ite (fun _ => ?_) fun hwaiting => ?_
  · refine .bind (R := fun (replyId : Option String) _ => replyId ≠ none) ?_ fun replyId => ?_
    · refine Outline.Triple.perform (hpre waiting) (fun _ => Outline.stable_const _) ?_
      intro w replyId w' hw _ hact
      exact ⟨grants hC hact hw trivial, hC _ _ _ (hact.2 _ hact.1.2)⟩
    · refine .bind (R := fun _ _ => replyId ≠ none) ?_ fun _ => ?_
      · refine Outline.Triple.perform (Outline.stable_const _) (fun _ => Outline.stable_const _) ?_
        exact fun w b w' hw h hact => ⟨grants hC hact hw trivial, h⟩
      · cases replyId with
        | none => exact fun w _ h => absurd rfl h
        | some replyId =>
            refine ignoring_triple ?_ stable_sent
            refine Outline.Triple.perform (Outline.stable_const _) (fun _ => stable_sent) ?_
            intro w rc w' hw _ hact
            refine ⟨grants hC hact hw trivial, ?_⟩
            obtain ⟨⟨-, htrace⟩, -⟩ := hact
            have hasks := asks_query (t := .sequence n) replyId rc
            unfold Sent Done
            rw [htrace]
            refine ⟨Or.inr ?_, fun _ => ?_⟩
            · refine (sentInPass_did _ (Or.inr ?_)).trans ?_
              · simp
              · rw [hasks]
                simp
            · exact (Bool.or_eq_true _ _).mpr (Or.inl hasks)
  · refine .pure (hpre waiting) fun w hw h => ?_
    rcases h with haccepted | hnone
    · exact ⟨Or.inl haccepted, done_of_accepted hw haccepted⟩
    · simp [hnone] at hwaiting

include hC in
theorem sendSequenceQuery_triple : (outline cfg C).Triple (.sequence n) (fun _ => True)
    sendSequenceQuery fun _ => Done n := by
  refine .bind (lock_triple hC) fun _ => .bind (sendQuery_triple hC) fun _ => ?_
  refine Outline.Triple.perform stable_sent (fun _ => stable_done) ?_
  intro w b w' hw h hact
  refine ⟨grants hC hact hw h.1, ?_⟩
  obtain ⟨⟨-, htrace⟩, -⟩ := hact
  unfold Done
  rw [htrace]
  exact h.2

include hC in
theorem updateSequenceInfo_triple (passes : Nat) :
    (outline cfg C).Triple (.sequence n) (fun _ => True) (updateSequenceInfo (passes + 1))
      fun _ => Done n := by
  have hloop : ∀ passes, (outline cfg C).Triple (.sequence n) (Done n) (updateSequenceInfo passes)
      (fun _ => Done n) → (outline cfg C).Triple (.sequence n) (fun _ => True)
        (updateSequenceInfo (passes + 1)) fun _ => Done n := by
    intro passes ih
    refine .read_bind (R := fun (valid : Bool) (w : World) =>
      valid = true → accepted w.trace = true) (Outline.stable_const True)
      (fun w hw _ => hw.valid) fun valid => ?_
    have hstable : (outline cfg C).Stable (.sequence n)
        fun w => valid = true → accepted w.trace = true :=
      fun w w' _ h hkept _ hvalid => hkept.accepted (h hvalid)
    refine Outline.Triple.ite (fun hvalid => ?_) fun _ => ?_
    · refine Outline.Triple.perform hstable (fun _ => stable_done) ?_
      intro w b w' hw h hact
      have hgrants := grants hC hact hw trivial
      refine ⟨hgrants, done_of_accepted hgrants.inv ?_⟩
      rw [hact.1.2]
      exact (Bool.or_eq_true _ _).mpr (Or.inr (h hvalid))
    · refine .bind (R := fun _ _ => True) ?_ fun _ =>
        .bind (sendSequenceQuery_triple hC) fun _ => ih
      refine Outline.Triple.perform hstable (fun _ => Outline.stable_const _) ?_
      exact fun w b w' hw _ hact => ⟨grants hC hact hw trivial, trivial⟩
  induction passes with
  | zero => exact hloop 0 (.pure stable_done fun _ _ h => h)
  | succ passes ih => exact hloop (passes + 1) (ih.pre fun _ _ _ => trivial)

end Loop

theorem handlePresence_triple (hC : ∀ t e w, C t e w → RetriesSend t e w) (nUah : Nat)
    (connected : Bool) :
    (outline cfg C).Triple .bus (fun w => connected = false → HasThread w)
      (handlePresence nUah connected) fun _ => HasThread := by
  have hthread : (outline cfg C).Stable .bus HasThread := fun _ _ _ h hrely _ => hrely h
  have hrest : ∀ p : UaProg Unit,
      (outline cfg C).Triple .bus HasThread p fun _ => HasThread := by
    intro p
    refine (Outline.Triple.frame hthread ?_ (Prog.all_true p)).post fun _ _ _ h => h.1
    exact fun o b w w' _ hw h hact => ⟨grants hC hact hw trivial, hasThread_did hact.1.2 h⟩
  refine .bind (R := fun _ => HasThread) ?_ fun _ => hrest _
  refine Outline.Triple.ite (fun _ => ?_) fun hnot =>
    .pure (Outline.stable_forall fun _ => hthread) fun _ _ h => h (by simpa using hnot)
  refine ignoring_triple ?_ hthread
  refine Outline.Triple.perform (Outline.stable_forall fun _ => hthread) (fun _ => hthread) ?_
  intro w thread w' hw _ hact
  refine ⟨grants hC hact hw trivial, fun _ => ?_⟩
  have hmeets := hC _ _ _ (hact.2 _ hact.1.2)
  rw [hact.1.2]
  cases thread with
  | none => cases hmeets
  | some thread => rfl

/-- Nothing has happened yet. -/
theorem fresh (hvalid : w.shared.intl.seqInfoValid = false) (haccepted : accepted w.trace = false)
    (hconnected : connectedOnce w.trace = false) (hthread : retryThread w.trace = none) :
    Timely w ∧ ∀ t, post t w := by
  refine ⟨⟨?_, ?_, ?_⟩, fun t => ?_⟩
  · rw [hvalid]
    nofun
  · rw [haccepted]
    nofun
  · rw [haccepted]
    nofun
  · cases t with
    | sequence n =>
        intro h
        rw [hthread] at h
        cases h
    | bus =>
        intro h
        rw [hconnected] at h
        cases h
    | _ => trivial

/-- An arrival other than the connection of the DM client changes nothing. -/
theorem arrive_same {e : Event} {p : UaProg Unit} (h : Arrive cfg t p e)
    (he : e ≠ .presence true) (trace : List Event) :
    accepted (e :: trace) = accepted trace ∧ acceptedSince (e :: trace) = acceptedSince trace ∧
      followed (e :: trace) = followed trace ∧ retryThread (e :: trace) = retryThread trace ∧
      connectedOnce (e :: trace) = connectedOnce trace ∧
      ∀ n, sentInPass n (e :: trace) = sentInPass n trace := by
  cases h with
  | message u msg hreg => exact ⟨rfl, rfl, rfl, rfl, rfl, fun _ => rfl⟩
  | presence connected =>
      cases connected with
      | true => exact absurd rfl he
      | false => exact ⟨rfl, rfl, rfl, rfl, rfl, fun _ => rfl⟩

theorem outline_sound (hC : ∀ t e w, C t e w → RetriesSend t e w) : (outline cfg C).Sound where
  init := by
    rintro w ⟨htrace, ctrl, hshared⟩
    refine fresh ?_ ?_ ?_ ?_
    · rw [hshared]
      rfl
    all_goals
      rw [htrace]
      rfl
  restart := by
    rintro w w' - ⟨htrace, ctrl, hshared⟩
    refine fresh ?_ ?_ ?_ ?_
    · rw [hshared]
      rfl
    all_goals
      rw [htrace]
      rfl
  stable := by
    intro t
    cases t with
    | sequence n => exact stable_done
    | bus => exact fun _ _ _ h hrely _ => hrely h
    | _ => exact Outline.stable_const True
  arrive := by
    rintro t p w w' hw hpost ⟨⟨e, harrive, rfl⟩, hevents⟩
    have hguar : (outline cfg C).guar t w { w with trace := e :: w.trace } := by
      intro e' he
      obtain ⟨rfl, -⟩ := List.cons.inj he
      cases harrive <;> trivial
    by_cases hconnects : e = .presence true
    · subst hconnects
      have hnone : accepted w.trace = false := hC _ _ _ (hevents _ rfl) rfl
      have hvalid : w.shared.intl.seqInfoValid ≠ true := by
        intro h
        have htrue := hw.valid h
        rw [hnone] at htrue
        cases htrue
      have hnone' : accepted (.presence true :: w.trace) ≠ true := by
        intro h
        have htrue : accepted w.trace = true := h
        rw [hnone] at htrue
        cases htrue
      refine ⟨⟨fun h => absurd h hvalid, fun h => absurd h hnone', fun h => absurd h hnone'⟩,
        hguar, ?_, ?_⟩
      · cases harrive
        exact ⟨true, rfl, nofun⟩
      · intro t₂ hne
        cases t₂ with
        | sequence n => exact ⟨id, id, fun _ => id, id, nofun⟩
        | bus =>
            cases harrive
            exact absurd rfl hne
        | _ => trivial
    · obtain ⟨haccepted, hsince, hfollowed, hthread, hconnected, hsent⟩ :=
        arrive_same harrive hconnects w.trace
      have hhas : HasThread w → HasThread { w with trace := e :: w.trace } := by
        intro h
        unfold HasThread
        rw [hconnected, hthread]
        exact h
      refine ⟨⟨?_, ?_, ?_⟩, hguar, ?_, ?_⟩
      · rw [haccepted]
        exact hw.valid
      · rw [haccepted, hsince]
        exact hw.since
      · rw [haccepted, hfollowed]
        exact hw.followed
      · cases harrive with
        | message u msg hreg => trivial
        | presence connected => exact ⟨connected, rfl, fun _ => hhas hpost⟩
      · intro t₂ hne
        cases t₂ with
        | sequence n =>
            refine ⟨?_, id, fun _ => id, ?_, ?_⟩
            · rw [haccepted]
              exact id
            · rw [hsent n]
              exact id
            · rw [hthread, hfollowed]
              exact fun h => ⟨h, id⟩
        | bus => exact hhas
        | _ => trivial
  body := by
    intro t p w hw hstart
    have hother : (∀ n, t ≠ .sequence n) → post t = (fun _ => True) →
        (outline cfg C).wp t p (fun _ => post t) w := by
      intro ht hpost
      have hframe : (outline cfg C).Triple t (fun _ => True) p fun _ _ => True := by
        refine (Outline.Triple.frame (P := fun _ => True) (Outline.stable_const True) ?_
          (Prog.all_true p)).post fun _ _ _ _ => trivial
        intro o b w w' _ hw _ hact
        refine ⟨grants hC hact hw ?_, trivial⟩
        unfold Conduct
        split
        · rename_i n b heq
          obtain ⟨rfl, -⟩ := Event.did.inj heq
          exact absurd rfl (ht n)
        · trivial
      rw [hpost]
      exact hframe w hw trivial
    cases t with
    | sequence n =>
        obtain ⟨passes, rfl⟩ := hstart
        exact updateSequenceInfo_triple hC passes w hw trivial
    | bus =>
        obtain ⟨connected, rfl, hthread⟩ := hstart
        exact handlePresence_triple hC cfg.nUah connected w hw hthread
    | runner | worker | resume | presence => exact hother (by simp) rfl

/-- In every run that meets the conditions: a pass of the loop of `update_sequence_info` has
put a query for sequence numbers on the bus when it unlocks `ua_intl`, unless an answer has
been accepted since the latest BUS_CONN_DMC_CONNECTED event; and once such an event has been
handled, a thread runs the loop for it, and when this thread is done the event has been
followed by such a query. -/
theorem queries_retried (cfg : AgentConfig) (c : AgentConfiguration)
    (hc : (runsWhere cfg RetriesSend).Reachable c) :
    (∀ after before n, c.st.trace = after ++ .did (.sequence n) (.mutexUnlock .intl) () :: before →
      acceptedSince before = false → sentInPass n before = true) ∧
    (c.Idle .bus → connectedOnce c.st.trace = true → ∃ n, retryThread c.st.trace = some n ∧
      (c.Idle (.sequence n) → followed c.st.trace = true)) := by
  have hsound : (outline cfg RetriesSend).Sound := outline_sound fun _ _ _ h => h
  refine ⟨?_, ?_⟩
  · intro after before n htrace hnone
    have hsent : Throughout (fun e h => ∀ n, e = .did (.sequence n) (.mutexUnlock .intl) () →
        acceptedSince h = false → sentInPass n h = true) c.st.trace := by
      refine throughout_of_sound hsound rfl ?_ (fun _ _ => nofun) hc
      rintro t e w hw - hconduct n rfl hnone
      rcases hconduct with haccepted | hsent
      · rw [hw.since haccepted] at hnone
        cases hnone
      · exact hsent
    rw [htrace] at hsent
    exact hsent.split n rfl hnone
  · intro hbus hconnected
    have hthread : HasThread c.st := hsound.post_of_idle hc hbus
    obtain ⟨n, hn⟩ := Option.isSome_iff_exists.mp (hthread hconnected)
    have hdone : c.Idle (.sequence n) → Done n c.st := fun hidle => hsound.post_of_idle hc hidle
    exact ⟨n, hn, fun hidle => hdone hidle hn⟩

/-- The DM client connects, and a pass of the loop asks for the sequence numbers. -/
def asked (C : Tid → Event → World → Prop) [∀ t e w, Decidable (C t e w)]
    (moves : List (Move (runsWhere (sampleConfig false 1) C))) : AgentConfiguration :=
  rehearse (sampleConfig false 1) C (usualOracle "1")
    ([connected _ _, .steps .bus 10, .steps (.sequence 0) 8] ++ moves)

/-- The answer arrives, and the loop ends. -/
def askedOnce : AgentConfiguration :=
  asked RetriesSend [message _ _ 0 Nat.one_pos (Queries.reply bmtQuerySequence "reply"),
    .steps (.runner 0) 20, .steps (.sequence 0) 3]

theorem queries_retried_example :
    (∃ after before, askedOnce.st.trace = after ++ .did (.sequence 0) (.mutexUnlock .intl) () ::
      before ∧ sentInPass 0 before = true) ∧
    ∃ n, retryThread askedOnce.st.trace = some n ∧
      (askedOnce.Idle (.sequence n) → followed askedOnce.st.trace = true) := by
  obtain ⟨hpasses, hevents⟩ := queries_retried (sampleConfig false 1) askedOnce
    (rehearse_reachable _ _ _ _)
  constructor
  · have htrace : askedOnce.st.trace = askedOnce.st.trace.take 8 ++
        .did (.sequence 0) (.mutexUnlock .intl) () :: askedOnce.st.trace.drop 9 := rfl
    exact ⟨_, _, htrace, hpasses _ _ 0 htrace (by decide +kernel)⟩
  · have hidle : askedOnce.Idle .bus := idle_of_isIdle (by decide +kernel)
    exact hevents hidle (by decide +kernel)

/-- The answer to the first query is lost, and the second pass sends nothing. -/
theorem retry_sends_nothing :
    ¬∀ (cfg : AgentConfig) (c : AgentConfiguration), (agent cfg).Reachable c →
      ∀ after before n, c.st.trace = after ++ .did (.sequence n) (.mutexUnlock .intl) () :: before →
        acceptedSince before = false → sentInPass n before = true := by
  intro hall
  have htrace : (asked Anything [.steps (.sequence 0) 5]).st.trace = [] ++
      .did (.sequence 0) (.mutexUnlock .intl) () ::
        (asked Anything [.steps (.sequence 0) 5]).st.trace.drop 1 := rfl
  have hsent := hall _ _ (agent_reachable _ _ _) _ _ 0 htrace (by decide +kernel)
  have hnot : sentInPass 0 ((asked Anything [.steps (.sequence 0) 5]).st.trace.drop 1) = false := by
    decide +kernel
  rw [hnot] at hsent
  cases hsent

end EsyncUa.QueryRetries
