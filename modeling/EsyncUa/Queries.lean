import EsyncUa.Rehearsals
import EsyncUa.Rules
import EsyncUa.Sequence

/-!
The two kinds of queries that share the one reply id of `ua_intl`. A query is outstanding from
when its reply id is recorded until a runner has processed the answer to it. As long as the id
is only cleared for the answer and only recorded while there is none, every outstanding
query is recorded and every answer is accepted; both handlers, however, also clear the id for
other messages, and nothing locks the sender of the other query out.
-/
namespace EsyncUa.Queries

open EsyncUa.JsonProperties EsyncUa.Components EsyncUa.Programs EsyncUa.Operations
open EsyncUa.Installation EsyncUa.Messages EsyncUa.Machines EsyncUa.Outlines EsyncUa.Agents
open EsyncUa.Footprints EsyncUa.Frames EsyncUa.Rules EsyncUa.Schedules EsyncUa.Rehearsals
open EsyncUa.Sequence

inductive QueryKind
  | sequenceInfo | queryUpdates
  deriving DecidableEq

structure Query where
  kind : QueryKind
  replyId : String
  deriving DecidableEq

/-- The type of a query and of the answer to it. -/
def QueryKind.type : QueryKind → String
  | .sequenceInfo => bmtQuerySequence
  | .queryUpdates => bmtQueryUpdates

/-- The query of a thread: `update_sequence_info` asks for sequence numbers, and a worker that
has prepared a package asks for the updates. -/
def queryOf (t : Tid) (replyId : String) : Query :=
  match t with
  | .sequence _ => ⟨.sequenceInfo, replyId⟩
  | _ => ⟨.queryUpdates, replyId⟩

/-- The message is of the kind that answers the query, and it carries exactly its reply id. -/
def Answers (q : Query) (msg : Option (Option Json)) : Prop :=
  match msg with
  | some (some jObj) => getTypeFromJson jObj = (eUaOk, some q.kind.type) ∧
      getReplytoFromJson jObj = (eUaOk, some q.replyId)
  | _ => False

instance (q : Query) (msg : Option (Option Json)) : Decidable (Answers q msg) := by
  unfold Answers
  split <;> infer_instance

/-- The queries whose reply id has been recorded since the agent was started and whose answer
has not been processed, newest first. A runner ends the processing by clearing the id. -/
def outstanding : List Event → List Query
  | [] => []
  | .rebooted :: _ => []
  | .did t (.assignIntl (.queryReplyId (some replyId))) _ :: h => queryOf t replyId :: outstanding h
  | .did (.runner u) (.assignIntl (.queryReplyId none)) _ :: h =>
      (outstanding h).filter fun q => ¬Answers q (latest u h)
  | _ :: h => outstanding h

/-- The events since the runner took its latest message. -/
def sinceLatest (u : UaccPtr) : List Event → List Event
  | [] => []
  | .received u' msg :: h => if u' = u then [] else .received u' msg :: sinceLatest u h
  | e :: h => e :: sinceLatest u h

def Event.records : Event → Bool
  | .did _ (.assignIntl (.queryReplyId (some _))) _ => true
  | _ => false

/-- Runner `u` takes over what the answer to a query of this kind brings. -/
def Event.accepts (u : UaccPtr) (kind : QueryKind) : Event → Bool
  | .did t (.assignIntl (.seqInfoValid valid)) _ =>
      valid && decide (t = .runner u ∧ kind = .sequenceInfo)
  | .did t (.assignIntl (.queryUpdates updates)) _ =>
      updates.isSome && decide (t = .runner u ∧ kind = .queryUpdates)
  | _ => false

/-- The latest message of the runner answers a query that is outstanding and that was already
when the runner took the message. -/
def Due (u : UaccPtr) (q : Query) (h : List Event) : Prop :=
  q ∈ outstanding h ∧ Answers q (latest u h) ∧ (sinceLatest u h).all (¬Event.records ·) = true

instance (u : UaccPtr) (q : Query) (h : List Event) : Decidable (Due u q h) :=
  inferInstanceAs (Decidable (_ ∧ _))

def Accepted (u : UaccPtr) (kind : QueryKind) (h : List Event) : Prop :=
  (sinceLatest u h).any (Event.accepts u kind) = true

/-- The thread is a runner that processes the answer to an outstanding query. -/
def ProcessesAnswer (t : Tid) (h : List Event) : Prop :=
  match t with
  | .runner u => ∃ q ∈ outstanding h, Due u q h
  | _ => False

instance (t : Tid) (h : List Event) : Decidable (ProcessesAnswer t h) := by
  unfold ProcessesAnswer
  split <;> infer_instance

/-- A reply id is recorded only where there is none, and it is cleared only by the runner that
processes the answer to the query. -/
def OnlyForAnswers (t : Tid) (e : Event) (w : World) : Prop :=
  match e with
  | .did _ (.assignIntl (.queryReplyId value)) _ => w.shared.intl.queryReplyId = none ∨
      value = none ∧ ProcessesAnswer t w.trace
  | _ => True

instance (t : Tid) (e : Event) (w : World) : Decidable (OnlyForAnswers t e w) := by
  unfold OnlyForAnswers
  split <;> infer_instance

/-- At most one query is outstanding, and then its reply id is recorded. -/
def Kept (w : World) : Prop :=
  outstanding w.trace = [] ∨
    ∃ q, outstanding w.trace = [q] ∧ w.shared.intl.queryReplyId = some q.replyId

/-- A runner clears the reply id of a query whose answer it processes after it has accepted
the answer, and no such query is left when it has processed a sequence-info message. -/
def Conduct (t : Tid) (e : Event) (w : World) : Prop :=
  match e with
  | .did t' (.assignIntl (.queryReplyId none)) _ => t' = t ∧
      ∀ u, t = .runner u → ∀ q, Due u q w.trace → Accepted u q.kind w.trace
  | .did t' (.mutexUnlock .intl) _ => t' = t ∧
      ∀ u, t = .runner u → ∀ q, Due u q w.trace → q.kind ≠ .sequenceInfo
  | .did t' _ _ => t' = t
  | _ => True

def start (t : Tid) (p : UaProg Unit) (w : World) : Prop :=
  match t with
  | .runner u => ∃ msg, p = runnerPass u msg ∧ latest u w.trace = some msg
  | _ => True

variable (cfg : AgentConfig) (C : Tid → Event → World → Prop)

def outline : Outline (runsWhere cfg C) where
  inv := Kept
  rely := fun t w w' => ∀ u, t = .runner u → latest u w'.trace = latest u w.trace ∧
    (∀ q, Due u q w'.trace → Due u q w.trace) ∧
    ∀ kind, Accepted u kind w.trace → Accepted u kind w'.trace
  guar := WhenEvents Conduct
  start := start
  post := fun _ _ => True

variable {cfg C} {t : Tid} {o : Op} {b : o.Ans} {w w' : World}

theorem outstanding_did (h : List Event) (hkind : Op.kind o ≠ .query) :
    outstanding (.did t o b :: h) = outstanding h := by
  cases o with
  | assignIntl x =>
      cases x with
      | queryReplyId value => exact absurd rfl hkind
      | _ => cases t <;> rfl
  | _ => cases t <;> rfl

theorem runner_of_processes {h : List Event} (hprocesses : ProcessesAnswer t h) :
    ∃ u, t = .runner u ∧ ∃ q, Due u q h := by
  cases t with
  | runner u =>
      obtain ⟨q, -, hdue⟩ := hprocesses
      exact ⟨u, rfl, q, hdue⟩
  | _ => exact hprocesses.elim

theorem Kept.eq_nil (hw : Kept w) (hnone : w.shared.intl.queryReplyId = none) :
    outstanding w.trace = [] := by
  rcases hw with hnil | ⟨q, -, hsome⟩
  · exact hnil
  · rw [hnone] at hsome
    cases hsome

/-- One operation keeps the invariant. -/
theorem kept_did (heffect : effect cfg t w.shared o b = some w'.shared)
    (htrace : w'.trace = .did t o b :: w.trace) (hC : OnlyForAnswers t (.did t o b) w)
    (hw : Kept w) : Kept w' := by
  by_cases hkind : Op.kind o = .query
  · obtain ⟨value, rfl⟩ := eq_of_kind_query hkind
    have hid : w'.shared.intl.queryReplyId = value := by
      simp only [effect, Option.some.injEq] at heffect
      rw [← heffect]
      rfl
    cases value with
    | some replyId =>
        have hnone : w.shared.intl.queryReplyId = none := by simpa [OnlyForAnswers] using hC
        refine Or.inr ⟨queryOf t replyId, ?_, ?_⟩
        · rw [htrace]
          simp only [outstanding, hw.eq_nil hnone]
        · rw [hid]
          cases t <;> rfl
    | none =>
        left
        rw [htrace]
        rcases hC with hnone | ⟨-, hprocesses⟩
        · have hnil := hw.eq_nil hnone
          cases t <;> simp [outstanding, hnil]
        · obtain ⟨u, rfl, q, hdue⟩ := runner_of_processes hprocesses
          rcases hw with hnil | ⟨q', hone, -⟩
          · simp [outstanding, hnil]
          · have heq : q = q' := by simpa [hone] using hdue.1
            have hanswers : Answers q' (latest u w.trace) := heq ▸ hdue.2.1
            simp [outstanding, hone, hanswers]
  · unfold Kept
    rw [htrace, outstanding_did _ hkind, effect_queryReplyId heffect hkind]
    exact hw

/-- What is due to a runner after an operation has been due before it. -/
theorem due_did {u : UaccPtr} {q : Query} {h : List Event} (hdue : Due u q (.did t o b :: h)) :
    Due u q h := by
  obtain ⟨hmem, hanswers, hall⟩ := hdue
  simp only [sinceLatest, List.all_cons, Bool.and_eq_true] at hall
  refine ⟨?_, hanswers, hall.2⟩
  by_cases hkind : Op.kind o = .query
  · obtain ⟨value, rfl⟩ := eq_of_kind_query hkind
    cases value with
    | some replyId => simp [Event.records] at hall
    | none =>
        cases t with
        | runner u' => exact (List.mem_filter.mp hmem).1
        | _ => exact hmem
  · rwa [outstanding_did h hkind] at hmem

theorem accepted_did {u : UaccPtr} {kind : QueryKind} {h : List Event}
    (haccepted : Accepted u kind h) :
    Accepted u kind (.did t o b :: h) := by
  unfold Accepted at *
  simp [sinceLatest, haccepted]

theorem fork_start {t' : Tid} {p : UaProg Unit} (h : fork t o b = some (t', p)) (w : World) :
    start t' p w := by
  rcases fork_cases h with ⟨u, n, -, rfl, rfl⟩ | ⟨u, -, rfl, rfl⟩ | ⟨n, -, rfl, rfl⟩ |
    ⟨n, passes, -, rfl, rfl⟩ <;> trivial

variable (hC : ∀ t e w, C t e w → OnlyForAnswers t e w)

include hC in
/-- What one operation owes to the outline. -/
theorem grants (hact : (runsWhere cfg C).act t o b w w') (hw : Kept w)
    (hconduct : Conduct t (.did t o b) w) : (outline cfg C).Grants t o b w w' := by
  obtain ⟨⟨heffect, htrace⟩, hevents⟩ := hact
  refine ⟨kept_did heffect htrace (hC _ _ _ (hevents _ htrace)) hw, ?_, ?_, ?_⟩
  · intro e he
    rw [htrace] at he
    obtain ⟨rfl, -⟩ := List.cons.inj he
    exact hconduct
  · intro t₂ _ _ u _
    rw [htrace]
    exact ⟨rfl, fun q => due_did, fun kind => accepted_did⟩
  · exact fun t₂ p _ hfork _ => fork_start (t := t) hfork w'

/-- The latest message of the runner, and what is known of the queries that are due to it. -/
def Handling (u : UaccPtr) (msg : Option Json) (φ : Query → Prop) (w : World) : Prop :=
  latest u w.trace = some msg ∧ ∀ q, Due u q w.trace → φ q

/-- The answer to every query that is due to the runner has been accepted. -/
def Taken (u : UaccPtr) (msg : Option Json) (w : World) : Prop :=
  latest u w.trace = some msg ∧ ∀ q, Due u q w.trace → Accepted u q.kind w.trace

theorem stable_handling {u : UaccPtr} {msg : Option Json} {φ : Query → Prop} :
    (outline cfg C).Stable (.runner u) (Handling u msg φ) := by
  intro w w' _ h hrely _
  obtain ⟨hlatest, hdue, -⟩ := hrely u rfl
  exact ⟨hlatest.trans h.1, fun q hq => h.2 q (hdue q hq)⟩

theorem stable_taken {u : UaccPtr} {msg : Option Json} :
    (outline cfg C).Stable (.runner u) (Taken u msg) := by
  intro w w' _ h hrely _
  obtain ⟨hlatest, hdue, haccepted⟩ := hrely u rfl
  exact ⟨hlatest.trans h.1, fun q hq => haccepted _ (h.2 q (hdue q hq))⟩

theorem handling_did {u : UaccPtr} {msg : Option Json} {φ : Query → Prop} {w w' : World}
    (htrace : w'.trace = .did t o b :: w.trace) (h : Handling u msg φ w) : Handling u msg φ w' := by
  unfold Handling
  rw [htrace]
  exact ⟨h.1, fun q hq => h.2 q (due_did hq)⟩

theorem conduct_of_kind (hquery : Op.kind o ≠ .query) (hunlock : o ≠ .mutexUnlock .intl)
    (w : World) : Conduct t (.did t o b) w := by
  cases o with
  | assignIntl x =>
      cases x with
      | queryReplyId value => exact absurd rfl hquery
      | _ => rfl
  | mutexUnlock lock =>
      cases lock with
      | intl => exact absurd rfl hunlock
      | _ => rfl
  | _ => rfl

include hC in
/-- A program that neither changes the reply id nor unlocks `ua_intl`. -/
theorem plain_triple {α : Type} {u : UaccPtr} {msg : Option Json} {φ : Query → Prop}
    {p : UaProg α} (hp : p.All fun o => Op.kind o ≠ .query ∧ o ≠ .mutexUnlock .intl) :
    (outline cfg C).Triple (.runner u) (Handling u msg φ) p fun _ => Handling u msg φ := by
  refine (Outline.Triple.frame stable_handling ?_ hp).post fun _ _ _ h => h.1
  intro o b w w' ho hw h hact
  exact ⟨grants hC hact hw (conduct_of_kind ho.1 ho.2 w), handling_did hact.1.2 h⟩

include hC in
theorem within_triple {α : Type} {u : UaccPtr} {msg : Option Json} {φ : Query → Prop}
    {p : UaProg α} {ks : List Kind} (hp : p.All (Within u ks))
    (hks : ∀ k ∈ ks, k ≠ .query ∧ k ≠ .intlLock) :
    (outline cfg C).Triple (.runner u) (Handling u msg φ) p fun _ => Handling u msg φ := by
  refine plain_triple hC (hp.mono fun o ho => ⟨(hks _ ho.2).1, ?_⟩)
  rintro rfl
  exact (hks _ ho.2).2 rfl

theorem due_of_kept {u : UaccPtr} {q : Query} (hw : Kept w) (hdue : Due u q w.trace) :
    w.shared.intl.queryReplyId = some q.replyId := by
  rcases hw with hnil | ⟨q', hone, hid⟩
  · have hmem := hdue.1
    rw [hnil] at hmem
    cases hmem
  · have heq : q = q' := by simpa [hone] using hdue.1
    rw [heq]
    exact hid

/-- A read of the reply id. -/
theorem readReplyId_triple {α : Type} {u : UaccPtr} {msg : Option Json}
    {k : Option String → UaProg α} {Q : α → World → Prop}
    (hk : ∀ value, (outline cfg C).Triple (.runner u)
      (Handling u msg fun q => value = some q.replyId) (k value) Q) :
    (outline cfg C).Triple (.runner u) (Handling u msg fun _ => True)
      (readIntl (·.queryReplyId) >>= k) Q :=
  .read_bind stable_handling (fun _ hw h => ⟨h.1, fun _ hq => due_of_kept hw hq⟩) hk

include hC in
/-- The assignment that takes over what the answer brings. -/
theorem accept_triple {u : UaccPtr} {jObj : Json} {φ : Query → Prop} (kind : QueryKind)
    (x : AssignIntl) (htype : getTypeFromJson jObj = (eUaOk, some kind.type))
    (hx : Event.accepts u kind (.did (.runner u) (.assignIntl x) ()) = true) :
    (outline cfg C).Triple (.runner u) (Handling u (some jObj) φ) (assignIntl x)
      fun _ => Taken u (some jObj) := by
  refine Outline.Triple.perform stable_handling (fun _ => stable_taken) ?_
  intro w b w' hw h hact
  have hkind : Op.kind (.assignIntl x) ≠ .query := by
    cases x with
    | queryReplyId value => simp [Event.accepts] at hx
    | _ => simp [Op.kind, AssignIntl.kind]
  refine ⟨grants hC hact hw (conduct_of_kind hkind nofun w), ?_⟩
  obtain ⟨⟨-, htrace⟩, -⟩ := hact
  unfold Taken
  rw [htrace]
  refine ⟨h.1, fun q hq => ?_⟩
  obtain ⟨hqtype, -⟩ : Answers q (some (some jObj)) := h.1 ▸ hq.2.1
  have hsame : kind = q.kind := by
    have heq : kind.type = q.kind.type := by
      rw [htype] at hqtype
      simpa using hqtype
    revert heq
    cases kind <;> cases q.kind <;> decide
  simp [Accepted, sinceLatest, ← hsame, hx]

include hC in
/-- The end of the processing of an answer. -/
theorem clear_triple (u : UaccPtr) (msg : Option Json) :
    (outline cfg C).Triple (.runner u) (Taken u msg) (assignIntl (.queryReplyId none))
      fun _ => Handling u msg fun _ => False := by
  refine Outline.Triple.perform stable_taken (fun _ => stable_handling) ?_
  intro w b w' hw h hact
  refine ⟨grants hC hact hw ⟨rfl, ?_⟩, ?_⟩
  · intro u' hu q hq
    obtain rfl := Tid.runner.inj hu
    exact h.2 q hq
  · obtain ⟨⟨-, htrace⟩, -⟩ := hact
    unfold Handling
    rw [htrace]
    refine ⟨h.1, fun q hq => ?_⟩
    obtain ⟨hmem, hanswers, -⟩ := hq
    have hsame : Answers q (latest u w.trace) := hanswers
    have hnot := (List.mem_filter.mp hmem).2
    exact absurd hsame (by simpa using hnot)

/-- What is due to a runner is the query that its message answers. -/
theorem Handling.due {u : UaccPtr} {jObj : Json} {φ : Query → Prop}
    (h : Handling u (some jObj) φ w) {q : Query} (hdue : Due u q w.trace) :
    φ q ∧ getReplytoFromJson jObj = (eUaOk, some q.replyId) := by
  have hanswers : Answers q (some (some jObj)) := h.1 ▸ hdue.2.1
  exact ⟨h.2 q hdue, hanswers.2⟩

include hC in
theorem processQueryUpdates_triple (u : UaccPtr) (jObj : Json)
    (htype : getTypeFromJson jObj = (eUaOk, some bmtQueryUpdates)) :
    (outline cfg C).Triple (.runner u) (Handling u (some jObj) fun _ => True)
      (processQueryUpdates u jObj) fun _ => Handling u (some jObj) fun _ => True := by
  refine readReplyId_triple fun value => ?_
  refine .bind (R := fun _ => Taken u (some jObj)) ?_ fun _ =>
    (clear_triple hC u _).post fun _ _ _ h => ⟨h.1, fun _ _ => trivial⟩
  refine doIf_triple (fun _ => accept_triple hC .queryUpdates _ htype ?_)
    stable_handling fun hnot w _ h => ⟨h.1, fun q hq => ?_⟩
  · simp [Event.accepts]
  · obtain ⟨hvalue, hreply⟩ := h.due hq
    refine absurd ?_ hnot
    rw [hreply, hvalue]
    simp [replyIdMatched]

include hC in
theorem takeSequences_triple (u : UaccPtr) (jObj : Json) {φ : Query → Prop}
    (htype : getTypeFromJson jObj = (eUaOk, some bmtQuerySequence)) :
    (outline cfg C).Triple (.runner u) (Handling u (some jObj) φ) (takeSequences jObj)
      fun _ => Taken u (some jObj) := by
  refine orCrash_bind fun fields _ => ?_
  have hsequences : (updateSequences fields).All fun o =>
      Op.kind o ≠ .query ∧ o ≠ .mutexUnlock .intl := by
    refine updateSequences_all (fun name num => ?_) fields
    simp [Op.kind]
  refine .bind (plain_triple hC hsequences) fun _ => ?_
  exact accept_triple hC .sequenceInfo _ htype (by simp [Event.accepts])

include hC in
theorem answerSequence_triple (u : UaccPtr) (jObj : Json) (replyId : String)
    (htype : getTypeFromJson jObj = (eUaOk, some bmtQuerySequence)) :
    (outline cfg C).Triple (.runner u)
      (Handling u (some jObj) fun q => some replyId = some q.replyId)
      (answerSequence jObj (getReplytoFromJson jObj).2 replyId)
      fun _ => Handling u (some jObj) fun _ => False := by
  refine orCrash_bind fun replyTo hreplyTo => ?_
  refine .bind (R := fun _ => Taken u (some jObj)) ?_ fun _ => clear_triple hC u _
  refine doIf_triple (fun _ => takeSequences_triple hC u jObj htype) stable_handling
    fun hnot w _ h => ⟨h.1, fun q hq => ?_⟩
  obtain ⟨hvalue, hreply⟩ := h.due hq
  rw [hreply] at hreplyTo
  exact absurd ((Option.some.inj hreplyTo).symm.trans (Option.some.inj hvalue).symm) hnot

include hC in
theorem processSequenceInfo_triple (u : UaccPtr) (jObj : Json)
    (htype : getTypeFromJson jObj = (eUaOk, some bmtQuerySequence)) :
    (outline cfg C).Triple (.runner u) (Handling u (some jObj) fun _ => True)
      (processSequenceInfo u jObj) fun _ => Handling u (some jObj) fun _ => True := by
  have hlock : (op (.mutexLock .intl)).All fun o =>
      Op.kind o ≠ .query ∧ o ≠ .mutexUnlock .intl := by
    simp [Op.kind, Mutex.kind]
  refine .bind (plain_triple hC hlock) fun _ => ?_
  refine readReplyId_triple fun value => ?_
  refine .bind (R := fun _ => Handling u (some jObj) fun _ => False) ?_ fun _ => ?_
  · cases value with
    | none =>
        refine .pure stable_handling fun w _ h => ⟨h.1, fun q hq => ?_⟩
        cases h.2 q hq
    | some replyId =>
        refine doIf_triple (fun _ => answerSequence_triple hC u jObj replyId htype)
          stable_handling fun hnot w _ h => ⟨h.1, fun q hq => ?_⟩
        obtain ⟨-, hreply⟩ := h.due hq
        exact hnot (congrArg Prod.fst hreply)
  · refine Outline.Triple.perform stable_handling (fun _ => stable_handling) ?_
    intro w b w' hw h hact
    refine ⟨grants hC hact hw ⟨rfl, ?_⟩, ?_⟩
    · intro u' hu q hq
      obtain rfl := Tid.runner.inj hu
      exact (h.2 q hq).elim
    · exact handling_did hact.1.2 ⟨h.1, fun _ _ => trivial⟩

include hC in
theorem dispatchType_triple (u : UaccPtr) (jObj : Json) (type : Option String)
    (htype : getTypeFromJson jObj = (eUaOk, type)) :
    (outline cfg C).Triple (.runner u) (Handling u (some jObj) fun _ => True)
      (dispatchType u jObj type) fun _ => Handling u (some jObj) fun _ => True := by
  refine .read_bind (R := fun _ => Handling u (some jObj) fun _ => True) stable_handling
    (fun _ _ h => h) fun async => orCrash_bind fun type' heq => ?_
  subst heq
  cases hhandler : handlerOf async type' with
  | none => exact .pure stable_handling fun _ _ h => h
  | some handler =>
      obtain ⟨func, turnover⟩ := handler
      cases turnover with
      | true =>
          have hstart : (startWorker u func jObj).All
              (Within u [.dropped, .workerRunning, .workerArgs, .createWorker]) := by
            simp [startWorker, claimWorker, Within, Op.kind, Op.on, Assign.kind, Mark.kind]
          exact within_triple hC hstart (by decide)
      | false =>
          obtain ⟨hready, hprepare⟩ := handlerOf_runner hhandler
          by_cases hsequence : func = .sequenceInfo
          · subst hsequence
            rw [(handlerOf_eq hhandler).1] at htype
            exact processSequenceInfo_triple hC u jObj htype
          · by_cases hupdates : func = .queryUpdates
            · subst hupdates
              rw [(handlerOf_eq hhandler).1] at htype
              exact processQueryUpdates_triple hC u jObj htype
            · have hplain := call_within_plain u hready hprepare hsequence hupdates jObj
              exact within_triple hC hplain (by decide)

include hC in
theorem runnerPass_triple (u : UaccPtr) (msg : Option Json) :
    (outline cfg C).Triple (.runner u) (Handling u msg fun _ => True) (runnerPass u msg)
      fun _ _ => True := by
  have hfree : (ext (.freeMsg u)).All (Within u [.freeMsg]) := by
    simp [Within, Op.kind, Op.on, ExtOp.kind]
  refine .bind (R := fun _ => Handling u msg fun _ => True) ?_ fun _ =>
    (within_triple hC hfree (by decide)).post fun _ _ _ _ => trivial
  cases msg with
  | none => exact .pure stable_handling fun _ _ h => h
  | some jObj =>
      have houtdated : (isOutdated u jObj).All (Within u [.seqIn, .env]) := by
        unfold isOutdated
        simp [Within, Op.kind, Op.on, ExtOp.kind]
      refine .bind (within_triple hC houtdated (by decide)) fun outdated => ?_
      refine doIf_triple (fun hok => ?_) stable_handling fun _ _ _ h => h
      have hcallback : ∀ uar : UaRoutine, (if uar.onMessage then
          callback u .onMessage ⟨(getTypeFromJson jObj).2, none, none, none, false⟩
          else pure false).All (Within u [.env]) := by
        intro uar
        simp [Within, Op.kind, Op.on, ExtOp.kind]
      refine .read_bind (R := fun _ => Handling u (some jObj) fun _ => True) stable_handling
        (fun _ _ h => h) fun uar => ?_
      refine .bind (within_triple hC (hcallback uar) (by decide)) fun processed => ?_
      refine doIf_triple (fun _ => dispatchType_triple hC u jObj _ ?_) stable_handling
        fun _ _ _ h => h
      exact Prod.ext hok.2 rfl

include hC in
theorem outline_sound : (outline cfg C).Sound where
  init := by
    rintro w ⟨htrace, -⟩
    refine ⟨Or.inl ?_, fun _ => trivial⟩
    rw [htrace]
    rfl
  restart := by
    rintro w w' - ⟨htrace, -⟩
    refine ⟨Or.inl ?_, fun _ => trivial⟩
    rw [htrace]
    rfl
  stable := fun _ => Outline.stable_const True
  arrive := by
    rintro t p w w' hw - ⟨⟨e, harrive, rfl⟩, -⟩
    have hsame : outstanding (e :: w.trace) = outstanding w.trace := by
      cases harrive <;> rfl
    refine ⟨?_, ?_, ?_, ?_⟩
    · rcases hw with hnil | ⟨q, hone, hid⟩
      · exact Or.inl (hsame.trans hnil)
      · exact Or.inr ⟨q, hsame.trans hone, hid⟩
    · intro e' he
      obtain ⟨rfl, -⟩ := List.cons.inj he
      cases harrive <;> trivial
    · cases harrive with
      | message u msg hreg => exact ⟨msg, rfl, by simp [latest]⟩
      | presence connected => trivial
    · rintro t₂ hne u rfl
      cases harrive with
      | message u' msg hreg =>
          have hu : u' ≠ u := fun h => hne (by rw [h])
          simp [Due, Accepted, latest, sinceLatest, outstanding, hu, Event.records, Event.accepts]
      | presence connected =>
          simp [Due, Accepted, latest, sinceLatest, outstanding, Event.records, Event.accepts]
  body := by
    intro t p w hw hstart
    have hother : (∀ u, t ≠ .runner u) → (outline cfg C).wp t p (fun _ _ => True) w := by
      intro ht
      have hplain : (outline cfg C).Triple t (fun _ => True) p fun _ _ => True := by
        refine (Outline.Triple.frame (P := fun _ => True) (Outline.stable_const True) ?_
          (Prog.all_true p)).post fun _ _ _ _ => trivial
        intro o b w w' _ hw _ hact
        refine ⟨grants hC hact hw ?_, trivial⟩
        unfold Conduct
        split <;> simp_all
      exact hplain w hw trivial
    cases t with
    | runner u =>
        obtain ⟨msg, rfl, hlatest⟩ := hstart
        exact runnerPass_triple hC u msg w hw ⟨hlatest, fun _ _ => trivial⟩
    | worker | resume | bus | presence | sequence => exact hother (by simp)

/-- What is known of an event and the history before it. -/
structure Answering (e : Event) (h : List Event) : Prop where
  cleared : ∀ u, e = .did (.runner u) (.assignIntl (.queryReplyId none)) () →
    ∀ q ∈ outstanding h, Answers q (latest u h) ∧ Accepted u q.kind h
  processed : ∀ u, e = .did (.runner u) (.mutexUnlock .intl) () →
    ∀ q, Due u q h → q.kind ≠ .sequenceInfo

theorem answering_of_conduct {e : Event} (hw : Kept w) (hC : OnlyForAnswers t e w)
    (hconduct : Conduct t e w) : Answering e w.trace := by
  constructor
  · rintro u rfl q hq
    obtain ⟨rfl, haccepted⟩ := hconduct
    rcases hC with hnone | ⟨-, hprocesses⟩
    · rw [hw.eq_nil hnone] at hq
      cases hq
    · obtain ⟨u', hu, q', hdue⟩ := runner_of_processes hprocesses
      obtain rfl := Tid.runner.inj hu
      have heq : q = q' := by
        rcases hw with hnil | ⟨q'', hone, -⟩
        · rw [hnil] at hq
          cases hq
        · have hq' := hdue.1
          rw [hone, List.mem_singleton] at hq hq'
          rw [hq, hq']
      subst heq
      exact ⟨hdue.2.1, haccepted u rfl q hdue⟩
  · rintro u rfl q hdue
    obtain ⟨rfl, hnot⟩ := hconduct
    exact hnot u rfl q hdue

theorem answering_of_reachable {c : AgentConfiguration}
    (hc : (runsWhere cfg OnlyForAnswers).Reachable c) :
    Kept c.st ∧ Throughout Answering c.st.trace := by
  have hsound : (outline cfg OnlyForAnswers).Sound := outline_sound fun _ _ _ h => h
  refine ⟨hsound.inv hc, throughout_of_sound hsound rfl ?_ ?_ hc⟩
  · exact fun t e w hw hmeets hconduct => answering_of_conduct hw hmeets hconduct
  · exact fun h => ⟨nofun, nofun⟩

/-- In every run in which reply ids are only cleared for answers and only recorded where there
is none: an outstanding query is recorded; when a runner clears the id of an outstanding
query, its message is the answer and the runner has accepted it; and when a runner has
processed a sequence-info message, the query that it answers is not left outstanding. -/
theorem outstanding_queries_answered (cfg : AgentConfig) (c : AgentConfiguration)
    (hc : (runsWhere cfg OnlyForAnswers).Reachable c) :
    (∀ q ∈ outstanding c.st.trace, c.st.shared.intl.queryReplyId = some q.replyId) ∧
    (∀ after before u, c.st.trace =
        after ++ .did (.runner u) (.assignIntl (.queryReplyId none)) () :: before →
      ∀ q ∈ outstanding before, Answers q (latest u before) ∧ Accepted u q.kind before) ∧
    (∀ after before u, c.st.trace = after ++ .did (.runner u) (.mutexUnlock .intl) () :: before →
      ∀ q, Due u q before → q.kind ≠ .sequenceInfo) := by
  obtain ⟨hkept, hanswering⟩ := answering_of_reachable hc
  refine ⟨?_, ?_, ?_⟩
  · intro q hq
    rcases hkept with hnil | ⟨q', hone, hid⟩
    · rw [hnil] at hq
      cases hq
    · rw [hone, List.mem_singleton] at hq
      rw [hq, hid]
  · intro after before u htrace
    rw [htrace] at hanswering
    exact hanswering.split.cleared u rfl
  · intro after before u htrace
    rw [htrace] at hanswering
    exact hanswering.split.processed u rfl

/-- A message of the type with the reply id. -/
def reply (type replyTo : String) : Json :=
  .object [("type", .string type), ("reply-to", .string replyTo), ("body", .object
    [("change-notification-sequences", .object [("per-update", .object [("pkg", .int 3)])])])]

/-- The DM client connects, the sequence numbers are asked for, and a message arrives. -/
def askedAndReplied (C : Tid → Event → World → Prop) [∀ t e w, Decidable (C t e w)]
    (msg : Json) : AgentConfiguration :=
  rehearse (sampleConfig false 1) C (usualOracle "1")
    [connected _ _, .steps .bus 10, .steps (.sequence 0) 8, message _ _ 0 Nat.one_pos msg,
      .steps (.runner 0) 20]

theorem outstanding_queries_answered_example :
    let h := (askedAndReplied OnlyForAnswers (reply bmtQuerySequence "reply")).st.trace
    h.drop 2 = .did (.runner 0) (.assignIntl (.queryReplyId none)) () :: h.drop 3 ∧
      outstanding (h.drop 3) = [⟨.sequenceInfo, "reply"⟩] ∧
      Answers ⟨.sequenceInfo, "reply"⟩ (latest 0 (h.drop 3)) ∧
      Accepted 0 .sequenceInfo (h.drop 3) := by
  intro h
  have hcleared : h.drop 2 = .did (.runner 0) (.assignIntl (.queryReplyId none)) () :: h.drop 3 :=
    rfl
  have hone : outstanding (h.drop 3) = [⟨.sequenceInfo, "reply"⟩] := by decide +kernel
  have htrace : h =
      h.take 2 ++ .did (.runner 0) (.assignIntl (.queryReplyId none)) () :: h.drop 3 := by
    rw [← hcleared, List.take_append_drop]
  obtain ⟨-, hanswered, -⟩ := outstanding_queries_answered (sampleConfig false 1)
    (askedAndReplied OnlyForAnswers (reply bmtQuerySequence "reply")) (rehearse_reachable _ _ _ _)
  exact ⟨hcleared, hone, hanswered _ _ 0 htrace _ (by rw [hone]; exact List.mem_singleton.mpr rfl)⟩

/-- A query-updates message with another reply id clears the id of the query for sequence
numbers. -/
theorem query_lost :
    ¬∀ (cfg : AgentConfig) (c : AgentConfiguration), (agent cfg).Reachable c →
      ∀ q ∈ outstanding c.st.trace, c.st.shared.intl.queryReplyId = some q.replyId := by
  intro hall
  have hlost := hall (sampleConfig false 1)
    (askedAndReplied Anything (reply bmtQueryUpdates "other")) (agent_reachable _ _ _)
  have hone : outstanding (askedAndReplied Anything (reply bmtQueryUpdates "other")).st.trace =
      [⟨.sequenceInfo, "reply"⟩] := by
    decide +kernel
  have hnone : (askedAndReplied Anything
      (reply bmtQueryUpdates "other")).st.shared.intl.queryReplyId = none := by
    decide +kernel
  rw [hone, hnone] at hlost
  exact absurd (hlost _ (List.mem_singleton.mpr rfl)) nofun

end EsyncUa.Queries
