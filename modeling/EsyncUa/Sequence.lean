import EsyncUa.Rehearsals
import EsyncUa.Rules

/-!
The incoming sequence numbers. A message that carries a number and names a package is
checked against the numbers that were entered for this package since the agent was
started, and its own number is entered if the check is passed. Everything here is about
the history of a run: which message a check belongs to, which numbers have been entered,
and what the runner still does after a check.
-/
namespace EsyncUa.Sequence

open EsyncUa.JsonProperties EsyncUa.Components EsyncUa.Records EsyncUa.Programs
open EsyncUa.Operations EsyncUa.Installation EsyncUa.Updater EsyncUa.Messages EsyncUa.Machines
open EsyncUa.Outlines EsyncUa.Rules EsyncUa.Agents EsyncUa.Footprints EsyncUa.Frames

/-- The message that the runner of a component took from its queue last, since the agent was
started. -/
def latest (u : UaccPtr) : List Event → Option (Option Json)
  | [] => none
  | .rebooted :: _ => none
  | .received u' msg :: h => if u' = u then some msg else latest u h
  | _ :: h => latest u h

/-- The result of the check of the latest message: whether it is outdated. -/
def verdict (u : UaccPtr) : List Event → Option Bool
  | [] => none
  | .received u' _ :: h => if u' = u then none else verdict u h
  | .did (.runner u') (.chkIncomingSeq _ _ _) outdated :: h =>
      if u' = u then some outdated else verdict u h
  | _ :: h => verdict u h

/-- The package and the number that `process_message` checks. -/
def sequenced (jObj : Json) : Option (String × Int32) :=
  if (getSeqNumFromJson jObj (-1)).1 = eUaOk ∧ (getPkgNameFromJson jObj none).1 = eUaOk then
    (getPkgNameFromJson jObj none).2.map fun name => (name, (getSeqNumFromJson jObj (-1)).2)
  else none

/-- The package and the number in an update record. -/
def recordSequence (cc : Json) : Option (String × Int32) :=
  let name := (getString cc [some "package", some "name"] none).2
  let seq := getInt cc [some "update-command-sequence"] 0
  if seq.1 = eUaOk then name.map fun name => (name, seq.2.toInt32) else none

def IsRecord (cc : Json) : Prop := ∃ c ctrl, cc = updateGetCompContextJo c ctrl

theorem seqIn_of_record {cc : Json} (hcc : IsRecord cc) (c : UaComponentContext)
    (ctrl : Table CompCtrl) :
    (updateSetCompContext c ctrl cc).2.1.seqIn =
      match recordSequence cc with
      | some (name, num) => (handlerChkIncomingSeqOutdated c.seqIn name num).1
      | none => c.seqIn := by
  obtain ⟨c₀, ctrl₀, rfl⟩ := hcc
  have hname : (getString (updateGetCompContextJo c₀ ctrl₀) [some "package", some "name"]
      none).2 = some (nullStr c₀.updatePkg.name) := by
    simp [getString, jsonGetProperty, updateGetCompContextJo, updateGetPkgInfoJo, Json.field?,
      Json.isType, Json.string?, List.lookup_cons]
  simp only [updateSetCompContext_record, recordSequence, hname, getInt_sequence_record]
  cases h : c₀.updatePkg.name.bind c₀.seqIn <;> simp [restored]

/-- The numbers entered for a package since the agent was started, newest first. -/
def numbersOf (u : UaccPtr) (name : String) : List Event → List Int32
  | [] => []
  | .rebooted :: _ => []
  | .did _ (.chkIncomingSeq u' name' num) false :: h =>
      if u' = u ∧ name' = name then num :: numbersOf u name h else numbersOf u name h
  | .did _ (.setCompContext u' cc) _ :: h =>
      match recordSequence cc with
      | some (name', num) =>
          if u' = u ∧ name' = name then num :: numbersOf u name h else numbersOf u name h
      | none => numbersOf u name h
  | _ :: h => numbersOf u name h

/-- The entry of a table is the largest of the numbers entered. -/
def IsEntry (entry : Option Int32) (nums : List Int32) : Prop :=
  match entry with
  | some s => s ∈ nums ∧ ∀ m ∈ nums, m ≤ s
  | none => nums = []

theorem outdated_iff {seq : Table Int32} {name : String} {nums : List Int32}
    (h : IsEntry (seq name) nums) (num : Int32) :
    (handlerChkIncomingSeqOutdated seq name num).2 = true ↔ ∃ m ∈ nums, num ≤ m := by
  unfold handlerChkIncomingSeqOutdated
  cases hentry : seq name with
  | none =>
      rw [hentry] at h
      simp [show nums = [] from h]
  | some s =>
      rw [hentry] at h
      by_cases hs : s ≥ num
      · simp only [hs, if_true, true_iff]
        exact ⟨s, h.1, hs⟩
      · simp only [hs, if_false, Bool.false_eq_true, false_iff]
        rintro ⟨m, hm, hle⟩
        exact hs (Int32.le_trans hle (h.2 m hm))

theorem chk_of_outdated {seq : Table Int32} {name : String} {num : Int32}
    (h : (handlerChkIncomingSeqOutdated seq name num).2 = true) :
    (handlerChkIncomingSeqOutdated seq name num).1 = seq := by
  unfold handlerChkIncomingSeqOutdated at h ⊢
  split at h
  · split at h <;> simp_all
  · simp at h

theorem chk_other (seq : Table Int32) {name name' : String} (num : Int32) (h : name' ≠ name) :
    (handlerChkIncomingSeqOutdated seq name num).1 name' = seq name' := by
  unfold handlerChkIncomingSeqOutdated
  split
  · split
    · rfl
    · exact Table.set_of_ne _ _ h
  · exact Table.set_of_ne _ _ h

theorem isEntry_chk {seq : Table Int32} {name : String} {nums : List Int32}
    (h : IsEntry (seq name) nums) (num : Int32) :
    IsEntry ((handlerChkIncomingSeqOutdated seq name num).1 name) (num :: nums) := by
  unfold handlerChkIncomingSeqOutdated
  cases hentry : seq name with
  | none =>
      rw [hentry] at h
      simp [IsEntry, show nums = [] from h]
  | some s =>
      rw [hentry] at h
      by_cases hs : s ≥ num
      · simp only [hs, if_true, hentry]
        exact ⟨List.mem_cons_of_mem _ h.1, by simpa [h.2] using ⟨hs, h.2⟩⟩
      · simp only [hs, if_false, Table.set_self]
        have hlt : s < num := by simpa using hs
        refine ⟨List.mem_cons_self, ?_⟩
        simp only [List.mem_cons, forall_eq_or_imp, Int32.le_refl, true_and]
        exact fun m hm => Int32.le_trans (h.2 m hm) (Int32.le_of_lt hlt)

/-! Which message a check belongs to, and what follows it. -/

/-- What the runner may do next with its latest message: a message that is sequenced is
checked first, and a message that has been refused is only freed. -/
def Follows (u : UaccPtr) (h : List Event) (o : Op) : Prop :=
  match verdict u h with
  | some true => o = .ext (.freeMsg u)
  | some false => True
  | none => ∀ jObj name num, latest u h = some (some jObj) →
      sequenced jObj = some (name, num) → o = .chkIncomingSeq u name num

/-- A check is one of the latest message by its runner, which does what follows. A record that
is applied was written by the agent. -/
def Conduct (t : Tid) (e : Event) (w : World) : Prop :=
  match e with
  | .did t' o _ => t' = t ∧
      (∀ u name num, o = .chkIncomingSeq u name num → t = .runner u ∧
        ∃ jObj, latest u w.trace = some (some jObj) ∧ sequenced jObj = some (name, num)) ∧
      (∀ u, t = .runner u → Follows u w.trace o) ∧
      (∀ u cc, o = .setCompContext u cc → IsRecord cc)
  | _ => True

/-- Every whole record on the disk was written by the agent. -/
def Written (w : World) : Prop :=
  ∀ path joRec, w.shared.records path = some (.whole joRec) → IsRecord joRec

def start (t : Tid) (p : UaProg Unit) (w : World) : Prop :=
  match t with
  | .runner u => ∃ msg, p = runnerPass u msg ∧ latest u w.trace = some msg ∧
      verdict u w.trace = none
  | .bus => ∃ n connected, p = handlePresence n connected
  | _ => p.All fun o => Op.kind o ≠ .seqIn ∧ Op.kind o ≠ .setContext

variable (cfg : AgentConfig) (C : Tid → Event → World → Prop)

def outline : Outline (runsWhere cfg C) where
  inv := Written
  rely := fun t w w' => ∀ u, t = .runner u →
    latest u w'.trace = latest u w.trace ∧ verdict u w'.trace = verdict u w.trace
  guar := WhenEvents Conduct
  start := start
  post := fun _ _ => True

variable {cfg C} {t : Tid} {o : Op} {b : o.Ans} {w w' : World}

theorem written_act (hact : (agent cfg).act t o b w w') (hw : Written w) : Written w' := by
  obtain ⟨heffect, -⟩ := hact
  intro path joRec hrec
  have hchange := effect_records heffect
  generalize hr : w'.shared.records = records at hchange hrec
  cases hchange with
  | none => exact hw path joRec hrec
  | opened path' =>
      by_cases hp : path = path'
      · simp [hp] at hrec
      · exact hw path joRec (by simpa [hp] using hrec)
  | written path' u =>
      by_cases hp : path = path'
      · simp only [hp, Function.update_self, Option.some.injEq, RecordContent.whole.injEq] at hrec
        exact ⟨_, _, hrec.symm⟩
      · exact hw path joRec (by simpa [hp] using hrec)
  | torn path' u =>
      by_cases hp : path = path'
      · simp [hp] at hrec
      · exact hw path joRec (by simpa [hp] using hrec)
  | removed path' =>
      by_cases hp : path = path'
      · simp [hp] at hrec
      · exact hw path joRec (by simpa [hp] using hrec)

theorem latest_did (u : UaccPtr) (h : List Event) : latest u (.did t o b :: h) = latest u h := rfl

theorem verdict_did (u : UaccPtr) (h : List Event)
    (hne : t ≠ .runner u ∨ Op.kind o ≠ .seqIn) :
    verdict u (.did t o b :: h) = verdict u h := by
  cases o with
  | chkIncomingSeq u' name num =>
      cases t with
      | runner u₂ =>
          have hu : u₂ ≠ u := by
            rintro rfl
            simp [Op.kind] at hne
          simp [verdict, hu]
      | _ => rfl
  | _ => cases t <;> rfl

theorem fork_start {t' : Tid} {p : UaProg Unit} (h : fork t o b = some (t', p)) (w : World) :
    start t' p w := by
  have hworker : ∀ k ∈ .workerRunning :: callKinds, k ≠ .seqIn ∧ k ≠ .setContext := by decide
  have hresume : ∀ k ∈ .workerRunning :: resumeKinds, k ≠ .seqIn ∧ k ≠ .setContext := by decide
  rcases fork_cases h with ⟨u, n, -, rfl, rfl⟩ | ⟨u, -, rfl, rfl⟩ | ⟨n, -, rfl, rfl⟩ |
    ⟨n, passes, -, rfl, rfl⟩
  · exact (workerAction_within u).mono fun o ho => hworker _ ho.2
  · exact (updateResumeFromReboot_within u).mono fun o ho => hresume _ ho.2
  · simp [start, uaHandleDmcPresence, Op.kind, AssignIntl.kind]
  · refine updateSequenceInfo_all (fun o _ hkind => ?_) (passes + 1)
    have hsequence : ∀ k ∈ [Kind.intlLock, .env, .query, .send, .pass],
        k ≠ .seqIn ∧ k ≠ .setContext := by decide
    exact hsequence _ hkind

/-- What one operation owes to the outline. -/
theorem grants (hact : (runsWhere cfg C).act t o b w w') (hw : Written w)
    (hchk : ∀ u name num, o = .chkIncomingSeq u name num → t = .runner u ∧
      ∃ jObj, latest u w.trace = some (some jObj) ∧ sequenced jObj = some (name, num))
    (hfollows : ∀ u, t = .runner u → Follows u w.trace o)
    (hrecord : ∀ u cc, o = .setCompContext u cc → IsRecord cc) :
    (outline cfg C).Grants t o b w w' := by
  obtain ⟨hact, -⟩ := hact
  refine ⟨written_act hact hw, ?_, ?_, fun t₂ p _ hfork _ => fork_start (t := t) hfork w'⟩
  · intro e he
    obtain ⟨rfl, -⟩ := List.cons.inj (hact.2.symm.trans he)
    exact ⟨rfl, hchk, hfollows, hrecord⟩
  · rintro t₂ hne - u rfl
    rw [hact.2, latest_did, verdict_did u _ (.inl hne.symm)]
    exact ⟨rfl, rfl⟩

/-- The runner handles the message, whose check has had this result, if any. -/
def Handling (u : UaccPtr) (msg : Option Json) (outdated : Option Bool) (w : World) : Prop :=
  latest u w.trace = some msg ∧ verdict u w.trace = outdated

theorem stable_handling (u : UaccPtr) (msg : Option Json) (outdated : Option Bool) :
    (outline cfg C).Stable (.runner u) (Handling u msg outdated) := by
  intro w w' _ h hkept _
  obtain ⟨hlatest, hverdict⟩ := hkept u rfl
  exact ⟨hlatest.trans h.1, hverdict.trans h.2⟩

/-- A message that was not refused and needs no more check. -/
def Passed (msg : Option Json) (outdated : Option Bool) : Prop :=
  outdated = some false ∨ outdated = none ∧ ∀ jObj, msg = some jObj → sequenced jObj = none

theorem follows_passed {u : UaccPtr} {msg : Option Json} {outdated : Option Bool}
    (hpassed : Passed msg outdated) (h : Handling u msg outdated w) (o : Op) :
    Follows u w.trace o := by
  unfold Follows
  rw [h.2]
  rcases hpassed with rfl | ⟨rfl, hmsg⟩
  · trivial
  · intro jObj name num hlatest hsequenced
    have heq : msg = some jObj := Option.some.inj (h.1.symm.trans hlatest)
    simp [hmsg jObj heq] at hsequenced

theorem handling_frame {α : Type} {u : UaccPtr} {msg : Option Json} {outdated : Option Bool}
    {p : UaProg α} {ks : List Kind} (hpassed : Passed msg outdated) (hp : p.All (Within u ks))
    (hks : ∀ k ∈ ks, k ≠ .seqIn ∧ k ≠ .setContext) :
    (outline cfg C).Triple (.runner u) (Handling u msg outdated) p
      fun _ => Handling u msg outdated := by
  refine (Outline.Triple.frame (stable_handling u msg outdated) (fun o b w w' ho hw h hact => ?_)
    hp).post fun a w _ h => h.1
  obtain ⟨hseq, hset⟩ := hks _ ho.2
  refine ⟨grants hact hw ?_ ?_ ?_, ?_⟩
  · rintro u' name num rfl
    exact absurd rfl hseq
  · intro u' hu
    obtain rfl := Tid.runner.inj hu
    exact follows_passed hpassed h o
  · rintro u' cc rfl
    exact absurd rfl hset
  · rw [Handling, hact.1.2, latest_did, verdict_did u _ (.inr hseq)]
    exact h

/-- What the check has found out. -/
def Checked (u : UaccPtr) (msg : Option Json) (outdated : Bool) (w : World) : Prop :=
  if outdated then Handling u msg (some true) w
  else ∃ v, Passed msg v ∧ Handling u msg v w

theorem stable_checked (u : UaccPtr) (msg : Option Json) (outdated : Bool) :
    (outline cfg C).Stable (.runner u) (Checked u msg outdated) := by
  cases outdated with
  | true => exact stable_handling u msg (some true)
  | false =>
      exact Outline.stable_exists fun v =>
        (Outline.stable_const (Passed msg v)).and (stable_handling u msg v)

theorem isOutdated_triple (u : UaccPtr) (jObj : Json) :
    (outline cfg C).Triple (.runner u) (Handling u (some jObj) none) (isOutdated u jObj)
      fun outdated => Checked u (some jObj) outdated := by
  refine Outline.Triple.ite (fun hok => ?_) fun hnot => ?_
  · refine orCrash_bind fun name hname => ?_
    have hsequenced : sequenced jObj = some (name, (getSeqNumFromJson jObj (-1)).2) := by
      simp [sequenced, hok, hname]
    refine Outline.Triple.perform (stable_handling u _ none) (stable_checked u _) ?_
    intro w b w' hw h hact
    have hgrants := grants hact hw (by
      rintro _ _ _ ⟨⟩
      exact ⟨rfl, jObj, h.1, hsequenced⟩) (by
      intro u' hu
      obtain rfl := Tid.runner.inj hu
      simp only [Follows, h.2, h.1, Option.some.injEq]
      rintro _ name' num' rfl hsequenced'
      obtain ⟨rfl, rfl⟩ := Prod.mk.inj (Option.some.inj (hsequenced.symm.trans hsequenced'))
      rfl) (by rintro _ _ ⟨⟩)
    have hhandling : Handling u (some jObj) (some b) w' := by
      rw [Handling, hact.1.2, latest_did]
      exact ⟨h.1, by simp [verdict]⟩
    refine ⟨hgrants, ?_⟩
    cases b with
    | true => exact hhandling
    | false => exact ⟨some false, .inl rfl, hhandling⟩
  · refine .pure (stable_handling u _ none) fun w _ h => ⟨none, .inr ⟨rfl, ?_⟩, h⟩
    intro jObj' hmsg
    obtain rfl := Option.some.inj hmsg
    simp [sequenced, hnot]

theorem freeMsg_triple (u : UaccPtr) (msg : Option Json) (outdated : Bool) :
    (outline cfg C).Triple (.runner u) (Checked u msg outdated) (ext (.freeMsg u))
      fun _ _ => True := by
  refine Outline.Triple.perform (stable_checked u msg outdated)
    (fun _ => Outline.stable_const _) ?_
  intro w b w' hw h hact
  refine ⟨grants hact hw (by rintro _ _ _ ⟨⟩) ?_ (by rintro _ _ ⟨⟩), trivial⟩
  intro u' hu
  obtain rfl := Tid.runner.inj hu
  cases outdated with
  | true =>
      have hverdict : verdict u w.trace = some true := And.right h
      simp [Follows, hverdict]
  | false =>
      obtain ⟨v, hpassed, hhandling⟩ := h
      exact follows_passed hpassed hhandling _

theorem runnerPass_triple (u : UaccPtr) (msg : Option Json) :
    (outline cfg C).Triple (.runner u) (Handling u msg none) (runnerPass u msg)
      fun _ _ => True := by
  cases msg with
  | none =>
      refine (freeMsg_triple u none false).pre fun w _ h => ⟨none, .inr ⟨rfl, ?_⟩, h⟩
      rintro jObj ⟨⟩
  | some jObj =>
      have hdispatch : ∀ k ∈ dispatchKinds, k ≠ .seqIn ∧ k ≠ .setContext := by decide
      refine .bind (R := fun _ w => ∃ outdated, Checked u (some jObj) outdated w) ?_
        fun _ => Outline.Triple.exists_pre fun outdated => freeMsg_triple u (some jObj) outdated
      refine .bind (isOutdated_triple u jObj) fun outdated => ?_
      refine doIf_triple (fun hout => ?_) (stable_checked u _ outdated)
        fun _ w _ h => ⟨outdated, h⟩
      obtain rfl : outdated = false := by simpa using hout.1
      refine Outline.Triple.exists_pre fun v => Outline.Triple.const_pre fun hpassed => ?_
      exact (handling_frame hpassed (dispatch_within u jObj _) hdispatch).post
        fun _ w _ h => ⟨false, v, hpassed, h⟩

/-- A program that makes no check, applies only written records and is not a runner's. -/
theorem other_triple {α : Type} {p : UaProg α} (ht : ∀ u, t ≠ .runner u)
    (hp : p.All fun o => Op.kind o ≠ .seqIn ∧ ∀ u cc, o = .setCompContext u cc → IsRecord cc) :
    (outline cfg C).Triple t (fun _ => True) p fun _ _ => True := by
  refine (Outline.Triple.frame (Outline.stable_const True) (fun o b w w' ho hw _ hact => ?_)
    hp).post fun _ _ _ _ => trivial
  refine ⟨grants hact hw ?_ (fun u hu => absurd hu (ht u)) ho.2, trivial⟩
  rintro u' name num rfl
  exact absurd rfl ho.1

theorem handlePresence_triple (n : Nat) (connected : Bool) :
    (outline cfg C).Triple .bus (fun _ => True) (handlePresence n connected)
      fun _ _ => True := by
  have hbus : ∀ u, Tid.bus ≠ .runner u := by simp
  have htrue := Outline.stable_const (O := outline cfg C) (t := .bus) True
  have hplain : ∀ {α : Type} {p : UaProg α} {ks : List Kind}, p.All (fun o => Op.kind o ∈ ks) →
      (∀ k ∈ ks, k ≠ .seqIn ∧ k ≠ .setContext) →
      (outline cfg C).Triple .bus (fun _ => True) p fun _ _ => True := by
    intro α p ks hp hks
    refine other_triple hbus (hp.mono fun o ho => ⟨(hks _ ho).1, ?_⟩)
    rintro u cc rfl
    exact absurd rfl (hks _ ho).2
  have hstate : ∀ st, (assignIntl (.state st)).All fun o => Op.kind o ∈ [Kind.state] := by
    simp [Op.kind, AssignIntl.kind]
  have hpresence := spawnPresence_all (Q := fun o => Op.kind o ∈ [Kind.createPresence])
    (by simp [Op.kind])
  have hsequence : (doIf connected (ignoring (op .createSequence))).All fun o =>
      Op.kind o ∈ [Kind.createSequence] := by
    simp [Op.kind]
  refine .bind (hplain hsequence (by decide)) fun _ => ?_
  refine Outline.Triple.read_bind htrue (R := fun _ _ => True) (fun _ _ _ => trivial) fun intl => ?_
  refine .bind (R := fun _ _ => True) ?_ fun _ => hplain (hpresence n) (by decide)
  refine doIf_triple (fun _ => ?_) htrue fun _ _ _ _ => trivial
  refine .bind (R := fun content _ => ∀ joRec, content = some (.whole joRec) → IsRecord joRec) ?_
    fun content => ?_
  · refine Outline.Triple.perform htrue (fun content => Outline.stable_const _) ?_
    intro w content w' hw _ hact
    refine ⟨grants hact hw (by rintro _ _ _ ⟨⟩) (by simp) (by rintro _ _ ⟨⟩), ?_⟩
    rintro joRec rfl
    obtain ⟨⟨heffect, -⟩, -⟩ := hact
    simp only [effect] at heffect
    split at heffect
    · rename_i hcontent
      rcases hcontent with hnone | hrec
      · simp at hnone
      · obtain ⟨path, -, hpath⟩ := Option.bind_eq_some_iff.mp hrec.symm
        exact hw path joRec hpath
    · simp at heffect
  · refine Outline.Triple.pre (Outline.Triple.const_pre (P := fun _ => True) fun hrecords => ?_)
      fun w _ h => ⟨h, trivial⟩
    refine .bind (hplain (hstate .resumeStarted) (by decide)) fun _ => ?_
    refine .bind (R := fun _ _ => True) ?_ fun err => ?_
    · refine other_triple hbus (resumeContent_all ?_ ?_)
      · rintro u joRec rfl
        refine ⟨by simp [Op.kind], ?_⟩
        rintro u' cc ⟨⟩
        exact hrecords joRec rfl
      · intro u o ho
        have hks : ∀ k ∈ resumeStartKinds, k ≠ .seqIn ∧ k ≠ .setContext := by decide
        refine ⟨(hks _ ho.2).1, ?_⟩
        rintro u' cc rfl
        exact absurd rfl (hks _ ho.2).2
    · refine Outline.Triple.ite (fun _ => ?_) fun _ => .pure htrue fun _ _ _ => trivial
      have hremove : (doIf intl.recordFile.isSome (remove intl.recordFile)).All fun o =>
          Op.kind o ∈ [Kind.remove] := by
        simp [Op.kind]
      exact .bind (hplain hremove (by decide)) fun _ => hplain (hstate .resumeDone) (by decide)

theorem outline_sound : (outline cfg C).Sound where
  init := by
    rintro w ⟨-, ctrl, hw⟩
    refine ⟨?_, fun _ => trivial⟩
    intro path joRec hrec
    simp [hw, AgentConfig.started, Table.empty] at hrec
  restart := by
    rintro w w' hw ⟨-, ctrl, hw'⟩
    refine ⟨?_, fun _ => trivial⟩
    intro path joRec hrec
    rw [hw'] at hrec
    exact hw path joRec hrec
  stable := fun _ => Outline.stable_const True
  arrive := by
    rintro t p w w' hw - ⟨⟨e, harrive, rfl⟩, -⟩
    refine ⟨hw, ?_, ?_, ?_⟩
    · intro e' he
      obtain ⟨rfl, -⟩ := List.cons.inj he
      cases harrive <;> trivial
    · cases harrive with
      | message u msg hreg => exact ⟨msg, rfl, by simp [latest], by simp [verdict]⟩
      | presence connected => exact ⟨cfg.nUah, connected, rfl⟩
    · rintro t₂ hne u rfl
      cases harrive with
      | message u' msg hreg =>
          have hu : u' ≠ u := fun h => hne (by rw [h])
          exact ⟨by simp [latest, hu], by simp [verdict, hu]⟩
      | presence connected => exact ⟨rfl, rfl⟩
  body := by
    intro t p w hw hstart
    have hother : (∀ u, t ≠ .runner u) → p.All (fun o => Op.kind o ≠ .seqIn ∧
        Op.kind o ≠ .setContext) → (outline cfg C).wp t p (fun _ _ => True) w := by
      intro ht hp
      refine other_triple ht (hp.mono fun o ho => ⟨ho.1, ?_⟩) w hw trivial
      rintro u cc rfl
      exact absurd rfl ho.2
    cases t with
    | runner u =>
        obtain ⟨msg, rfl, hhandling⟩ := hstart
        exact runnerPass_triple u msg w hw hhandling
    | bus =>
        obtain ⟨n, connected, rfl⟩ := hstart
        exact handlePresence_triple n connected w hw trivial
    | worker u n => exact hother (by simp) hstart
    | resume u => exact hother (by simp) hstart
    | presence n => exact hother (by simp) hstart
    | sequence n => exact hother (by simp) hstart

/-! The table of a component and the numbers entered in its history. -/

def Entered (w : World) : Prop :=
  ∀ u name, IsEntry ((w.shared.comp u).seqIn name) (numbersOf u name w.trace)

theorem numbersOf_did (u : UaccPtr) (name : String) (h : List Event)
    (hkind : Op.kind o ∉ [.seqIn, .setContext]) :
    numbersOf u name (.did t o b :: h) = numbersOf u name h := by
  cases o with
  | chkIncomingSeq | setCompContext => simp [Op.kind] at hkind
  | _ => rfl

theorem entered_chk {u' : UaccPtr} {name' : String} {num : Int32} {outdated : Bool}
    (heffect : effect cfg t w.shared (.chkIncomingSeq u' name' num) outdated = some w'.shared)
    (htrace : w'.trace = .did t (.chkIncomingSeq u' name' num) outdated :: w.trace)
    (hw : Entered w) : Entered w' := by
  intro u name
  simp only [effect] at heffect
  split at heffect
  case isFalse => simp at heffect
  rename_i hout
  rw [htrace, ← Option.some.inj heffect]
  by_cases hu : u' = u
  · subst hu
    simp only [setComp_self]
    cases outdated with
    | true =>
        rw [chk_of_outdated hout.symm]
        exact hw u' name
    | false =>
        by_cases hname : name' = name
        · subst hname
          simpa only [numbersOf, and_self, if_true] using isEntry_chk (hw u' name') num
        · simpa only [numbersOf, hname, and_false, if_false, chk_other _ num (Ne.symm hname)]
            using hw u' name
  · rw [setComp_of_ne _ _ (Ne.symm hu)]
    cases outdated <;> simpa only [numbersOf, hu, false_and, if_false] using hw u name

theorem entered_setContext {u' : UaccPtr} {cc : Json} {err : Rc} (hcc : IsRecord cc)
    (heffect : effect cfg t w.shared (.setCompContext u' cc) err = some w'.shared)
    (htrace : w'.trace = .did t (.setCompContext u' cc) err :: w.trace) (hw : Entered w) :
    Entered w' := by
  intro u name
  simp only [effect] at heffect
  split at heffect
  case isFalse => simp at heffect
  rw [htrace, ← Option.some.inj heffect]
  by_cases hu : u' = u
  · subst hu
    simp only [setIntl_comp, setComp_self, seqIn_of_record hcc, numbersOf]
    cases recordSequence cc with
    | none => exact hw u' name
    | some entry =>
        obtain ⟨name', num⟩ := entry
        by_cases hname : name' = name
        · subst hname
          simpa only [and_self, if_true] using isEntry_chk (hw u' name') num
        · simpa only [hname, and_false, if_false, chk_other _ num (Ne.symm hname)] using hw u' name
  · rw [setIntl_comp, setComp_of_ne _ _ (Ne.symm hu)]
    simp only [numbersOf]
    cases recordSequence cc <;> simpa only [hu, false_and, if_false] using hw u name

theorem entered_act (hact : (agent cfg).act t o b w w') (hconduct : WhenEvents Conduct t w w')
    (hw : Entered w) : Entered w' := by
  obtain ⟨heffect, htrace⟩ := hact
  by_cases hkind : Op.kind o ∈ [.seqIn, .setContext]
  · simp only [List.mem_cons, List.not_mem_nil, or_false] at hkind
    rcases hkind with hkind | hkind
    · obtain ⟨u', name', num, rfl⟩ := eq_of_kind_seqIn hkind
      exact entered_chk heffect htrace hw
    · obtain ⟨u', cc, rfl⟩ := eq_of_kind_setContext hkind
      exact entered_setContext ((hconduct _ htrace).2.2.2 u' cc rfl) heffect htrace hw
  · intro u name
    have hseq := effect_frame ignores_seqIn heffect hkind u
    rw [htrace, numbersOf_did u name _ hkind, hseq]
    exact hw u name

/-- In every run, the table of a component has for each package the largest number entered. -/
theorem entered_of_reachable {c : AgentConfiguration} (h : (runsWhere cfg C).Reachable c) :
    Entered c.st := by
  have hempty : ∀ (ctrl : Table CompCtrl) (records : Table RecordContent) (h : List Event),
      (∀ u name, numbersOf u name h = []) → Entered ⟨cfg.started ctrl records, h⟩ :=
    fun ctrl records h hnil u name => hnil u name
  refine (outline_sound.strengthen h).invariant ?_ ?_ ?_ ?_
  · rintro w ⟨htrace, ctrl, hshared⟩
    obtain ⟨shared, trace⟩ := w
    obtain rfl : trace = [] := htrace
    obtain rfl : shared = _ := hshared
    exact hempty ctrl .empty [] fun _ _ => rfl
  · rintro t o b w w' hw ⟨⟨hact, -⟩, -, -, hconduct⟩
    exact entered_act hact hconduct hw
  · rintro t p w w' hw ⟨⟨⟨e, harrive, rfl⟩, -⟩, -⟩
    intro u name
    cases harrive <;> exact hw u name
  · rintro w w' - ⟨htrace, ctrl, hshared⟩
    obtain ⟨shared, trace⟩ := w'
    obtain rfl : trace = _ := htrace
    obtain rfl : shared = _ := hshared
    exact hempty ctrl w.shared.records _ fun _ _ => rfl

end EsyncUa.Sequence
