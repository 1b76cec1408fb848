import EsyncUa.Sequence

/-!
The order of the accepted sequence numbers. As long as the numbers of the messages fit into
a C `int`, those that are accepted for a package are strictly increasing; a larger number
loses its high bits on the way to the check, and a smaller one may follow it.
-/
namespace EsyncUa.SequenceOrder

open EsyncUa.JsonProperties EsyncUa.Components EsyncUa.Programs EsyncUa.Operations
open EsyncUa.Installation EsyncUa.Messages EsyncUa.Machines EsyncUa.Outlines EsyncUa.Agents
open EsyncUa.Footprints EsyncUa.Schedules EsyncUa.Rehearsals EsyncUa.Sequence

/-- The integer that a message carries as its sequence number. -/
def bodySequence (jObj : Json) : Option Int64 :=
  match jsonGetProperty .int jObj [some "body", some "sequence"] none with
  | (err, value) => if err = eUaOk then value.bind Json.int? else none

/-- The number carried by the message that is being checked. -/
def carried (u : UaccPtr) (h : List Event) : Option Int64 :=
  match latest u h with
  | some (some jObj) => bodySequence jObj
  | _ => none

/-- The numbers carried by the messages of a package that passed the check since the agent
was started, newest first. -/
def acceptedNumbers (u : UaccPtr) (name : String) : List Event → List Int64
  | [] => []
  | .rebooted :: _ => []
  | .did _ (.chkIncomingSeq u' name' _) false :: h =>
      if u' = u ∧ name' = name then (carried u h).toList ++ acceptedNumbers u name h
      else acceptedNumbers u name h
  | _ :: h => acceptedNumbers u name h

/-- Accepted numbers increase, and a check is answered by the numbers entered for the package
that it is about. -/
structure Ordered (w : World) : Prop where
  increasing : ∀ u name, (acceptedNumbers u name w.trace).Pairwise (· > ·)
  separate : ∀ u name t num outdated h,
    w.trace = .did t (.chkIncomingSeq u name num) outdated :: h →
      (outdated = true ↔ ∃ m ∈ numbersOf u name h, num ≤ m)

/-- The number of a message fits into a C `int`. -/
def FitsInt (_t : Tid) (e : Event) (_w : World) : Prop :=
  match e with
  | .received _ (some jObj) => ∀ n ∈ bodySequence jObj, n.toInt32.toInt64 = n
  | _ => True

instance (t : Tid) (e : Event) (w : World) : Decidable (FitsInt t e w) := by
  unfold FitsInt
  split
  · exact Option.decidableForallMem _
  · exact instDecidableTrue

theorem num_of_sequenced {jObj : Json} {name : String} {num : Int32} {n : Int64}
    (h : sequenced jObj = some (name, num)) (hn : bodySequence jObj = some n) :
    num = n.toInt32 := by
  unfold sequenced at h
  split at h
  · obtain ⟨_, -, hpair⟩ := Option.map_eq_some_iff.mp h
    obtain ⟨-, rfl⟩ := Prod.mk.inj hpair
    unfold bodySequence at hn
    simp only [getSeqNumFromJson, getInt]
    split at hn
    rename_i err value heq
    split at hn
    · simp [heq, hn]
    · simp at hn
  · simp at h

theorem lt_of_toInt32_lt {a b : Int64} (ha : a.toInt32.toInt64 = a) (hb : b.toInt32.toInt64 = b)
    (h : a.toInt32 < b.toInt32) : a < b := by
  rw [Int64.lt_iff_toInt_lt, ← ha, ← hb, Int32.toInt_toInt64, Int32.toInt_toInt64]
  exact Int32.lt_iff_toInt_lt.mp h

variable {cfg : AgentConfig} {t : Tid} {o : Op} {b : o.Ans} {w w' : World}

/-- The messages taken so far fit, and so do the accepted numbers, which have been entered. -/
structure Fitting (w : World) : Prop where
  latest : ∀ u jObj, latest u w.trace = some (some jObj) →
    ∀ n ∈ bodySequence jObj, n.toInt32.toInt64 = n
  accepted : ∀ u name, ∀ n ∈ acceptedNumbers u name w.trace,
    n.toInt32.toInt64 = n ∧ n.toInt32 ∈ numbersOf u name w.trace

theorem acceptedNumbers_did (u : UaccPtr) (name : String) (h : List Event)
    (hkind : Op.kind o ≠ .seqIn) :
    acceptedNumbers u name (.did t o b :: h) = acceptedNumbers u name h := by
  cases o with
  | chkIncomingSeq => simp [Op.kind] at hkind
  | _ => rfl

theorem mem_numbersOf_did {u : UaccPtr} {name : String} {h : List Event} {m : Int32}
    (hm : m ∈ numbersOf u name h) : m ∈ numbersOf u name (.did t o b :: h) := by
  cases o with
  | chkIncomingSeq u' name' num =>
      cases b with
      | true => exact hm
      | false =>
          simp only [numbersOf]
          split
          · exact List.mem_cons_of_mem _ hm
          · exact hm
  | setCompContext u' cc =>
      simp only [numbersOf]
      split
      · split
        · exact List.mem_cons_of_mem _ hm
        · exact hm
      · exact hm
  | _ => exact hm

/-- What holds of every state in a run whose numbers fit. -/
structure Invariant (w : World) : Prop where
  entered : Entered w
  fitting : Fitting w
  ordered : Ordered w

theorem invariant_other (hw : Invariant w) (htrace : w'.trace = .did t o b :: w.trace)
    (hentered : Entered w') (hkind : Op.kind o ≠ .seqIn) : Invariant w' where
  entered := hentered
  fitting :=
    { latest := fun u jObj h => hw.fitting.latest u jObj (by rwa [htrace] at h)
      accepted := by
        intro u name n hn
        rw [htrace, acceptedNumbers_did u name _ hkind] at hn
        obtain ⟨hfit, hmem⟩ := hw.fitting.accepted u name n hn
        exact ⟨hfit, htrace ▸ mem_numbersOf_did hmem⟩ }
  ordered :=
    { increasing := by
        intro u name
        rw [htrace, acceptedNumbers_did u name _ hkind]
        exact hw.ordered.increasing u name
      separate := by
        intro u name t' num outdated h heq
        obtain ⟨he, -⟩ := List.cons.inj (htrace.symm.trans heq)
        obtain ⟨-, rfl, -⟩ := Event.did.inj he
        simp [Op.kind] at hkind }

theorem separate_chk {u' : UaccPtr} {name' : String} {num' : Int32} {outdated' : Bool}
    (hw : Entered w)
    (heffect : effect cfg t w.shared (.chkIncomingSeq u' name' num') outdated' = some w'.shared) :
    outdated' = true ↔ ∃ m ∈ numbersOf u' name' w.trace, num' ≤ m := by
  simp only [effect] at heffect
  split at heffect
  · rename_i hout
    rw [hout]
    exact outdated_iff (hw u' name') num'
  · simp at heffect

/-- A number that passes the check is larger than all that have been accepted before. -/
theorem invariant_accepted {u' : UaccPtr} {name' : String} {num' : Int32} {jObj : Json}
    (hw : Invariant w) (htrace : w'.trace = .did t (.chkIncomingSeq u' name' num') false :: w.trace)
    (hlatest : latest u' w.trace = some (some jObj))
    (hsequenced : sequenced jObj = some (name', num'))
    (hgreater : ∀ m ∈ numbersOf u' name' w.trace, m < num') (u : UaccPtr) (name : String) :
    (acceptedNumbers u name w'.trace).Pairwise (· > ·) ∧
      ∀ n ∈ acceptedNumbers u name w'.trace,
        n.toInt32.toInt64 = n ∧ n.toInt32 ∈ numbersOf u name w'.trace := by
  rw [htrace]
  by_cases hsame : u' = u ∧ name' = name
  · obtain ⟨rfl, rfl⟩ := hsame
    have hold := hw.fitting.accepted u' name'
    cases hn : bodySequence jObj with
    | none =>
        simp only [acceptedNumbers, numbersOf, and_self, if_true, carried, hlatest, hn,
          Option.toList_none, List.nil_append]
        exact ⟨hw.ordered.increasing u' name', fun n hmem =>
          ⟨(hold n hmem).1, List.mem_cons_of_mem _ (hold n hmem).2⟩⟩
    | some n =>
        have hfit := hw.fitting.latest u' jObj hlatest n hn
        obtain rfl := num_of_sequenced hsequenced hn
        simp only [acceptedNumbers, numbersOf, and_self, if_true, carried, hlatest, hn,
          Option.toList_some, List.singleton_append, List.pairwise_cons, List.mem_cons,
          forall_eq_or_imp, true_or, and_true]
        refine ⟨⟨fun n' hmem => ?_, hw.ordered.increasing u' name'⟩, hfit,
          fun n' hmem => ⟨(hold n' hmem).1, .inr (hold n' hmem).2⟩⟩
        exact lt_of_toInt32_lt (hold n' hmem).1 hfit (hgreater _ (hold n' hmem).2)
  · simp only [acceptedNumbers, numbersOf, hsame, if_false]
    exact ⟨hw.ordered.increasing u name, hw.fitting.accepted u name⟩

theorem invariant_act (hw : Invariant w) (hact : (agent cfg).act t o b w w')
    (hconduct : WhenEvents Conduct t w w') : Invariant w' := by
  have hentered := entered_act hact hconduct hw.entered
  obtain ⟨heffect, htrace⟩ := hact
  by_cases hkind : Op.kind o = .seqIn
  · obtain ⟨u', name', num', rfl⟩ := eq_of_kind_seqIn hkind
    have hseparate := separate_chk hw.entered heffect
    obtain ⟨jObj, hlatest, hsequenced⟩ := ((hconduct _ htrace).2.1 u' name' num' rfl).2
    have hlatest' : ∀ u jObj, latest u w'.trace = some (some jObj) →
        ∀ n ∈ bodySequence jObj, n.toInt32.toInt64 = n :=
      fun u jObj h => hw.fitting.latest u jObj (by rwa [htrace] at h)
    have hhead : ∀ u name t num outdated h,
        w'.trace = .did t (.chkIncomingSeq u name num) outdated :: h →
          (outdated = true ↔ ∃ m ∈ numbersOf u name h, num ≤ m) := by
      intro u name t₂ num outdated h heq
      obtain ⟨he, rfl⟩ := List.cons.inj (htrace.symm.trans heq)
      cases he
      exact hseparate
    cases b with
    | true =>
        have hsame : ∀ u name, acceptedNumbers u name w'.trace = acceptedNumbers u name w.trace ∧
            numbersOf u name w'.trace = numbersOf u name w.trace := by
          intro u name
          rw [htrace]
          exact ⟨rfl, rfl⟩
        refine ⟨hentered, ⟨hlatest', fun u name => ?_⟩, fun u name => ?_, hhead⟩
        · rw [(hsame u name).1, (hsame u name).2]
          exact hw.fitting.accepted u name
        · rw [(hsame u name).1]
          exact hw.ordered.increasing u name
    | false =>
        have hgreater : ∀ m ∈ numbersOf u' name' w.trace, m < num' := by
          intro m hm
          by_contra hle
          exact Bool.false_ne_true (hseparate.mpr ⟨m, hm, by simpa using hle⟩)
        have haccepted := invariant_accepted hw htrace hlatest hsequenced hgreater
        exact ⟨hentered, ⟨hlatest', fun u name => (haccepted u name).2⟩,
          fun u name => (haccepted u name).1, hhead⟩
  · exact invariant_other hw htrace hentered hkind

/-- A state in which nothing has been accepted yet. -/
theorem invariant_fresh (hentered : Entered w)
    (hlatest : ∀ u jObj, latest u w.trace = some (some jObj) →
      ∀ n ∈ bodySequence jObj, n.toInt32.toInt64 = n)
    (hempty : ∀ u name, acceptedNumbers u name w.trace = [])
    (hhead : ∀ t o b h, w.trace ≠ .did t o b :: h) : Invariant w where
  entered := hentered
  fitting := ⟨hlatest, fun u name n hn => by simp [hempty] at hn⟩
  ordered := ⟨fun u name => by simp [hempty], fun u name t num outdated h heq =>
    absurd heq (hhead _ _ _ _)⟩

theorem invariant_arrive {p : UaProg Unit} {e : Event} (hw : Invariant w)
    (harrive : Arrive cfg t p e) (hfits : FitsInt t e w)
    (hentered : Entered { w with trace := e :: w.trace }) :
    Invariant { w with trace := e :: w.trace } := by
  cases harrive with
  | message u' msg hreg =>
      refine ⟨hentered, ⟨fun u jObj h => ?_, hw.fitting.accepted⟩, hw.ordered.increasing, ?_⟩
      · simp only [latest] at h
        split at h
        · obtain rfl := Option.some.inj h
          exact hfits
        · exact hw.fitting.latest u jObj h
      · intro u name t num outdated h heq
        cases heq
  | presence =>
      refine ⟨hentered, ⟨hw.fitting.latest, hw.fitting.accepted⟩, hw.ordered.increasing, ?_⟩
      intro u name t num outdated h heq
      cases heq

/-- The accepted sequence numbers of a package increase in every run whose numbers fit into a
C `int`, and the numbers of other packages play no part in it. -/
theorem accepted_sequence_numbers_increase (cfg : AgentConfig) (c : AgentConfiguration)
    (h : (runsWhere cfg FitsInt).Reachable c) : Ordered c.st := by
  refine Invariant.ordered ((outline_sound.strengthen h).invariant ?_ ?_ ?_ ?_)
  · rintro w hinit
    have hentered := entered_of_reachable (.init w hinit : (runsWhere cfg FitsInt).Reachable _)
    refine invariant_fresh hentered ?_ ?_ ?_ <;> simp [hinit.1, latest, acceptedNumbers]
  · rintro t o b w w' hw ⟨⟨hact, -⟩, -, -, hconduct⟩
    exact invariant_act hw hact hconduct
  · rintro t p w w' hw ⟨⟨⟨e, harrive, rfl⟩, hfits⟩, -⟩
    refine invariant_arrive hw harrive (hfits e rfl) fun u name => ?_
    cases harrive <;> exact hw.entered u name
  · rintro w w' hw ⟨htrace, ctrl, hshared⟩
    refine invariant_fresh (fun u name => ?_) ?_ ?_ ?_
    · rw [hshared, htrace]
      rfl
    · intro u jObj hlatest
      simp [htrace, latest] at hlatest
    · simp [htrace, acceptedNumbers]
    · simp [htrace]

/-- Two confirm-update messages of one package, with these numbers. -/
def twoConfirms (C : Tid → Event → World → Prop) [∀ t e w, Decidable (C t e w)] (a b : Int64) :
    AgentConfiguration :=
  rehearse (sampleConfig false 1) C (usualOracle "1") <| [a, b].flatMap fun n =>
    [message (sampleConfig false 1) C 0 Nat.one_pos
      (packageMessage bmtConfirmUpdate [("sequence", .int n)] "pkg" "1" []),
      .steps (.runner 0) 40]

theorem accepted_sequence_numbers_increase_example :
    Ordered (twoConfirms FitsInt 6 7).st ∧
      acceptedNumbers 0 "pkg" (twoConfirms FitsInt 6 7).st.trace = [7, 6] :=
  ⟨accepted_sequence_numbers_increase _ _ (rehearse_reachable _ _ _ _), by decide +kernel⟩

/-- The number 4294967302 is entered as 6, so 7 is accepted after it. -/
theorem smaller_sequence_number_accepted :
    ∃ c, (agent (sampleConfig false 1)).Reachable c ∧ ¬Ordered c.st := by
  refine ⟨twoConfirms Anything 4294967302 7, agent_reachable _ _ _, fun h => ?_⟩
  have hnumbers : acceptedNumbers 0 "pkg" (twoConfirms Anything 4294967302 7).st.trace =
      [7, 4294967302] := by
    decide +kernel
  have hpairwise := h.increasing 0 "pkg"
  rw [hnumbers] at hpairwise
  exact absurd hpairwise (by decide)

end EsyncUa.SequenceOrder
