import EsyncUa.VerifiedDownloads

/-!
When a download that returns E_UA_OK has sent its completed report.
The loop of completed reports ends as soon as the stop flag of the context is set, and any
prepare-update message sets it, also one that comes before the first report. In the runs in
which the flag is only set after a completed report of the same run has been sent, the
return of E_UA_OK tells that one was sent.
-/
namespace EsyncUa.CompletedDownloads

open EsyncUa.JsonProperties EsyncUa.Programs EsyncUa.Machines EsyncUa.Outlines
open EsyncUa.Schedules EsyncUa.DownloadRecords EsyncUa.Downloads EsyncUa.DownloadRuns
open EsyncUa.VerifiedDownloads

/-- A completed report for the package was sent since the download was started last. -/
def Reported (pkgInfo : PkgInfo) (h : List DlEvent) : Prop :=
  ∃ report, .reported report eUaOk ∈ currentRun h ∧ report.completedDownload = true ∧
    report.pkgInfo = pkgInfo

/-- The stop flag of a running download is only set after a completed report was sent. -/
def StopsLate (pkgInfo : PkgInfo) (_t : Tid) (s s' : DlState) : Prop :=
  s.stopCompletedStatus = some false → s'.stopCompletedStatus = some true →
    Reported pkgInfo s.history

/-- Every return of E_UA_OK in the history comes after a completed report of its run. -/
def EndsReported : List DlEvent → Prop
  | [] => True
  | .returned pkgInfo rc :: h => (rc = eUaOk → Reported pkgInfo h) ∧ EndsReported h
  | _ :: h => EndsReported h

variable {files : DlState → Prop} {server : Server} {pkgInfo : PkgInfo}

variable (files server pkgInfo) in
def lateMachine : Machine Tid Flags DlState DlOp.Ans :=
  (machine files server pkgInfo).restrict (StopsLate pkgInfo)

variable (files server pkgInfo) in
def outline : Outline (lateMachine files server pkgInfo) where
  inv := fun s => EndsReported s.history ∧
    (s.stopCompletedStatus = some true → Reported pkgInfo s.history)
  rely := fun t s s' => t = .download → s'.history = s.history ∧
    (s.stopCompletedStatus = none → s'.stopCompletedStatus = none)
  guar := fun _ _ _ => True
  start := fun t p _ => Arrives pkgInfo t p
  post := fun _ _ => True

/-- Neither the start nor the end of a download. -/
def Inner : DlOp → Prop
  | .begin _ | .returned _ _ => False
  | _ => True

theorem inner_of_plain (o : DlOp) (h : Plain o) : Inner o := by
  cases o with
  | begin p => exact h
  | returned p rc => exact h
  | _ => trivial

theorem stable_reported (φ : Prop) :
    (outline files server pkgInfo).Stable .download fun s => φ → Reported pkgInfo s.history := by
  intro s s' _ hs hrely _ hφ
  rw [(hrely rfl).1]
  exact hs hφ

theorem grants {o : DlOp} {b : o.Ans} {s s' : DlState}
    (hinv : (outline files server pkgInfo).inv s') :
    (outline files server pkgInfo).Grants .download o b s s' where
  inv := hinv
  guar := trivial
  rely := fun _ hne _ heq => absurd heq hne
  fork := fun _ _ _ hfork => nomatch hfork

/-- An inner operation adds to the history of its run only. -/
theorem inner_history {o : DlOp} {b : o.Ans} {s s' : DlState} (ho : Inner o)
    (hact : effect o b s = some s') :
    (EndsReported s.history → EndsReported s'.history) ∧
      (Reported pkgInfo s.history → Reported pkgInfo s'.history) := by
  rw [effect_history hact]
  have hone : ∀ e, (∀ p, e ≠ .began p) → Reported pkgInfo s.history →
      Reported pkgInfo ([e] ++ s.history) := by
    rintro e he ⟨report, hmem, hdone⟩
    refine ⟨report, ?_, hdone⟩
    rw [List.singleton_append, currentRun_cons he]
    exact List.mem_cons_of_mem _ hmem
  cases o with
  | begin p => exact absurd ho id
  | returned p rc => exact absurd ho id
  | setContext dlRec => exact ⟨id, hone _ (by simp)⟩
  | sendReport report => exact ⟨id, hone _ (by simp)⟩
  | verifyBinary i =>
      cases b with
      | false => exact ⟨id, id⟩
      | true => exact ⟨id, hone _ (by simp)⟩
  | _ => exact ⟨id, id⟩

/-- The stop flag after an operation that is allowed to set it. -/
theorem stop_flag {o : DlOp} {b : o.Ans} {s s' : DlState} (hact : effect o b s = some s')
    (hset : s'.stopCompletedStatus = some true) :
    s.stopCompletedStatus = some true ∨ s.stopCompletedStatus = some false := by
  rw [effect_stop hact] at hset
  cases hs : s.stopCompletedStatus with
  | some b => cases b <;> simp
  | none =>
      rw [hs] at hset
      cases o <;> cases hset

theorem inner_keeps {t : Tid} {o : DlOp} {b : o.Ans} {s s' : DlState} (ho : Inner o)
    (hinv : (outline files server pkgInfo).inv s) (hact : effect o b s = some s')
    (hlate : StopsLate pkgInfo t s s') : (outline files server pkgInfo).inv s' := by
  have hhistory : (EndsReported s.history → EndsReported s'.history) ∧
      (Reported pkgInfo s.history → Reported pkgInfo s'.history) := inner_history ho hact
  obtain ⟨hends, hreported⟩ := hhistory
  refine ⟨hends hinv.1, fun hset => hreported ?_⟩
  rcases stop_flag hact hset with htrue | hfalse
  · exact hinv.2 htrue
  · exact hlate hfalse hset

theorem inner_triple {α : Type} {p : DlProg α} (φ : Prop) (hp : p.All Inner) :
    (outline files server pkgInfo).Triple .download (fun s => φ → Reported pkgInfo s.history) p
      fun a s => (φ → Reported pkgInfo s.history) ∧ p.Returns a := by
  refine .frame (stable_reported φ) ?_ hp
  intro o b s s' ho hinv hs hact
  refine ⟨grants (inner_keeps ho hinv hact.1.1 hact.2), fun hφ => ?_⟩
  exact (inner_history ho hact.1.1).2 (hs hφ)

theorem inner_runs {α : Type} {p : DlProg α} (hp : p.All Inner) :
    (outline files server pkgInfo).Triple .download (fun _ => True) p fun _ _ => True :=
  ((inner_triple False hp).pre fun _ _ _ => False.elim).post fun _ _ _ _ => trivial

theorem uaDlStepVerify_inner (dlc : UaDlContext) : (uaDlStepVerify dlc).All Inner := by
  unfold uaDlStepVerify op
  have hloop := (verifyLoop_plain maxVerifyCaCount 0 dlc).mono inner_of_plain
  have hreport := fun p i => (sendDlReport_plain p i).mono inner_of_plain
  simp [Inner, hloop, hreport]

theorem uaDlStepDone_inner (dlc : UaDlContext) : (uaDlStepDone dlc).All Inner := by
  unfold uaDlStepDone sendDlReport op
  simp [Inner]

/-- The step machine returns E_UA_OK only where it finds the stop flag set. -/
theorem uaDlStepAction_triple (fuel : Nat) (dlc : UaDlContext) :
    (outline files server pkgInfo).Triple .download (fun _ => True) (uaDlStepAction fuel dlc)
      fun ret s => ret = some eUaOk → Reported pkgInfo s.history := by
  have hfail : ∀ ret : Option Rc, ret ≠ some eUaOk →
      (outline files server pkgInfo).Triple .download (fun _ => True) (Prog.pure ret)
        fun ret s => ret = some eUaOk → Reported pkgInfo s.history := by
    intro ret hne
    exact .pure (Outline.stable_const _) fun _ _ _ h => absurd h hne
  induction fuel generalizing dlc with
  | zero => exact hfail none (by simp)
  | succ fuel ih =>
      have hnext : ∀ {p : DlProg (UaDlContext × Rc)}, p.All Inner →
          (outline files server pkgInfo).Triple .download (fun _ => True)
            (p >>= fun r => if r.2 ≠ eUaOk then pure (some eUaErr) else uaDlStepAction fuel r.1)
            fun ret s => ret = some eUaOk → Reported pkgInfo s.history := by
        intro p hp
        refine .bind (inner_runs hp) fun r => .ite (fun _ => ?_) fun _ => ih r.1
        exact hfail _ (by decide)
      unfold uaDlStepAction
      refine .ite (fun _ => ?_) fun _ => .ite (fun _ => ?_) fun _ => .ite (fun _ => ?_) fun _ =>
        .ite (fun _ => ?_) fun _ => hfail _ (by decide)
      · exact hnext ((uaDlStepDownload_plain dlc).mono inner_of_plain)
      · exact hnext ((uaDlStepEncrypt_plain dlc).mono inner_of_plain)
      · exact hnext (uaDlStepVerify_inner dlc)
      · refine .read_bind (R := fun (stop : Option Bool) (s : DlState) =>
          stop = some true → Reported pkgInfo s.history)
          (Outline.stable_const _) (fun s hinv _ => hinv.2) fun stop => ?_
        refine .ite (fun hstop => ?_) fun _ => ?_
        · exact .pure (stable_reported _) fun s _ hs _ => hs hstop
        · refine (Outline.Triple.bind (inner_runs (uaDlStepDone_inner dlc)) fun r => ?_).pre
            fun _ _ _ => trivial
          exact ih r.1

theorem download_triple (fuel : Nat) :
    (outline files server pkgInfo).Triple .download (fun _ => True)
      (processStartDownload fuel pkgInfo) fun _ _ => True := by
  have hpure : ∀ {α : Type} {P : DlState → Prop} (a : α),
      (outline files server pkgInfo).Stable .download P →
      (outline files server pkgInfo).Triple .download P (Prog.pure a) fun _ _ => True :=
    fun a hP => .pure hP fun _ _ _ => trivial
  have hop : ∀ o : DlOp, Inner o → (op o).All Inner := fun _ ho => (Prog.all_perform ..).mpr ho
  have hreturn : ∀ rc, (outline files server pkgInfo).Triple .download
      (fun s => rc = eUaOk → Reported pkgInfo s.history)
      (op (.returned pkgInfo rc) >>= fun _ => pure ()) fun _ _ => True := by
    intro rc
    refine .perform_bind (R := fun _ _ => True) (stable_reported _) ?_ fun _ =>
      hpure () (Outline.stable_const _)
    intro s b s' hinv hs hact
    refine ⟨grants ⟨?_, ?_⟩, trivial⟩
    · rw [effect_history hact.1.1]
      exact ⟨hs, hinv.1⟩
    · intro hset
      rw [effect_stop hact.1.1] at hset
      obtain ⟨report, hmem, hdone⟩ := hinv.2 hset
      refine ⟨report, ?_, hdone⟩
      rw [effect_history hact.1.1]
      exact List.mem_cons_of_mem _ hmem
  unfold processStartDownload uaDlStartDownload
  refine .bind (inner_runs (hop (.setDownloadPostponed false) trivial)) fun _ => ?_
  refine .read_bind (R := fun (running : Option Bool) (s : DlState) =>
    running = none → s.stopCompletedStatus = none) (Outline.stable_const _)
    (fun _ _ _ hnone => hnone) fun running => .ite (fun _ => ?_) fun hnot => ?_
  · refine (Outline.Triple.bind (inner_runs (hop .crash trivial)) fun _ => ?_).pre
      fun _ _ _ => trivial
    exact hpure () (Outline.stable_const _)
  have hnone : running = none := by simpa using hnot
  refine .perform_bind (R := fun _ _ => True) ?_ ?_ fun _ => ?_
  · intro s s' _ hs hrely _ hrunning
    exact (hrely rfl).2 (hs hrunning)
  · intro s b s' hinv hs hact
    refine ⟨grants ⟨?_, ?_⟩, trivial⟩
    · rw [effect_history hact.1.1]
      exact hinv.1
    · intro hset
      rw [effect_stop hact.1.1, hs hnone] at hset
      cases hset
  refine .bind (inner_runs ((uaDlInit_plain pkgInfo).mono inner_of_plain)) fun dlc => ?_
  cases dlc with
  | none => exact (hreturn eUaErr).pre fun _ _ _ h => absurd h (by decide)
  | some dlc =>
      refine .bind (inner_runs (hop .sendQueryTrust trivial)) fun _ => ?_
      refine .bind (uaDlStepAction_triple fuel dlc) fun ret => ?_
      cases ret with
      | none => exact hpure () (stable_reported _)
      | some ret =>
          refine .bind (inner_triple _ (hop .releaseContext trivial)) fun _ => (hreturn ret).pre ?_
          exact fun _ _ h hok => h.1 (congrArg some hok)

theorem outline_sound : (outline files server pkgInfo).Sound where
  init := by
    rintro s ⟨-, hstop, hhistory⟩
    refine ⟨⟨?_, ?_⟩, fun _ => trivial⟩
    · rw [hhistory]
      trivial
    · rw [hstop]
      simp
  restart := by
    rintro s s' hinv rfl
    exact ⟨⟨hinv.1, by simp⟩, fun _ => trivial⟩
  stable := fun _ => Outline.stable_const _
  arrive := by
    rintro t p s s' hinv - ⟨⟨harrives, rfl⟩, -⟩
    exact ⟨hinv, trivial, harrives, fun _ _ _ => ⟨rfl, id⟩⟩
  body := by
    intro t p s hinv harrives
    cases t with
    | download =>
        obtain ⟨fuel, rfl⟩ := harrives
        exact download_triple fuel s hinv trivial
    | message n =>
        have hframe : (outline files server pkgInfo).Triple (.message n) (fun _ => True) p
            fun _ _ => True := by
          refine (Outline.Triple.frame (P := fun _ => True) (Outline.stable_const _) ?_
            (message_plain harrives)).post fun _ _ _ _ => trivial
          intro o b s s' ho hinv _ hact
          have hinner : Inner o := by
            rcases ho with rfl | rfl <;> trivial
          refine ⟨⟨inner_keeps hinner hinv hact.1.1 hact.2, trivial, ?_,
            fun _ _ _ hfork => nomatch hfork⟩, trivial⟩
          intro _ _ _ _
          rw [effect_history hact.1.1, effect_stop hact.1.1]
          rcases ho with rfl | rfl
          · refine ⟨rfl, fun hnone => ?_⟩
            rw [hnone]
            rfl
          · exact ⟨rfl, id⟩
        exact hframe s hinv trivial

theorem endsReported_split {before after : List DlEvent} {rc : Rc}
    (h : EndsReported (after ++ .returned pkgInfo rc :: before)) (hok : rc = eUaOk) :
    Reported pkgInfo before := by
  induction after with
  | nil => exact h.1 hok
  | cons e after ih =>
      cases e with
      | returned _ _ => exact ih h.2
      | _ => exact ih h

/-- In the runs in which no prepare-update sets the stop flag of a running download before a
completed report of that run was sent, ua_dl_start_download returns E_UA_OK only after a
completed report for its package was sent. -/
theorem ok_after_completed_report (files : DlState → Prop) (server : Server) (pkgInfo : PkgInfo)
    (c : Config Tid Flags DlState DlOp.Ans)
    (hc : ((machine files server pkgInfo).restrict (StopsLate pkgInfo)).Reachable c)
    (after before : List DlEvent)
    (hret : c.st.history = after ++ .returned pkgInfo eUaOk :: before) :
    ∃ report, .reported report eUaOk ∈ currentRun before ∧ report.completedDownload = true ∧
      report.pkgInfo = pkgInfo := by
  have hinv : EndsReported c.st.history := (outline_sound.inv hc).1
  rw [hret] at hinv
  exact endsReported_split hinv rfl

/-- The event is a completed report for the package that was sent. -/
def isCompletedReport (pkgInfo : PkgInfo) : DlEvent → Bool
  | .reported report err => err = eUaOk && report.completedDownload && report.pkgInfo = pkgInfo
  | _ => false

theorem reported_iff (pkgInfo : PkgInfo) (h : List DlEvent) :
    Reported pkgInfo h ↔ ∃ e ∈ currentRun h, isCompletedReport pkgInfo e = true := by
  constructor
  · rintro ⟨report, hmem, hdone, hpkg⟩
    exact ⟨_, hmem, by simp [isCompletedReport, hdone, hpkg]⟩
  · rintro ⟨e, hmem, he⟩
    cases e with
    | reported report err =>
        simp only [isCompletedReport, Bool.and_eq_true, decide_eq_true_eq] at he
        refine ⟨report, ?_, he.1.2, he.2⟩
        rw [← he.1.1]
        exact hmem
    | _ => cases he

instance (pkgInfo : PkgInfo) (h : List DlEvent) : Decidable (Reported pkgInfo h) :=
  decidable_of_iff _ (reported_iff pkgInfo h).symm

instance (pkgInfo : PkgInfo) (t : Tid) (s s' : DlState) : Decidable (StopsLate pkgInfo t s s') :=
  inferInstanceAs (Decidable (_ → _ → _))

def lateArrive (t : Tid) (p : DlProg Unit) (h : Arrives samplePkg t p) :
    Move (lateMachine (· = freshState) (fun _ _ _ _ => True) samplePkg) :=
  .arrive t p some fun _ _ hs =>
    ⟨⟨h, (Option.some.inj hs).symm⟩, fun hfalse htrue => by
      rw [← Option.some.inj hs, hfalse] at htrue
      cases htrue⟩

/-- The stop flag is set by a message after the first completed reports. -/
def lateEnd : Config Tid Flags DlState DlOp.Ans :=
  ((player _ _ _).restrict (StopsLate samplePkg)).play
    [lateArrive .download (processStartDownload 6 samplePkg) ⟨6, rfl⟩, .steps .download 30,
      lateArrive (.message 0) uaDlStopSendingCompletedStatus (Or.inl rfl),
      .steps (.message 0) 5, .steps .download 60] ⟨freshState, idlePool⟩

theorem lateEnd_reachable :
    (lateMachine (· = freshState) (fun _ _ _ _ => True) samplePkg).Reachable lateEnd :=
  Player.play_reachable _ _ (.init freshState ⟨rfl, rfl, rfl⟩)

theorem ok_after_completed_report_example :
    ∃ before, lateEnd.st.history = .returned samplePkg eUaOk :: before ∧
      ∃ report, .reported report eUaOk ∈ currentRun before ∧ report.completedDownload = true ∧
        report.pkgInfo = samplePkg := by
  have hret : lateEnd.st.history = [] ++
      .returned samplePkg eUaOk :: lateEnd.st.history.drop 1 := by
    decide +kernel
  exact ⟨_, hret, ok_after_completed_report _ _ _ _ lateEnd_reachable _ _ hret⟩

/-- The stop flag is set by a message before the download is finished. -/
def earlyEnd : Config Tid Flags DlState DlOp.Ans :=
  (player (· = freshState) (fun _ _ _ _ => True) samplePkg).play
    [arriveMove _ _ _ .download (processStartDownload 6 samplePkg) ⟨6, rfl⟩, .steps .download 10,
      arriveMove _ _ _ (.message 0) uaDlStopSendingCompletedStatus (Or.inl rfl),
      .steps (.message 0) 5, .steps .download 60] ⟨freshState, idlePool⟩

theorem earlyEnd_reachable :
    (machine (· = freshState) (fun _ _ _ _ => True) samplePkg).Reachable earlyEnd :=
  Player.play_reachable _ _ (.init freshState ⟨rfl, rfl, rfl⟩)

/-- A prepare-update that arrives early makes the download return E_UA_OK without a report. -/
theorem ok_without_completed_report :
    ¬∀ (files : DlState → Prop) (server : Server) (pkgInfo : PkgInfo)
      (c : Config Tid Flags DlState DlOp.Ans), (machine files server pkgInfo).Reachable c →
      ∀ after before, c.st.history = after ++ .returned pkgInfo eUaOk :: before →
        ∃ report, .reported report eUaOk ∈ currentRun before ∧ report.completedDownload = true ∧
          report.pkgInfo = pkgInfo := by
  intro hall
  have hret : earlyEnd.st.history = [] ++ .returned samplePkg eUaOk ::
      [.verified, .initialised (uaDlInitDlRec zeroRecord) none, .began samplePkg] := by
    decide +kernel
  obtain ⟨report, hmem, -⟩ := hall _ _ _ _ earlyEnd_reachable _ _ hret
  simp [currentRun] at hmem

end EsyncUa.CompletedDownloads
