import EsyncUa.DownloadRuns

/-!
A download is reported as completed only after its file has been verified.
The step on disk never takes the step machine past the check: ua_dl_init lowers it to
DOWNLOADED, and only a check that succeeded in the same run raises it to VERIFIED. Until
then every operation of the run is plain: it sends no completed report.
-/
namespace EsyncUa.VerifiedDownloads

open EsyncUa.JsonProperties EsyncUa.Programs EsyncUa.Machines EsyncUa.Outlines
open EsyncUa.Schedules EsyncUa.DownloadRecords EsyncUa.Downloads EsyncUa.DownloadRuns

/-- Neither the start or the end of a download nor a completed report. -/
def Plain : DlOp → Prop
  | .begin _ | .returned _ _ => False
  | .sendReport report => report.completedDownload = false
  | _ => True

theorem sendDlReport_plain (pkgInfo : PkgInfo) (dlInfo : DlInfo) :
    (sendDlReport pkgInfo dlInfo false).All Plain := by
  unfold sendDlReport op
  simp [Plain]

theorem uaDlSaveDlRc_plain (dlRec : DlRecord) : (uaDlSaveDlRc dlRec).All Plain := by
  unfold uaDlSaveDlRc op
  simp [Plain]

theorem startOver_plain (dlRec : DlRecord) : (startOver dlRec).All Plain := by
  unfold startOver op
  simp [Plain]

theorem continueDownload_plain (dlRec : DlRecord) (file : Checksums.Bytes) :
    (continueDownload dlRec file).All Plain := by
  unfold continueDownload dropLastPackage op
  simp [Plain, uaDlSaveDlRc_plain, startOver_plain]

theorem settleRecord_plain : settleRecord.All Plain := by
  unfold settleRecord op
  simp only [map_eq_pure_bind, Prog.all_bind, Prog.all_perform, Prog.all_ite]
  refine ⟨trivial, fun _ _ => ⟨fun _ => ⟨trivial, fun _ _ => ⟨fun _ => ⟨trivial, ?_⟩, ?_⟩⟩, ?_⟩⟩
  · intro bytes _
    refine ⟨fun _ => ⟨startOver_plain _, fun _ _ => trivial⟩, fun _ => ⟨trivial, ?_⟩⟩
    intro file _
    cases file with
    | none => exact Prog.all_bind .. |>.mpr ⟨startOver_plain _, fun _ _ => trivial⟩
    | some file => exact Prog.all_bind .. |>.mpr ⟨continueDownload_plain _ _, fun _ _ => trivial⟩
  · exact fun _ => trivial
  · refine fun _ => ⟨trivial, fun _ _ => ⟨fun _ => ⟨startOver_plain _, fun _ _ => trivial⟩, ?_⟩⟩
    exact fun _ => trivial

theorem uaDlInit_plain (pkgInfo : PkgInfo) : (uaDlInit pkgInfo).All Plain := by
  unfold uaDlInit op
  simp only [Prog.all_bind, Prog.all_perform, Prog.all_ite]
  refine ⟨trivial, fun _ _ => ⟨fun _ => ⟨settleRecord_plain, ?_⟩, fun _ => trivial⟩⟩
  intro dlRec _
  cases dlRec with
  | none => trivial
  | some dlRec => exact ⟨trivial, fun _ => trivial⟩

theorem moveOffset_plain (dlc : UaDlContext) (requested : UInt64) (ddc : Delivery) :
    (moveOffset dlc requested ddc).All Plain := by
  unfold moveOffset op
  simp [Plain, uaDlSaveDlRc_plain]

theorem recvData_plain (dlc : UaDlContext) (ddc : Delivery) (data : Checksums.Bytes) :
    (recvData dlc ddc data).All Plain := by
  unfold recvData uaDlSaveData op
  simp [Plain, uaDlSaveDlRc_plain, sendDlReport_plain]

theorem dmcRecvCb_plain (dlc : UaDlContext) (requested : UInt64) (ddc : Delivery) :
    (dmcRecvCb dlc requested ddc).All Plain := by
  unfold dmcRecvCb
  cases ddc.data with
  | none => trivial
  | some data =>
      simp [moveOffset_plain, recvData_plain]

theorem receiveAll_plain (n : Nat) (dlc : UaDlContext) (requested : UInt64) (received : Nat)
    (rc : DmeCode) : (receiveAll n dlc requested received rc).All Plain := by
  induction n generalizing dlc requested received rc with
  | zero => trivial
  | succ n ih =>
      unfold receiveAll op
      refine (Prog.all_bind ..).mpr ⟨(Prog.all_perform ..).mpr trivial, ?_⟩
      intro ddc _
      cases ddc with
      | none => trivial
      | some ddc => exact (Prog.all_bind ..).mpr ⟨dmcRecvCb_plain _ _ _, fun _ _ => ih _ _ _ _⟩

theorem uaDlStepDownload_plain (dlc : UaDlContext) : (uaDlStepDownload dlc).All Plain := by
  unfold uaDlStepDownload op
  simp [Plain, receiveAll_plain, uaDlSaveDlRc_plain]

theorem uaDlStepEncrypt_plain (dlc : UaDlContext) : (uaDlStepEncrypt dlc).All Plain := by
  unfold uaDlStepEncrypt op
  simp [Plain, sendDlReport_plain, uaDlSaveDlRc_plain]

theorem verifyLoop_plain (n i : Nat) (dlc : UaDlContext) : (verifyLoop n i dlc).All Plain := by
  induction n generalizing i with
  | zero => trivial
  | succ n ih =>
      unfold verifyLoop op
      simp [Plain, uaDlSaveDlRc_plain, ih]

/-- A download that succeeds leaves the step at DOWNLOADED. -/
theorem uaDlStepDownload_step {dlc dlc' : UaDlContext}
    (h : (uaDlStepDownload dlc).Returns (dlc', eUaOk)) : dlc'.dlRec.step = stepDownloaded := by
  unfold uaDlStepDownload op at h
  simp only [Prog.returns_bind] at h
  obtain ⟨_, -, dlc₁, -, ddc, -, h⟩ := h
  split at h
  · obtain ⟨_, -, hret⟩ := (Prog.returns_bind ..).mp h
    cases hret
    rfl
  · simp only [Prog.returns_bind] at h
    obtain ⟨_, -, _, -, _, -, hret⟩ := h
    cases hret

theorem uaDlStepEncrypt_step {dlc dlc' : UaDlContext}
    (h : (uaDlStepEncrypt dlc).Returns (dlc', eUaOk)) : dlc'.dlRec.step = stepEncrypted := by
  unfold uaDlStepEncrypt op at h
  obtain ⟨_, -, h⟩ := (Prog.returns_bind ..).mp h
  split at h
  · cases h
  obtain ⟨_, -, h⟩ := (Prog.returns_bind ..).mp h
  split at h
  · cases h
  obtain ⟨_, -, h⟩ := (Prog.returns_bind ..).mp h
  split at h
  · simp only [Prog.returns_bind] at h
    obtain ⟨_, -, _, -, hret⟩ := h
    cases hret
  · obtain ⟨_, -, h⟩ := (Prog.returns_bind ..).mp h
    split at h
    · obtain ⟨_, -, hret⟩ := (Prog.returns_bind ..).mp h
      cases hret
      rfl
    · cases h
      rfl

theorem startOver_step {dlRec dlRec' : DlRecord} (h : (startOver dlRec).Returns dlRec') :
    dlRec' = uaDlInitDlRec dlRec := by
  unfold startOver op at h
  simp only [Prog.returns_bind] at h
  obtain ⟨_, -, _, -, hret⟩ := h
  exact hret.symm

theorem continueDownload_step {dlRec dlRec' : DlRecord} {file : Checksums.Bytes}
    (h : (continueDownload dlRec file).Returns dlRec') : dlRec'.step ≤ stepDownloaded := by
  unfold continueDownload op at h
  obtain ⟨dlRec₁, -, h⟩ := (Prog.returns_bind ..).mp h
  split at h
  · simp only [Prog.returns_bind] at h
    obtain ⟨_, -, _, -, hret⟩ := h
    rw [← hret]
    split
    · exact Int32.le_refl _
    · rename_i hle
      exact Int32.not_lt.mp hle
  · rw [startOver_step h]
    change stepNone ≤ stepDownloaded
    decide

theorem settleRecord_step {dlRec : DlRecord} (h : settleRecord.Returns (some dlRec)) :
    dlRec.step ≤ stepDownloaded := by
  have hinit : ∀ r, (uaDlInitDlRec r).step ≤ stepDownloaded := by
    intro r
    change stepNone ≤ stepDownloaded
    decide
  have hover : ∀ r, (some <$> startOver r).Returns (some dlRec) → dlRec.step ≤ stepDownloaded := by
    intro r hr
    rw [map_eq_pure_bind, Prog.returns_bind] at hr
    obtain ⟨r', hr', hsome⟩ := hr
    cases hsome
    rw [startOver_step hr']
    exact hinit r
  unfold settleRecord op at h
  obtain ⟨_, -, h⟩ := (Prog.returns_bind ..).mp h
  split at h
  · obtain ⟨_, -, h⟩ := (Prog.returns_bind ..).mp h
    split at h
    · obtain ⟨bytes, -, h⟩ := (Prog.returns_bind ..).mp h
      split at h
      · exact hover _ h
      · obtain ⟨file, -, h⟩ := (Prog.returns_bind ..).mp h
        cases file with
        | none => exact hover _ h
        | some file =>
            have h' : (some <$> continueDownload (DlRecord.decode bytes) file).Returns
                (some dlRec) := h
            rw [map_eq_pure_bind, Prog.returns_bind] at h'
            obtain ⟨r', hr', hsome⟩ := h'
            cases hsome
            exact continueDownload_step hr'
    · cases h
  · obtain ⟨_, -, h⟩ := (Prog.returns_bind ..).mp h
    split at h
    · exact hover _ h
    · cases h

/-- ua_dl_init never resumes behind the download. -/
theorem uaDlInit_step {pkgInfo : PkgInfo} {dlc : UaDlContext}
    (h : (uaDlInit pkgInfo).Returns (some dlc)) : dlc.dlRec.step ≤ stepDownloaded := by
  unfold uaDlInit op at h
  obtain ⟨_, -, h⟩ := (Prog.returns_bind ..).mp h
  split at h
  · obtain ⟨dlRec, hdlRec, h⟩ := (Prog.returns_bind ..).mp h
    cases dlRec with
    | none => cases h
    | some dlRec =>
        obtain ⟨_, -, hret⟩ := (Prog.returns_bind ..).mp h
        cases hret
        exact settleRecord_step hdlRec
  · cases h

/-- A check of the decrypted file has succeeded since the download was started last. -/
def Verified (h : List DlEvent) : Prop := .verified ∈ currentRun h

/-- Every completed report of the history comes after a check that succeeded. -/
def Guarded : List DlEvent → Prop
  | [] => True
  | .reported report _ :: h => (report.completedDownload = true → Verified h) ∧ Guarded h
  | _ :: h => Guarded h

variable {files : DlState → Prop} {server : Server} {pkgInfo : PkgInfo}

variable (files server pkgInfo) in
def outline : Outline (machine files server pkgInfo) where
  inv := fun s => Guarded s.history
  rely := fun t s s' => t = .download → s'.history = s.history
  guar := fun _ _ _ => True
  start := fun t p _ => Arrives pkgInfo t p
  post := fun _ _ => True

theorem stable_verified (φ : Prop) :
    (outline files server pkgInfo).Stable .download fun s => φ → Verified s.history := by
  intro s s' _ hs hrely _ hφ
  rw [hrely rfl]
  exact hs hφ

/-- An operation of the download thread owes the others nothing but the invariant. -/
theorem grants {o : DlOp} {b : o.Ans} {s s' : DlState} (hinv : Guarded s'.history) :
    (outline files server pkgInfo).Grants .download o b s s' where
  inv := hinv
  guar := trivial
  rely := fun _ hne _ heq => absurd heq hne
  fork := fun _ _ _ hfork => nomatch hfork

/-- A plain operation keeps the invariant and does not start another run. -/
theorem plain_keeps {o : DlOp} {b : o.Ans} {s s' : DlState} (ho : Plain o)
    (hinv : Guarded s.history) (hact : effect o b s = some s') :
    Guarded s'.history ∧ (Verified s.history → Verified s'.history) := by
  rw [effect_history hact]
  have hnil : Guarded ([] ++ s.history) ∧ (Verified s.history → Verified ([] ++ s.history)) :=
    ⟨hinv, id⟩
  have hone : ∀ e, (∀ p, e ≠ .began p) → Verified s.history → Verified ([e] ++ s.history) := by
    intro e he hv
    unfold Verified
    rw [List.singleton_append, currentRun_cons he]
    exact List.mem_cons_of_mem _ hv
  cases o with
  | begin p => exact absurd ho id
  | returned p rc => exact absurd ho id
  | setContext dlRec => exact ⟨hinv, hone _ (by simp)⟩
  | sendReport report =>
      refine ⟨⟨?_, hinv⟩, hone _ (by simp)⟩
      intro hcompleted
      rw [show report.completedDownload = false from ho] at hcompleted
      cases hcompleted
  | verifyBinary i =>
      cases b with
      | false => exact hnil
      | true => exact ⟨hinv, hone _ (by simp)⟩
  | _ => exact hnil

theorem stable_now :
    (outline files server pkgInfo).Stable .download fun s => Verified s.history := by
  intro s s' _ hs hrely _
  rw [hrely rfl]
  exact hs

/-- What has been verified stays verified over a plain program. -/
theorem plain_triple {α : Type} {p : DlProg α} (φ : Prop) (hp : p.All Plain) :
    (outline files server pkgInfo).Triple .download (fun s => φ → Verified s.history) p
      fun a s => (φ → Verified s.history) ∧ p.Returns a := by
  refine .frame (stable_verified φ) ?_ hp
  intro o b s s' ho hinv hs hact
  obtain ⟨hinv', hkeeps⟩ := plain_keeps ho hinv hact.1
  exact ⟨grants hinv', fun hφ => hkeeps (hs hφ)⟩

/-- Nothing is needed to run a plain program, and it tells what it returns. -/
theorem plain_returns {α : Type} {p : DlProg α} (hp : p.All Plain) :
    (outline files server pkgInfo).Triple .download (fun _ => True) p fun a _ => p.Returns a :=
  ((plain_triple False hp).pre fun _ _ _ => False.elim).post fun _ _ _ h => h.2

/-- A successful check is recorded when ua_dl_step_verify returns E_UA_OK. -/
theorem verifyLoop_triple (n i : Nat) (dlc : UaDlContext) :
    (outline files server pkgInfo).Triple .download (fun _ => True) (verifyLoop n i dlc)
      fun r s => r.2 = eUaOk → Verified s.history := by
  have hfail : (outline files server pkgInfo).Triple .download (fun _ => True)
      (Prog.pure (dlc, eUaErr)) fun r s => r.2 = eUaOk → Verified s.history := by
    refine .pure (Outline.stable_const _) ?_
    intro s _ _ h
    cases h
  induction n generalizing i with
  | zero => exact hfail
  | succ n ih =>
      unfold verifyLoop op
      refine .bind (R := fun _ _ => True) ?_ fun caFile => .ite (fun _ => hfail) fun _ => ?_
      · have hplain : (Prog.perform (DlOp.verifyCaFile i) : DlProg _).All Plain :=
          (Prog.all_perform ..).mpr trivial
        exact (plain_returns hplain).post fun _ _ _ _ => trivial
      · refine .perform_bind (R := fun (b : Bool) s => b = true → Verified s.history)
          (Outline.stable_const _) ?_ ?_
        · intro s b s' hinv _ hact
          obtain ⟨hinv', -⟩ := plain_keeps (o := .verifyBinary i) trivial hinv hact.1
          refine ⟨grants hinv', ?_⟩
          intro hb
          rw [effect_history hact.1, hb]
          exact List.mem_cons_self
        · intro verified
          refine .ite (fun hok => ?_) fun _ => ?_
          · refine .bind (R := fun _ s => Verified s.history) ?_ ?_
            · refine ((plain_triple True (uaDlSaveDlRc_plain _)).pre ?_).post ?_
              · exact fun s _ h _ => h hok
              · exact fun _ s _ h => h.1 trivial
            · intro ret
              exact .pure stable_now fun s _ h _ => h
          · exact (ih (i + 1)).pre fun _ _ _ => trivial

theorem uaDlStepVerify_triple (dlc : UaDlContext) :
    (outline files server pkgInfo).Triple .download (fun _ => True) (uaDlStepVerify dlc)
      fun r s => r.2 = eUaOk → Verified s.history := by
  unfold uaDlStepVerify op
  refine .bind (verifyLoop_triple _ _ _) ?_
  intro r
  have hkeep : ∀ {p : DlProg (UaDlContext × Rc)}, p.All Plain →
      (∀ a, p.Returns a → a.2 = eUaOk → r.2 = eUaOk) →
      (outline files server pkgInfo).Triple .download (fun s => r.2 = eUaOk → Verified s.history)
        p fun a s => a.2 = eUaOk → Verified s.history := by
    intro p hp hret
    exact (plain_triple (r.2 = eUaOk) hp).post fun a s _ h hok => h.1 (hret a h.2 hok)
  obtain ⟨dlc', ret⟩ := r
  refine hkeep ?_ ?_
  · simp [Plain, sendDlReport_plain]
  · intro a ha hok
    by_cases hret : ret = eUaOk
    · exact hret
    · simp only [if_neg hret, Prog.returns_bind] at ha
      obtain ⟨_, -, _, -, _, -, heq⟩ := ha
      cases heq
      exact hok

/-- A completed report keeps the invariant after a check. -/
theorem uaDlStepDone_triple (dlc : UaDlContext) :
    (outline files server pkgInfo).Triple .download (fun s => Verified s.history)
      (uaDlStepDone dlc) fun _ s => Verified s.history := by
  unfold uaDlStepDone sendDlReport op
  refine .bind (R := fun _ s => Verified s.history) (.ite (fun _ => ?_) fun _ => ?_) ?_
  · exact .pure stable_now fun _ _ hs => hs
  · refine .perform stable_now (fun _ => stable_now) ?_
    intro s err s' hinv hs hact
    have hhistory := effect_history hact.1
    refine ⟨grants ?_, ?_⟩
    · rw [hhistory]
      exact ⟨fun _ => hs, hinv⟩
    · rw [hhistory]
      exact List.mem_cons_of_mem _ hs
  · exact fun _ => .pure stable_now fun _ _ hs => hs

/-- Completed reports are sent only in a step that follows a check. -/
theorem uaDlStepAction_triple (fuel : Nat) (dlc : UaDlContext) :
    (outline files server pkgInfo).Triple .download
      (fun s => stepDownloaded < dlc.dlRec.step ∧ dlc.dlRec.step ≠ stepEncrypted →
        Verified s.history)
      (uaDlStepAction fuel dlc) fun _ _ => True := by
  induction fuel generalizing dlc with
  | zero => exact .pure (stable_verified _) fun _ _ _ => trivial
  | succ fuel ih =>
      unfold uaDlStepAction
      have hpure : ∀ {P : DlState → Prop} (rc : Option Rc),
          (outline files server pkgInfo).Stable .download P →
          (outline files server pkgInfo).Triple .download P (Prog.pure rc) fun _ _ => True :=
        fun rc hP => .pure hP fun _ _ _ => trivial
      -- after a step that sends no completed report the next one finds the step it set
      have hnext : ∀ {p : DlProg (UaDlContext × Rc)} {step : Int32}, p.All Plain →
          (∀ dlc', p.Returns (dlc', eUaOk) → dlc'.dlRec.step = step) →
          ¬(stepDownloaded < step ∧ step ≠ stepEncrypted) →
          (outline files server pkgInfo).Triple .download (fun _ => True)
            (p >>= fun r => if r.2 ≠ eUaOk then pure (some eUaErr) else uaDlStepAction fuel r.1)
            fun _ _ => True := by
        intro p step hp hstep hlow
        refine .bind (plain_returns hp) ?_
        rintro ⟨dlc', rc⟩
        refine .ite (fun _ => hpure _ (Outline.stable_const _)) fun hrc => ?_
        refine (ih dlc').pre ?_
        intro s _ hret hhigh
        have hok : rc = eUaOk := not_not.mp hrc
        subst hok
        rw [hstep dlc' hret] at hhigh
        exact absurd hhigh hlow
      refine .ite (fun _ => ?_) fun _ => .ite (fun _ => ?_) fun _ => .ite (fun _ => ?_) fun hne =>
        .ite (fun hdone => ?_) fun _ => hpure _ (stable_verified _)
      · exact (hnext (uaDlStepDownload_plain dlc) (fun _ => uaDlStepDownload_step) (by decide)).pre
          fun _ _ _ => trivial
      · exact (hnext (uaDlStepEncrypt_plain dlc) (fun _ => uaDlStepEncrypt_step) (by decide)).pre
          fun _ _ _ => trivial
      · refine (Outline.Triple.bind (uaDlStepVerify_triple dlc) ?_).pre fun _ _ _ => trivial
        rintro ⟨dlc', rc⟩
        refine .ite (fun _ => hpure _ (stable_verified _)) fun hrc => ?_
        exact (ih dlc').pre fun s _ hver _ => hver (not_not.mp hrc)
      · have hhigh : stepDownloaded < dlc.dlRec.step ∧ dlc.dlRec.step ≠ stepEncrypted := by
          rcases hdone with h | h <;> rw [h] <;> decide
        refine .read_bind (R := fun _ s => Verified s.history) (stable_verified _)
          (fun s _ hs => hs hhigh) fun stop => .ite (fun _ => hpure _ stable_now) fun _ => ?_
        refine .bind (uaDlStepDone_triple dlc) ?_
        rintro ⟨dlc', rc⟩
        exact (ih dlc').pre fun s _ hs _ => hs

/-- The start and the end of a download keep the invariant. -/
theorem bracket_triple {o : DlOp} {Q : o.Ans → DlState → Prop}
    (ho : ∀ b s, ∃ es, eventsOf o b s = es ∧ ∀ h, Guarded h → Guarded (es ++ h))
    (hQ : ∀ b s, Q b s) :
    (outline files server pkgInfo).Triple .download (fun _ => True) (op o) Q := by
  refine .perform (Outline.stable_const _) (fun b _ s' _ _ _ _ => hQ b s') ?_
  intro s b s' hinv _ hact
  obtain ⟨es, hes, hkeep⟩ := ho b s
  refine ⟨grants ?_, hQ b s'⟩
  rw [effect_history hact.1, hes]
  exact hkeep _ hinv

theorem download_triple (fuel : Nat) :
    (outline files server pkgInfo).Triple .download (fun _ => True)
      (processStartDownload fuel pkgInfo) fun _ _ => True := by
  have hpure : ∀ {α : Type} (a : α), (outline files server pkgInfo).Triple .download
      (fun _ => True) (Prog.pure a) fun _ _ => True :=
    fun a => .pure (Outline.stable_const _) fun _ _ _ => trivial
  have hplain : ∀ {α : Type} {p : DlProg α}, p.All Plain →
      (outline files server pkgInfo).Triple .download (fun _ => True) p fun _ _ => True :=
    fun hp => (plain_returns hp).post fun _ _ _ _ => trivial
  have hreturn : ∀ rc, (outline files server pkgInfo).Triple .download (fun _ => True)
      (op (.returned pkgInfo rc) >>= fun _ => pure ()) fun _ _ => True := by
    intro rc
    refine .bind (R := fun _ _ => True) (bracket_triple ?_ fun _ _ => trivial) fun _ => hpure ()
    exact fun _ _ => ⟨_, rfl, fun _ h => h⟩
  unfold processStartDownload uaDlStartDownload
  refine .bind (R := fun _ _ => True) (hplain (by simp [op, Plain])) fun _ => ?_
  refine .read_bind (R := fun _ _ => True) (Outline.stable_const _) (fun _ _ _ => trivial) ?_
  intro running
  refine .ite (fun _ => ?_) fun _ => ?_
  · exact .bind (R := fun _ _ => True) (hplain (by simp [op, Plain])) fun _ => hpure ()
  refine .bind (R := fun _ _ => True) (bracket_triple ?_ fun _ _ => trivial) fun _ => ?_
  · exact fun _ _ => ⟨_, rfl, fun _ h => h⟩
  refine .bind (plain_returns (uaDlInit_plain pkgInfo)) fun dlc => ?_
  cases dlc with
  | none => exact (hreturn eUaErr).pre fun _ _ _ => trivial
  | some dlc =>
      refine (Outline.Triple.const_pre (P := fun _ => True) fun hret => ?_).pre
        fun _ _ h => ⟨h, trivial⟩
      have hlow := uaDlInit_step hret
      refine .bind (R := fun _ _ => True) (hplain (by simp [op, Plain])) fun _ => ?_
      refine .bind (R := fun _ _ => True) ?_ fun ret => ?_
      · refine (uaDlStepAction_triple fuel dlc).pre ?_
        intro s _ _ hhigh
        exact absurd hhigh.1 (Int32.not_lt.mpr hlow)
      · cases ret with
        | none => exact hpure ()
        | some ret =>
            exact .bind (R := fun _ _ => True) (hplain (by simp [op, Plain])) fun _ => hreturn ret

/-- Message threads only change flags. -/
theorem message_plain {p : DlProg Unit}
    (h : p = uaDlStopSendingCompletedStatus ∨ p = processDownloadPostpone) :
    p.All fun o => o = .setStopCompletedStatus ∨ o = .setDownloadPostponed true := by
  rcases h with rfl | rfl
  · unfold uaDlStopSendingCompletedStatus op
    simp
  · unfold processDownloadPostpone op
    simp

theorem outline_sound : (outline files server pkgInfo).Sound where
  init := by
    rintro s ⟨-, -, hhistory⟩
    refine ⟨?_, fun _ => trivial⟩
    change Guarded s.history
    rw [hhistory]
    trivial
  restart := by
    rintro s s' hinv rfl
    exact ⟨hinv, fun _ => trivial⟩
  stable := fun _ => Outline.stable_const _
  arrive := by
    rintro t p s s' hinv - ⟨harrives, rfl⟩
    exact ⟨hinv, trivial, harrives, fun _ _ _ => rfl⟩
  body := by
    intro t p s hinv harrives
    cases t with
    | download =>
        obtain ⟨fuel, rfl⟩ := harrives
        exact download_triple fuel s hinv trivial
    | message n =>
        have hframe : (outline files server pkgInfo).Triple (.message n) (fun _ => True) p
            fun _ _ => True := by
          refine (Outline.Triple.frame (P := fun _ => True) (Outline.stable_const _) ?_
            (message_plain harrives)).post fun _ _ _ _ => trivial
          intro o b s s' ho hinv _ hact
          have hsame : s'.history = s.history := by
            rw [effect_history hact.1]
            rcases ho with rfl | rfl <;> rfl
          refine ⟨⟨?_, trivial, fun _ _ _ _ => hsame, fun _ _ _ hfork => nomatch hfork⟩, trivial⟩
          change Guarded s'.history
          rw [hsame]
          exact hinv
        exact hframe s hinv trivial

theorem guarded_split {before after : List DlEvent} {report : DlReport} {err : Rc}
    (h : Guarded (after ++ .reported report err :: before))
    (hdone : report.completedDownload = true) :
    Verified before := by
  induction after with
  | nil => exact h.1 hdone
  | cons e after ih =>
      cases e with
      | reported _ _ => exact ih h.2
      | _ => exact ih h

/-- Whatever the record and the data file hold at the start and whatever the library, the
checks and the file operations answer, a report that the download is completed is sent only
after a check of the decrypted file has succeeded in the same run of ua_dl_start_download. -/
theorem completed_report_verified (files : DlState → Prop) (server : Server) (pkgInfo : PkgInfo)
    (c : Config Tid Flags DlState DlOp.Ans) (hc : (machine files server pkgInfo).Reachable c)
    (after before : List DlEvent) (report : DlReport) (err : Rc)
    (hsent : c.st.history = after ++ .reported report err :: before)
    (hdone : report.completedDownload = true) : .verified ∈ currentRun before := by
  have hinv : Guarded c.st.history := outline_sound.inv hc
  rw [hsent] at hinv
  exact guarded_split hinv hdone

/-- A download without any file before it that sends one completed report. -/
def sampleRun : List (Move (machine (· = freshState) (fun _ _ _ _ => True) samplePkg)) :=
  [arriveMove _ _ _ .download (processStartDownload 4 samplePkg) ⟨4, rfl⟩, .steps .download 40]

def sampleEnd : Config Tid Flags DlState DlOp.Ans :=
  (player _ _ _).play sampleRun ⟨freshState, idlePool⟩

theorem sampleEnd_reachable :
    (machine (· = freshState) (fun _ _ _ _ => True) samplePkg).Reachable sampleEnd :=
  (player _ _ _).play_reachable _ (.init freshState ⟨rfl, rfl, rfl⟩)

theorem completed_report_verified_example :
    ∃ report err before, sampleEnd.st.history = .reported report err :: before ∧
      report.completedDownload = true ∧ .verified ∈ currentRun before := by
  have hsent : sampleEnd.st.history = [] ++
      .reported ⟨samplePkg, 0, 0, 0, false, true, none⟩ eUaOk ::
        [.verified, .initialised (uaDlInitDlRec zeroRecord) none, .began samplePkg] := by
    decide +kernel
  exact ⟨_, _, _, hsent, rfl,
    completed_report_verified _ _ _ _ sampleEnd_reachable _ _ _ _ hsent rfl⟩

end EsyncUa.VerifiedDownloads
