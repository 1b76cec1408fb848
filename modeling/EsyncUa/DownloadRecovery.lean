import EsyncUa.VerifiedDownloads

/-!
What ua_dl_init recovers after any crash.
The data file is only ever a front part of what the server sends: chunks are appended at
the offset that was requested, and a chunk that was cut short is the last of its run. The
record may be older, newer or torn, but what is read of it is small, and ua_dl_init keeps
it only if its checksum is that of the front of the data file that it then cuts the file to.
-/
namespace EsyncUa.DownloadRecovery

open EsyncUa.JsonProperties EsyncUa.Programs EsyncUa.Machines EsyncUa.Outlines
open EsyncUa.Schedules EsyncUa.Checksums EsyncUa.DownloadRecords EsyncUa.Downloads
open EsyncUa.DownloadRuns EsyncUa.VerifiedDownloads

/-- The library calls dmc_recv_cb as long as it returns XL4_DME_OK, and the server continues
at the requested offset: what it delivers are its next bytes. -/
def continues (content : Bytes) : Server := fun requested received rc ddc =>
  rc = .ok ∧ ddc.contentByteOffset = requested ∧
    ∀ data, ddc.data = some data → ddc.result = .ok →
      data <+: content.drop (requested.toNat + received)

/-- A write of the record that was cut short is followed by the crash that cut it. -/
def TornByCrash (_t : Tid) (s _s' : DlState) : Prop := s.recordTorn = false

def noFiles (s : DlState) : Prop := s.record = none ∧ s.recordTorn = false ∧ s.data = none

/-- The runs of the download of a content, from the first one on. -/
def recoveryMachine (content : Bytes) (pkgInfo : PkgInfo) : Machine Tid Flags DlState DlOp.Ans :=
  (machine noFiles (continues content) pkgInfo).restrict TornByCrash

/-- The data file holds exactly the bytes the record tells of, and the record has their
checksum. -/
def Consistent (content : Bytes) (dlRec : DlRecord) (data : Option Bytes) : Prop :=
  (data = none ∧ dlRec.bytesWritten = 0 ∨
    data = some (content.take dlRec.bytesWritten.toNat) ∧
      dlRec.bytesWritten.toNat ≤ content.length) ∧
  dlRec.crc32 = bufCrc32 (content.take dlRec.bytesWritten.toNat) 0

/-- Every ua_dl_init of the history ended consistently. -/
def Recovered (content : Bytes) (h : List DlEvent) : Prop :=
  ∀ dlRec data, .initialised dlRec data ∈ h → Consistent content dlRec data

structure Inv (content : Bytes) (s : DlState) : Prop where
  record : ∀ file, s.record = some file → SmallBytes file
  data : ∀ file, s.data = some file → file <+: content
  recovered : Recovered content s.history

variable {content : Bytes} {pkgInfo : PkgInfo}

variable (content pkgInfo) in
def outline : Outline (recoveryMachine content pkgInfo) where
  inv := Inv content
  rely := fun t s s' => t = .download → s'.record = s.record ∧ s'.recordTorn = s.recordTorn ∧
    s'.data = s.data
  guar := fun _ _ _ => True
  start := fun t p _ => Arrives pkgInfo t p
  post := fun _ _ => True

/-- A condition on the files, as long as the record was not torn: then only a crash follows. -/
def Live (Φ : Option Bytes → Option Bytes → Prop) (s : DlState) : Prop :=
  s.recordTorn = false → Φ s.record s.data

theorem stable_live (Φ : Option Bytes → Option Bytes → Prop) :
    (outline content pkgInfo).Stable .download (Live Φ) := by
  intro s s' _ hs hrely _
  obtain ⟨hrecord, htorn, hdata⟩ := hrely rfl
  unfold Live
  rw [hrecord, htorn, hdata]
  exact hs

theorem grants {o : DlOp} {b : o.Ans} {s s' : DlState} (hinv : Inv content s') :
    (outline content pkgInfo).Grants .download o b s s' where
  inv := hinv
  guar := trivial
  rely := fun _ hne _ heq => absurd heq hne
  fork := fun _ _ _ hfork => nomatch hfork

/-- The operations that leave both files alone and do not end ua_dl_init. -/
def Still : DlOp → Prop
  | .openRecordNew | .openRecordAppend | .writeRecord _ | .appendData _ | .truncateData _
  | .removeData | .setContext _ => False
  | _ => True

theorem still_files {o : DlOp} {b : o.Ans} {s s' : DlState} (ho : Still o)
    (hact : effect o b s = some s') :
    s'.record = s.record ∧ s'.recordTorn = s.recordTorn ∧ s'.data = s.data := by
  cases o with
  | openData =>
      cases b with
      | none =>
          cases hact
          exact ⟨rfl, rfl, rfl⟩
      | some file =>
          simp only [effect] at hact
          split at hact
          · cases hact
          · split at hact
            · cases hact
              exact ⟨rfl, rfl, rfl⟩
            · cases hact
  | accessRecord | readRecord | verifyBinary i =>
      simp only [effect] at hact
      split at hact
      all_goals
        cases hact
        try exact ⟨rfl, rfl, rfl⟩
  | crash => exact b.elim
  | openRecordNew | openRecordAppend | writeRecord bytes | appendData bytes | truncateData len
  | removeData | setContext dlRec => exact absurd ho id
  | _ =>
      cases hact
      exact ⟨rfl, rfl, rfl⟩

/-- Only the end of ua_dl_init is recorded as such. -/
theorem recovered_effect {o : DlOp} {b : o.Ans} {s s' : DlState} (ho : ∀ r, o ≠ .setContext r)
    (h : Recovered content s.history) (hact : effect o b s = some s') :
    Recovered content s'.history := by
  rw [effect_history hact]
  intro dlRec data hmem
  refine h dlRec data ?_
  cases o with
  | setContext r => exact absurd rfl (ho r)
  | verifyBinary i =>
      cases b with
      | false => exact hmem
      | true => simpa [eventsOf] using hmem
  | begin p | returned p rc | sendReport report => simpa [eventsOf] using hmem
  | _ => exact hmem

theorem inv_still {o : DlOp} {b : o.Ans} {s s' : DlState} (ho : Still o) (h : Inv content s)
    (hact : effect o b s = some s') : Inv content s' := by
  obtain ⟨hrecord, -, hdata⟩ := still_files ho hact
  refine ⟨?_, ?_, recovered_effect ?_ h.recovered hact⟩
  · rw [hrecord]
    exact h.record
  · rw [hdata]
    exact h.data
  · rintro r rfl
    exact ho

/-- A program that leaves the files alone keeps every condition on them. -/
theorem still_triple {α : Type} {p : DlProg α} (Φ : Option Bytes → Option Bytes → Prop)
    (hp : p.All Still) :
    (outline content pkgInfo).Triple .download (Live Φ) p
      fun a s => Live Φ s ∧ p.Returns a := by
  refine .frame (stable_live Φ) ?_ hp
  intro o b s s' ho hinv hs hact
  refine ⟨grants (inv_still ho hinv hact.1.1), ?_⟩
  obtain ⟨hrecord, htorn, hdata⟩ := still_files ho hact.1.1
  unfold Live
  rw [hrecord, htorn, hdata]
  exact hs

theorem still_op {o : DlOp} (ho : Still o) (Φ : Option Bytes → Option Bytes → Prop) :
    (outline content pkgInfo).Triple .download (Live Φ) (op o) fun _ => Live Φ :=
  (still_triple Φ ((Prog.all_perform ..).mpr ho)).post fun _ _ _ h => h.1

theorem pure_triple {α : Type} (a : α) {Φ : Option Bytes → Option Bytes → Prop}
    {Q : α → DlState → Prop} (hQ : ∀ s, Live Φ s → Q a s) :
    (outline content pkgInfo).Triple .download (Live Φ) (Prog.pure a) Q :=
  .pure (stable_live Φ) fun s _ hs => hQ s hs

/-- A fact that holds unless the record was torn may be used: after a torn record no operation
is left to be done. -/
theorem live_const {α : Type} {φ : Prop} {p : DlProg α} {Φ : Option Bytes → Option Bytes → Prop}
    {Ψ : α → Option Bytes → Option Bytes → Prop}
    (h : φ → (outline content pkgInfo).Triple .download (Live Φ) p fun a => Live (Ψ a)) :
    (outline content pkgInfo).Triple .download (Live fun record data => φ ∧ Φ record data) p
      fun a => Live (Ψ a) := by
  by_cases hφ : φ
  · exact (h hφ).pre fun s _ hs htorn => (hs htorn).2
  · have htorn : (outline content pkgInfo).Triple .download
        (Live fun _ _ => False) p fun a s => Live (fun _ _ => False) s ∧ p.Returns a := by
      refine .frame (G := fun _ => True) (stable_live _) ?_ (Prog.all_true p)
      intro o b s s' _ _ hs hact
      exact (hs hact.2).elim
    refine (htorn.pre ?_).post ?_
    · exact fun s _ hs ht => hφ (hs ht).1
    · exact fun a s _ hs ht => (hs.1 ht).elim

/-- One operation on the files. -/
theorem op_triple {o : DlOp} {Φ : Option Bytes → Option Bytes → Prop}
    {Ψ : o.Ans → Option Bytes → Option Bytes → Prop}
    (h : ∀ s b s', Inv content s → Φ s.record s.data → effect o b s = some s' →
      Inv content s' ∧ (s'.recordTorn = false → Ψ b s'.record s'.data)) :
    (outline content pkgInfo).Triple .download (Live Φ) (op o) fun b => Live (Ψ b) := by
  refine .perform (stable_live Φ) (fun b => stable_live (Ψ b)) ?_
  intro s b s' hinv hs hact
  obtain ⟨hinv', hs'⟩ := h s b s' hinv (hs hact.2) hact.1.1
  exact ⟨grants hinv', hs'⟩

/-- The record file reaches behind the lengths of a record. -/
def Long (record : Option Bytes) : Prop := ∃ file, record = some file ∧ 24 ≤ file.length

theorem encode_length (r : DlRecord) : r.encode.length = DlRecord.size := by
  simp [DlRecord.encode, leBytes_length, DlRecord.padded, eTagMaxSize, DlRecord.size]

/-- Writing to the end of the record file where it stays small. -/
theorem writeRecord_triple (dlRec : DlRecord) {Φ : Option Bytes → Option Bytes → Prop}
    {Ψ : Option Bytes → Prop}
    (hsmall : ∀ record data n, Φ record data → (∀ file, record = some file → SmallBytes file) →
      SmallBytes (record.getD [] ++ dlRec.encode.take n))
    (hΨ : ∀ record data, Φ record data → Ψ data) :
    (outline content pkgInfo).Triple .download (Live Φ) (op (.writeRecord dlRec.encode))
      fun _ => Live fun record data => Long record ∧ Ψ data := by
  refine op_triple (Ψ := fun _ record data => Long record ∧ Ψ data) ?_
  intro s n s' hinv hs hact
  have hrec := recovered_effect (o := .writeRecord dlRec.encode) (by simp) hinv.recovered hact
  cases hact
  refine ⟨⟨?_, hinv.data, hrec⟩, fun htorn => ⟨⟨_, rfl, ?_⟩, hΨ _ _ hs⟩⟩
  · rintro file hfile
    cases hfile
    exact hsmall _ _ n hs hinv.record
  · have hle : dlRec.encode.length ≤ n := by simpa using htorn
    rw [List.take_of_length_le hle, List.length_append, encode_length]
    exact le_trans (by decide) (Nat.le_add_left _ _)

/-- ua_dl_save_dl_rc writes a small record over the file, or leaves a long file as it is. -/
theorem uaDlSaveDlRc_triple {dlRec : DlRecord} (hsmall : SmallRecord dlRec) (κ : Prop)
    (Φ : Option Bytes → Prop) :
    (outline content pkgInfo).Triple .download
      (Live fun record data => (κ → Long record) ∧ Φ data) (uaDlSaveDlRc dlRec)
      fun _ => Live fun record data => (κ → Long record) ∧ Φ data := by
  unfold uaDlSaveDlRc
  refine .bind (R := fun (b : Bool) => Live fun record data =>
    (if b = true then record = some [] else κ → Long record) ∧ Φ data) ?_ fun b =>
      .ite (fun hb => ?_) fun hb => ?_
  · refine op_triple (o := .openRecordNew) (Ψ := fun (b : Bool) record data =>
      (if b = true then record = some [] else κ → Long record) ∧ Φ data) ?_
    intro s b s' hinv hs hact
    have hrec := recovered_effect (o := .openRecordNew) (by simp) hinv.recovered hact
    cases b with
    | false =>
        cases hact
        exact ⟨hinv, fun _ => hs⟩
    | true =>
        cases hact
        refine ⟨⟨?_, hinv.data, hrec⟩, fun _ => ⟨rfl, hs.2⟩⟩
        rintro file hfile
        cases hfile
        exact smallBytes_nil
  · refine .bind (R := fun _ => Live fun record data => Long record ∧ Φ data) ?_ fun _ => ?_
    · refine writeRecord_triple dlRec ?_ ?_
      · rintro record data n ⟨hrecord, -⟩ -
        rw [if_pos hb] at hrecord
        rw [hrecord, Option.getD_some, List.nil_append]
        exact hsmall.encode.torn (List.take_prefix _ _)
      · exact fun _ _ h => h.2
    · exact pure_triple _ fun s hs htorn => ⟨fun _ => (hs htorn).1, (hs htorn).2⟩
  · refine pure_triple _ fun s hs htorn => ?_
    simpa only [if_neg hb] using hs htorn

theorem removeData_triple (Φ : Option Bytes → Option Bytes → Prop) :
    (outline content pkgInfo).Triple .download (Live Φ) (op .removeData)
      fun _ => Live fun _ data => data = none := by
  refine op_triple (Ψ := fun _ _ data => data = none) ?_
  intro s b s' hinv _ hact
  have hrec := recovered_effect (o := .removeData) (by simp) hinv.recovered hact
  cases hact
  exact ⟨⟨hinv.record, by simp, hrec⟩, fun _ => rfl⟩

/-- Starting over leaves no data file and an empty record. -/
theorem startOver_triple (dlRec : DlRecord) (Φ : Option Bytes → Option Bytes → Prop) :
    (outline content pkgInfo).Triple .download (Live Φ) (startOver dlRec)
      fun r => Live fun _ data => data = none ∧ r = uaDlInitDlRec dlRec := by
  unfold startOver
  refine .bind (R := fun _ => Live fun _ _ => True) ?_ fun _ => ?_
  · refine (writeRecord_triple (Ψ := fun _ => True) _ ?_ fun _ _ _ => trivial).post
      fun _ _ _ _ _ => trivial
    intro record data n _ hrecord
    cases record with
    | none => exact (initDlRec_small dlRec).encode.torn (List.take_prefix _ _)
    | some file =>
        refine (hrecord file rfl).append (Or.inr ?_)
        exact (initDlRec_clear dlRec).torn (List.take_prefix _ _)
  · refine .bind (removeData_triple _) fun _ => pure_triple _ fun s hs htorn => ?_
    exact ⟨hs htorn, rfl⟩

theorem consistent_empty (dlRec : DlRecord) : Consistent content (uaDlInitDlRec dlRec) none := by
  refine ⟨Or.inl ⟨rfl, rfl⟩, ?_⟩
  simp [uaDlInitDlRec, bufCrc32]

theorem asInt_small {n : UInt64} (h : n.toNat < 2 ^ 31) : (asInt n).toNatClampNeg = n.toNat := by
  have hofNat : asInt n = Int32.ofNat n.toNat := rfl
  rw [hofNat, Int32.toNatClampNeg_ofNat_of_lt h]

theorem resize_of_le {len : Nat} {file : Bytes} (h : len ≤ file.length) :
    resize len file = file.take len := by
  simp [resize, Nat.sub_eq_zero_of_le h]

theorem take_of_prefix {file : Bytes} (h : file <+: content) {n : Nat} (hn : n ≤ file.length) :
    file.take n = content.take n := by
  obtain ⟨rest, rfl⟩ := h
  rw [List.take_append_of_le_length hn]

/-- Dropping the last package keeps the record small and the file long. -/
theorem dropLastPackage_triple {dlRec : DlRecord} (hsmall : SmallRecord dlRec)
    (Φ : Option Bytes → Prop) :
    (outline content pkgInfo).Triple .download
      (Live fun record data => Long record ∧ Φ data) (dropLastPackage dlRec)
      fun r => Live fun record data => (Long record ∧ Φ data) ∧ SmallRecord r := by
  unfold dropLastPackage
  refine .ite (fun _ => ?_) fun _ => pure_triple _ fun s hs htorn => ⟨hs htorn, hsmall⟩
  have hdropped : SmallRecord { dlRec with
      bytesWritten := dlRec.lastBytesWritten, crc32 := dlRec.lastCrc32 } := ⟨hsmall.2, hsmall.2⟩
  refine .bind ((uaDlSaveDlRc_triple hdropped True Φ).pre ?_) fun _ =>
    pure_triple _ fun s hs htorn => ⟨⟨(hs htorn).1 trivial, (hs htorn).2⟩, hdropped⟩
  exact fun s _ hs htorn => ⟨fun _ => (hs htorn).1, (hs htorn).2⟩

/-- Continuing cuts the data file to the length of the record. -/
theorem continueDownload_triple {dlRec : DlRecord} (hsmall : SmallRecord dlRec) (file : Bytes) :
    (outline content pkgInfo).Triple .download
      (Live fun record data => Long record ∧ ∃ x, data = some x ∧ file <+: x)
      (continueDownload dlRec file)
      fun r => Live fun _ data => Consistent content r data ∧ SmallRecord r := by
  unfold continueDownload
  refine .bind (dropLastPackage_triple hsmall _) fun r => ?_
  refine .ite (fun hcrc => ?_) fun _ => ?_
  · obtain ⟨-, hlen, hsum⟩ := uaDlCalcFileCrc32_eq_some hcrc
    generalize hstep :
      (if stepDownloaded < r.step then { r with step := stepDownloaded } else r) = r'
    have hsame : r'.bytesWritten = r.bytesWritten ∧ r'.crc32 = r.crc32 ∧
        r'.lastBytesWritten = r.lastBytesWritten := by
      rw [← hstep]
      split <;> exact ⟨rfl, rfl, rfl⟩
    refine .bind (writeRecord_triple r' (Ψ := fun data =>
      (∃ x, data = some x ∧ file <+: x) ∧ SmallRecord r) ?_ fun _ _ h => ⟨h.1.2, h.2⟩) fun _ => ?_
    · rintro record data n ⟨⟨⟨x, rfl, hlong⟩, -⟩, -⟩ hrecord
      exact (hrecord x rfl).append (Or.inl hlong)
    · refine .bind (R := fun _ => Live fun _ data => Consistent content r' data ∧ SmallRecord r')
        ?_ fun _ => pure_triple _ fun s hs => hs
      refine op_triple (o := .truncateData r'.bytesWritten) (Ψ := fun _ _ data =>
        Consistent content r' data ∧ SmallRecord r') ?_
      rintro s b s' hinv ⟨-, ⟨x, hx, hfile⟩, hr⟩ hact
      have hrec := recovered_effect (o := .truncateData r'.bytesWritten) (by simp)
        hinv.recovered hact
      have hfront := hinv.data x hx
      rw [asInt_small hr.1] at hlen hsum
      have hle : r.bytesWritten.toNat ≤ x.length := le_trans hlen hfile.length_le
      have hle' : r.bytesWritten.toNat ≤ content.length := le_trans hle hfront.length_le
      have hcut : resize r'.bytesWritten.toNat x = content.take r.bytesWritten.toNat := by
        rw [hsame.1, resize_of_le hle, take_of_prefix hfront hle]
      cases hact
      refine ⟨⟨hinv.record, ?_, hrec⟩, fun _ => ⟨⟨Or.inr ⟨?_, ?_⟩, ?_⟩, ?_⟩⟩
      · intro y hy
        simp only [hx, Option.map_some, Option.some.injEq] at hy
        rw [← hy, hcut]
        exact List.take_prefix _ _
      · change s.data.map (resize r'.bytesWritten.toNat) = _
        rw [hx, Option.map_some, hcut, hsame.1]
      · rw [hsame.1]
        exact hle'
      · rw [hsame.2.1, hsame.1, hsum, take_of_prefix (hfile.trans hfront) hlen]
      · unfold SmallRecord
        rw [hsame.1, hsame.2.2]
        exact hr
  · refine (startOver_triple r _).post fun a s _ hs htorn => ?_
    obtain ⟨hdata, rfl⟩ := hs htorn
    rw [hdata]
    exact ⟨consistent_empty r, initDlRec_small r⟩

/-- After ua_dl_init the files are consistent with a small record. -/
def Settled (content : Bytes) (r : DlRecord) (data : Option Bytes) : Prop :=
  Consistent content r data ∧ SmallRecord r

theorem startOver_settles (dlRec : DlRecord) (Φ : Option Bytes → Option Bytes → Prop) :
    (outline content pkgInfo).Triple .download (Live Φ) (some <$> startOver dlRec)
      fun r => Live fun _ data => ∀ dlRec', r = some dlRec' → Settled content dlRec' data := by
  rw [map_eq_pure_bind]
  refine .bind (startOver_triple dlRec Φ) fun r => pure_triple _ fun s hs htorn => ?_
  obtain ⟨hdata, rfl⟩ := hs htorn
  rintro r' hr'
  cases hr'
  rw [hdata]
  exact ⟨consistent_empty dlRec, initDlRec_small dlRec⟩

theorem settleRecord_triple :
    (outline content pkgInfo).Triple .download (Live fun _ _ => True) settleRecord
      fun r => Live fun _ data => ∀ dlRec, r = some dlRec → Settled content dlRec data := by
  have hnone : ∀ Φ, (outline content pkgInfo).Triple .download (Live Φ)
      (Prog.pure (none : Option DlRecord))
      fun r => Live fun _ data => ∀ dlRec, r = some dlRec → Settled content dlRec data := by
    refine fun Φ => pure_triple _ fun s _ _ r hr => ?_
    cases hr
  unfold settleRecord
  refine .bind (still_op (by trivial) _) fun found => .ite (fun _ => ?_) fun _ => ?_
  · refine .bind (R := fun _ => Live fun _ _ => True) ?_ fun opened =>
      .ite (fun _ => ?_) fun _ => hnone _
    · refine op_triple (o := .openRecordAppend) (Ψ := fun _ _ _ => True) ?_
      intro s b s' hinv _ hact
      have hrec := recovered_effect (o := .openRecordAppend) (by simp) hinv.recovered hact
      cases b with
      | false =>
          cases hact
          exact ⟨hinv, fun _ => trivial⟩
      | true =>
          cases hact
          refine ⟨⟨?_, hinv.data, hrec⟩, fun _ => trivial⟩
          rintro file hfile
          cases hfile
          cases hs : s.record with
          | none => exact smallBytes_nil
          | some file => exact hinv.record file hs
    · refine .bind (R := fun bytes => Live fun record _ =>
        SmallBytes bytes ∧ (bytes.length = DlRecord.size → Long record)) ?_ fun bytes => ?_
      · refine op_triple (o := .readRecord) (Ψ := fun bytes record _ =>
          SmallBytes bytes ∧ (bytes.length = DlRecord.size → Long record)) ?_
        intro s b s' hinv _ hact
        have hinv' := inv_still (o := .readRecord) trivial hinv hact
        simp only [effect] at hact
        split at hact
        · rename_i hfront
          cases hact
          refine ⟨hinv', fun _ => ⟨?_, ?_⟩⟩
          · cases hrecord : s.record with
            | none =>
                rw [hrecord] at hfront
                have hnil : b = [] := by simpa using hfront
                rw [hnil]
                exact smallBytes_nil
            | some file =>
                rw [hrecord] at hfront
                exact (hinv.record file hrecord).torn (hfront.trans (List.take_prefix _ _))
          · intro hlen
            have hle := hfront.length_le
            rw [hlen, List.length_take] at hle
            cases hrecord : s.record with
            | none =>
                rw [hrecord] at hle
                exact absurd hle (by decide)
            | some file =>
                refine ⟨file, rfl, ?_⟩
                rw [hrecord] at hle
                simp only [Option.getD_some, DlRecord.size] at hle
                omega
        · cases hact
      · refine .ite (fun _ => startOver_settles _ _) fun hlen => ?_
        have hsize : bytes.length = DlRecord.size := not_not.mp hlen
        refine .bind (R := fun file => Live fun record data => SmallBytes bytes ∧ Long record ∧
          ∀ f, file = some f → ∃ x, data = some x ∧ f <+: x) ?_ fun file => ?_
        · refine op_triple (o := .openData) (Ψ := fun file record data => SmallBytes bytes ∧
            Long record ∧ ∀ f, file = some f → ∃ x, data = some x ∧ f <+: x) ?_
          rintro s file s' hinv ⟨hsmall, hlong⟩ hact
          have hinv' := inv_still (o := .openData) trivial hinv hact
          obtain ⟨hrecord, -, hdata⟩ := still_files (o := .openData) trivial hact
          refine ⟨hinv', fun _ => ⟨hsmall, ?_, ?_⟩⟩
          · rw [hrecord]
            exact hlong hsize
          · rintro f rfl
            rw [hdata]
            simp only [effect] at hact
            split at hact
            · cases hact
            · rename_i x hx
              split at hact
              · rename_i hfront
                exact ⟨x, hx, hfront⟩
              · cases hact
        · cases file with
          | none => exact startOver_settles _ _
          | some file =>
              have hcont : SmallBytes bytes →
                  (outline content pkgInfo).Triple .download
                    (Live fun record data => Long record ∧ ∃ x, data = some x ∧ file <+: x)
                    (some <$> continueDownload (DlRecord.decode bytes) file)
                    fun r => Live fun _ data =>
                      ∀ dlRec, r = some dlRec → Settled content dlRec data := by
                intro hsmall
                rw [map_eq_pure_bind]
                refine .bind (continueDownload_triple hsmall.decode file) fun r =>
                  pure_triple _ fun s hs htorn r' hr' => ?_
                cases hr'
                exact hs htorn
              refine live_const fun hsmall => (hcont hsmall).pre fun s _ hs htorn => ?_
              exact ⟨(hs htorn).1, (hs htorn).2 file rfl⟩
  · refine .bind (R := fun _ => Live fun _ _ => True) ?_ fun opened =>
      .ite (fun _ => startOver_settles _ _) fun _ => hnone _
    refine op_triple (o := .openRecordNew) (Ψ := fun _ _ _ => True) ?_
    intro s b s' hinv _ hact
    have hrec := recovered_effect (o := .openRecordNew) (by simp) hinv.recovered hact
    cases b with
    | false =>
        cases hact
        exact ⟨hinv, fun _ => trivial⟩
    | true =>
        cases hact
        refine ⟨⟨?_, hinv.data, hrec⟩, fun _ => trivial⟩
        rintro file hfile
        cases hfile
        exact smallBytes_nil

/-- The next bytes of the content are those behind what the data file holds. -/
structure Receiving (content : Bytes) (dlc : UaDlContext) (position : Nat) (data : Option Bytes) :
    Prop where
  file : data.getD [] = content.take position
  bound : position ≤ content.length
  downloaded : dlc.dlInfo.downloadedBytes.toNat = position

/-- ua_dl_init records a consistent end and leaves the download ready to go on. -/
theorem uaDlInit_triple :
    (outline content pkgInfo).Triple .download (Live fun _ _ => True) (uaDlInit pkgInfo)
      fun r => Live fun _ data => ∀ dlc, r = some dlc → SmallRecord dlc.dlRec ∧
        Receiving content dlc dlc.dlRec.bytesWritten.toNat data := by
  have hnone : ∀ Φ, (outline content pkgInfo).Triple .download (Live Φ)
      (Prog.pure (none : Option UaDlContext))
      fun r => Live fun _ data => ∀ dlc, r = some dlc → SmallRecord dlc.dlRec ∧
        Receiving content dlc dlc.dlRec.bytesWritten.toNat data := by
    refine fun Φ => pure_triple _ fun s _ _ r hr => ?_
    cases hr
  unfold uaDlInit
  refine .bind (still_op (by trivial) _) fun made => .ite (fun _ => ?_) fun _ => hnone _
  refine .bind settleRecord_triple fun r => ?_
  cases r with
  | none => exact hnone _
  | some dlRec =>
      refine .bind (R := fun _ => Live fun _ data => Settled content dlRec data) ?_ fun _ => ?_
      · refine op_triple (o := .setContext dlRec)
          (Ψ := fun _ _ data => Settled content dlRec data) ?_
        intro s b s' hinv hs hact
        have hsettled := hs dlRec rfl
        cases hact
        refine ⟨⟨hinv.record, hinv.data, ?_⟩, fun _ => hsettled⟩
        intro r data hmem
        rcases List.mem_cons.mp hmem with heq | hold
        · cases heq
          exact hsettled.1
        · exact hinv.recovered r data hold
      · refine pure_triple _ fun s hs htorn dlc hdlc => ?_
        obtain ⟨⟨hdata, -⟩, hsmall⟩ := hs htorn
        cases hdlc
        refine ⟨hsmall, ?_⟩
        rcases hdata with ⟨hnone, hzero⟩ | ⟨hsome, hle⟩
        · refine ⟨?_, ?_, rfl⟩
          · simp [hnone, hzero]
          · simp [hzero]
        · exact ⟨by rw [hsome]; rfl, hle, rfl⟩

/-- What dmc_recv_cb keeps: a small record, and the position as long as it returns
XL4_DME_OK. -/
def Progress (content : Bytes) (dlc : UaDlContext) (position : Nat) (rc : DmeCode)
    (data : Option Bytes) : Prop :=
  SmallRecord dlc.dlRec ∧ (rc = .ok → Receiving content dlc position data)

theorem save_progress {dlRec : DlRecord} (hsmall : SmallRecord dlRec) (Φ : Option Bytes → Prop) :
    (outline content pkgInfo).Triple .download (Live fun _ data => Φ data) (uaDlSaveDlRc dlRec)
      fun _ => Live fun _ data => Φ data := by
  refine ((uaDlSaveDlRc_triple hsmall False Φ).pre ?_).post ?_
  · exact fun s _ hs htorn => ⟨False.elim, hs htorn⟩
  · exact fun _ s _ hs htorn => (hs htorn).2

theorem report_still (pkgInfo : PkgInfo) (dlInfo : DlInfo) (isDone : Bool) :
    (sendDlReport pkgInfo dlInfo isDone).All Still := by
  unfold sendDlReport
  split
  · exact Prog.all_pure _ _
  · exact (Prog.all_perform ..).mpr trivial

theorem report_keeps (pkg : PkgInfo) (dlInfo : DlInfo) (isDone : Bool)
    (Φ : Option Bytes → Option Bytes → Prop) :
    (outline content pkgInfo).Triple .download (Live Φ) (sendDlReport pkg dlInfo isDone)
      fun _ => Live Φ :=
  (still_triple Φ (report_still _ _ _)).post fun _ _ _ h => h.1

theorem uaDlSaveData_triple {position : Nat} (dlc : UaDlContext) (data : Bytes)
    (hdata : data <+: content.drop position) :
    (outline content pkgInfo).Triple .download
      (Live fun _ file => Receiving content dlc position file) (uaDlSaveData data)
      fun saved => Live fun _ file => saved = eUaOk →
        file.getD [] = content.take (position + data.length) ∧
          position + data.length ≤ content.length ∧
          dlc.dlInfo.downloadedBytes.toNat = position := by
  obtain ⟨rest, hrest⟩ := hdata
  have hwhole : ∀ n ≤ data.length,
      content.take position ++ data.take n = content.take (position + n) := by
    intro n hn
    rw [List.take_add, ← hrest, List.take_append_of_le_length hn]
  unfold uaDlSaveData
  refine .bind (R := fun (written : Option Nat) => Live fun _ file =>
    written = some data.length → file.getD [] = content.take (position + data.length) ∧
      position + data.length ≤ content.length ∧
      dlc.dlInfo.downloadedBytes.toNat = position) ?_ fun written => ?_
  · refine op_triple (o := .appendData data) (Ψ := fun (written : Option Nat) _ file =>
      written = some data.length → file.getD [] = content.take (position + data.length) ∧
        position + data.length ≤ content.length ∧
        dlc.dlInfo.downloadedBytes.toNat = position) ?_
    intro s written s' hinv hs hact
    have hrec := recovered_effect (o := .appendData data) (by simp) hinv.recovered hact
    cases written with
    | none =>
        cases hact
        exact ⟨hinv, fun _ h => nomatch h⟩
    | some n =>
        simp only [effect] at hact
        split at hact
        · rename_i hn
          cases hact
          have happend : s.data.getD [] ++ data.take n = content.take (position + n) := by
            rw [hs.file, hwhole n hn]
          refine ⟨⟨hinv.record, ?_, hrec⟩, fun _ hlen => ?_⟩
          · intro file hfile
            simp only [Option.some.injEq] at hfile
            rw [← hfile, happend]
            exact List.take_prefix _ _
          · cases hlen
            refine ⟨happend, ?_, hs.downloaded⟩
            have hlength := congrArg List.length hrest
            rw [List.length_append, List.length_drop] at hlength
            have := hs.bound
            omega
        · cases hact
  · refine .ite (fun hw => pure_triple _ fun s hs htorn _ => hs htorn hw) fun _ =>
      pure_triple _ fun s _ _ h => ?_
    cases h

/-- A chunk that was saved advances the position by its length. -/
theorem afterChunk_progress {dlc : UaDlContext} {position : Nat} {file : Option Bytes}
    (eTag : Option Bytes) (data : Bytes) (hlen : content.length < 2 ^ 31)
    (hsmall : SmallRecord dlc.dlRec)
    (h : file.getD [] = content.take (position + data.length) ∧
      position + data.length ≤ content.length ∧ dlc.dlInfo.downloadedBytes.toNat = position) :
    SmallRecord (afterChunk dlc eTag data).dlRec ∧
      Receiving content (afterChunk dlc eTag data) (position + data.length) file := by
  obtain ⟨hfile, hbound, hdown⟩ := h
  have hdownloaded : (dlc.dlInfo.downloadedBytes + .ofNat data.length).toNat =
      position + data.length := by
    rw [UInt64.toNat_add, UInt64.toNat_ofNat', hdown,
      Nat.mod_eq_of_lt (a := data.length) (by omega)]
    exact Nat.mod_eq_of_lt (by omega)
  refine ⟨⟨?_, hsmall.1⟩, hfile, hbound, hdownloaded⟩
  change (dlc.dlInfo.downloadedBytes + .ofNat data.length).toNat < 2 ^ 31
  omega

theorem recvData_triple (hlen : content.length < 2 ^ 31) {position : Nat} (dlc : UaDlContext)
    (ddc : Delivery) (data : Bytes)
    (hdata : ddc.result = .ok → data <+: content.drop position) :
    (outline content pkgInfo).Triple .download
      (Live fun _ file => SmallRecord dlc.dlRec ∧ Receiving content dlc position file)
      (recvData dlc ddc data)
      fun r => Live fun _ file => Progress content r.1 (position + data.length) r.2 file := by
  refine live_const fun hsmall => ?_
  unfold recvData
  refine .ite (fun hok => ?_) fun hbad => ?_
  · refine .bind (R := fun saved => Live fun _ file => saved = eUaOk →
      file.getD [] = content.take (position + data.length) ∧
        position + data.length ≤ content.length ∧
        dlc.dlInfo.downloadedBytes.toNat = position) ?_ fun saved => ?_
    · refine .ite (fun _ => pure_triple _ fun s _ _ h => ?_) fun _ =>
        uaDlSaveData_triple dlc data (hdata hok)
      cases h
    · refine .ite (fun hsaved => ?_) fun _ => pure_triple _ fun s _ _ => ⟨hsmall, ?_⟩
      · refine Outline.Triple.pre (P := Live fun _ file =>
          (SmallRecord (afterChunk dlc ddc.eTag data).dlRec ∧
            Receiving content (afterChunk dlc ddc.eTag data) (position + data.length) file)) ?_ ?_
        · refine live_const fun hsmall' => ?_
          refine .bind (save_progress hsmall' fun file =>
            Receiving content (afterChunk dlc ddc.eTag data) (position + data.length) file)
            fun _ => .ite (fun _ => ?_) fun _ => ?_
          · refine .bind (report_keeps _ _ _ _) fun _ => pure_triple _ fun s hs htorn => ?_
            exact ⟨hsmall', fun _ => ⟨(hs htorn).file, (hs htorn).bound, (hs htorn).downloaded⟩⟩
          · exact pure_triple _ fun s hs htorn => ⟨hsmall', fun _ => hs htorn⟩
        · exact fun s _ hs htorn => afterChunk_progress _ _ hlen hsmall (hs htorn hsaved)
      · intro h
        cases h
  · refine .bind (report_keeps _ _ _ _) fun _ => pure_triple _ fun s _ _ => ⟨hsmall, ?_⟩
    exact fun h => absurd h hbad

theorem dmcRecvCb_triple (hlen : content.length < 2 ^ 31) {received : Nat} (dlc : UaDlContext)
    (requested : UInt64) (ddc : Delivery) (hoffset : ddc.contentByteOffset = requested)
    (hdata : ∀ data, ddc.data = some data → ddc.result = .ok →
      data <+: content.drop (requested.toNat + received)) :
    (outline content pkgInfo).Triple .download
      (Live fun _ file => SmallRecord dlc.dlRec ∧
        Receiving content dlc (requested.toNat + received) file)
      (dmcRecvCb dlc requested ddc)
      fun r => Live fun _ file => Progress content r.1
        (r.2.1.toNat + (received + (ddc.data.getD []).length)) r.2.2 file := by
  unfold dmcRecvCb
  cases hd : ddc.data with
  | none =>
      refine pure_triple _ fun s hs htorn => ⟨(hs htorn).1, ?_⟩
      exact fun h => nomatch h
  | some data =>
      refine .bind (R := fun r => Live fun _ file => r = (dlc, .ok) ∧ SmallRecord dlc.dlRec ∧
        Receiving content dlc (requested.toNat + received) file) ?_ fun r => ?_
      · rw [if_neg (not_not.mpr hoffset.symm)]
        exact pure_triple _ fun s hs htorn => ⟨rfl, hs htorn⟩
      · obtain ⟨dlc', rc⟩ := r
        refine live_const fun heq => ?_
        cases heq
        refine .ite (fun h => absurd rfl h) fun _ => ?_
        refine .bind (recvData_triple hlen dlc ddc data (hdata data hd)) fun r => ?_
        refine .read_bind (R := fun _ => Live fun _ file =>
          Progress content r.1 (requested.toNat + received + data.length) r.2 file)
          (stable_live _) (fun _ _ hs => hs) fun postponed => pure_triple _ fun s hs htorn => ?_
        refine ⟨(hs htorn).1, fun hok => ?_⟩
        cases postponed with
        | true => cases hok
        | false =>
            have h := (hs htorn).2 hok
            rw [hoffset, Option.getD_some, ← Nat.add_assoc]
            exact h

theorem receiveAll_triple (hlen : content.length < 2 ^ 31) (n : Nat) (dlc : UaDlContext)
    (requested : UInt64) (received : Nat) (rc : DmeCode) :
    (outline content pkgInfo).Triple .download
      (Live fun _ file => Progress content dlc (requested.toNat + received) rc file)
      (receiveAll n dlc requested received rc)
      fun dlc' => Live fun _ _ => SmallRecord dlc'.dlRec := by
  induction n generalizing dlc requested received rc with
  | zero => exact pure_triple _ fun s hs htorn => (hs htorn).1
  | succ n ih =>
      unfold receiveAll
      refine .perform_bind (o := .receive requested received rc)
        (R := fun (r : Option Delivery) => Live fun _ file =>
          (∀ ddc, r = some ddc → continues content requested received rc ddc) ∧
            Progress content dlc (requested.toNat + received) rc file)
        (stable_live _) ?_ fun r => ?_
      · intro s r s' hinv hs hact
        refine ⟨grants (inv_still (o := .receive requested received rc) trivial hinv hact.1.1), ?_⟩
        obtain ⟨⟨heffect, hoffers⟩, -⟩ := hact
        cases heffect
        refine fun htorn => ⟨?_, hs htorn⟩
        rintro ddc rfl
        exact hoffers
      · cases r with
        | none => exact pure_triple _ fun s hs htorn => (hs htorn).2.1
        | some ddc =>
            refine live_const fun hserver => ?_
            obtain ⟨hok, hoffset, hdata⟩ := hserver ddc rfl
            refine Outline.Triple.bind ((dmcRecvCb_triple hlen dlc requested ddc hoffset hdata).pre
              fun s _ hs htorn => ⟨(hs htorn).1, (hs htorn).2 hok⟩) fun r => ?_
            exact ih r.1 r.2.1 _ r.2.2

/-- A download keeps the record small. -/
theorem uaDlStepDownload_triple (hlen : content.length < 2 ^ 31) (dlc : UaDlContext) :
    (outline content pkgInfo).Triple .download
      (Live fun _ file => SmallRecord dlc.dlRec ∧
        Receiving content dlc dlc.dlRec.bytesWritten.toNat file)
      (uaDlStepDownload dlc)
      fun r => Live fun _ _ => SmallRecord r.1.dlRec := by
  unfold uaDlStepDownload
  refine .bind (still_op (by trivial) _) fun calls => ?_
  refine .bind ((receiveAll_triple hlen calls dlc _ 0 .ok).pre
    fun s _ hs htorn => ⟨(hs htorn).1, fun _ => (hs htorn).2⟩) fun dlc' => ?_
  refine .bind (still_op (by trivial) _) fun ddc => ?_
  refine (live_const (Φ := fun _ _ => True) fun hsmall => ?_).pre
    fun s _ hs htorn => ⟨hs htorn, trivial⟩
  refine .ite (fun _ => ?_) fun _ => ?_
  · have hnew : SmallRecord { dlc'.dlRec with
        lastBytesWritten := dlc'.dlRec.bytesWritten, lastCrc32 := dlc'.dlRec.crc32,
        step := stepDownloaded } := ⟨hsmall.1, hsmall.1⟩
    exact .bind (save_progress hnew fun _ => True) fun _ => pure_triple _ fun s _ _ => hnew
  · have hnew : SmallRecord { dlc'.dlRec with
        bytesWritten := dlc'.dlRec.lastBytesWritten, crc32 := dlc'.dlRec.lastCrc32 } :=
      ⟨hsmall.2, hsmall.2⟩
    refine .bind (save_progress hnew fun _ => True) fun _ => ?_
    refine .bind (still_op (by trivial) _) fun _ => .bind (still_op (by trivial) _) fun _ => ?_
    exact pure_triple _ fun s _ _ => hnew

theorem uaDlStepEncrypt_triple {dlc : UaDlContext} (hsmall : SmallRecord dlc.dlRec) :
    (outline content pkgInfo).Triple .download (Live fun _ _ => True) (uaDlStepEncrypt dlc)
      fun r => Live fun _ _ => SmallRecord r.1.dlRec := by
  unfold uaDlStepEncrypt
  refine .bind (still_op (by trivial) _) fun _ => .ite
    (fun _ => pure_triple _ fun s _ _ => hsmall) fun _ => ?_
  refine .bind (still_op (by trivial) _) fun _ => .ite
    (fun _ => pure_triple _ fun s _ _ => hsmall) fun _ => ?_
  refine .bind (still_op (by trivial) _) fun _ => .ite (fun _ => ?_) fun _ => ?_
  · refine .bind (report_keeps _ _ _ _) fun _ => .bind (still_op (by trivial) _) fun _ => ?_
    exact pure_triple _ fun s _ _ => hsmall
  · have hnew : SmallRecord { dlc.dlRec with step := stepEncrypted } := hsmall
    refine .bind (save_progress hnew fun _ => True) fun _ => .ite (fun _ => ?_) fun _ => ?_
    · refine .bind (still_op (by trivial) _) fun _ => pure_triple _ fun s _ _ => hnew
    · exact pure_triple _ fun s _ _ => hnew

theorem verifyLoop_triple {dlc : UaDlContext} (hsmall : SmallRecord dlc.dlRec) (n i : Nat) :
    (outline content pkgInfo).Triple .download (Live fun _ _ => True) (verifyLoop n i dlc)
      fun r => Live fun _ _ => SmallRecord r.1.dlRec := by
  induction n generalizing i with
  | zero => exact pure_triple _ fun s _ _ => hsmall
  | succ n ih =>
      unfold verifyLoop
      refine .bind (still_op (by trivial) _) fun _ => .ite
        (fun _ => pure_triple _ fun s _ _ => hsmall) fun _ => ?_
      refine .bind (still_op (by trivial) _) fun _ => .ite (fun _ => ?_) fun _ => ih (i + 1)
      have hnew : SmallRecord { dlc.dlRec with step := stepVerified } := hsmall
      exact .bind (save_progress hnew fun _ => True) fun _ => pure_triple _ fun s _ _ => hnew

theorem uaDlStepVerify_triple {dlc : UaDlContext} (hsmall : SmallRecord dlc.dlRec) :
    (outline content pkgInfo).Triple .download (Live fun _ _ => True) (uaDlStepVerify dlc)
      fun r => Live fun _ _ => SmallRecord r.1.dlRec := by
  have hremove : ∀ Φ, (outline content pkgInfo).Triple .download (Live Φ) (op .removeData)
      fun _ => Live fun _ _ => True :=
    fun Φ => (removeData_triple Φ).post fun _ _ _ _ _ => trivial
  unfold uaDlStepVerify
  refine .bind (verifyLoop_triple hsmall _ _) fun r => ?_
  refine (live_const (Φ := fun _ _ => True) fun hsmall' => ?_).pre
    fun s _ hs htorn => ⟨hs htorn, trivial⟩
  refine .ite (fun _ => ?_) fun _ => ?_
  · refine .bind (still_op (by trivial) _) fun _ => .bind (hremove _) fun _ => ?_
    exact pure_triple _ fun s _ _ => hsmall'
  · refine .bind (report_keeps _ _ _ _) fun _ => .bind (still_op (by trivial) _) fun _ => ?_
    exact .bind (hremove _) fun _ => pure_triple _ fun s _ _ => hsmall'

theorem verifyLoop_step {n i : Nat} {dlc dlc' : UaDlContext}
    (h : (verifyLoop n i dlc).Returns (dlc', eUaOk)) : dlc'.dlRec.step = stepVerified := by
  induction n generalizing i with
  | zero => cases h
  | succ n ih =>
      obtain ⟨_, -, h⟩ := (Prog.returns_bind ..).mp h
      split at h
      · cases h
      obtain ⟨_, -, h⟩ := (Prog.returns_bind ..).mp h
      split at h
      · obtain ⟨_, -, hret⟩ := (Prog.returns_bind ..).mp h
        cases hret
        rfl
      · exact ih h

theorem uaDlStepVerify_step {dlc dlc' : UaDlContext}
    (h : (uaDlStepVerify dlc).Returns (dlc', eUaOk)) : dlc'.dlRec.step = stepVerified := by
  obtain ⟨⟨dlc₁, ret⟩, hloop, h⟩ := (Prog.returns_bind ..).mp h
  by_cases hok : ret = eUaOk
  · simp only [if_pos hok, Prog.returns_bind] at h
    obtain ⟨_, -, _, -, hret⟩ := h
    cases hret
    exact verifyLoop_step hloop
  · simp only [if_neg hok, Prog.returns_bind] at h
    obtain ⟨_, -, _, -, _, -, hret⟩ := h
    cases hret
    exact absurd rfl hok

theorem uaDlStepDone_record {dlc dlc' : UaDlContext} {rc : Rc}
    (h : (uaDlStepDone dlc).Returns (dlc', rc)) : dlc'.dlRec = dlc.dlRec := by
  obtain ⟨_, -, hret⟩ := (Prog.returns_bind ..).mp h
  cases hret
  rfl

/-- The step machine downloads only where ua_dl_init or nothing came before. -/
theorem uaDlStepAction_triple (hlen : content.length < 2 ^ 31) (fuel : Nat) (dlc : UaDlContext) :
    (outline content pkgInfo).Triple .download
      (Live fun _ file => SmallRecord dlc.dlRec ∧ (dlc.dlRec.step = stepNone →
        Receiving content dlc dlc.dlRec.bytesWritten.toNat file))
      (uaDlStepAction fuel dlc) fun _ _ => True := by
  induction fuel generalizing dlc with
  | zero => exact pure_triple _ fun _ _ => trivial
  | succ fuel ih =>
      -- after a step that sets the step to another number than NONE
      have hnext : ∀ {Φ : Option Bytes → Option Bytes → Prop} {p : DlProg (UaDlContext × Rc)}
          {step : Int32},
          (outline content pkgInfo).Triple .download (Live Φ) p
            (fun r => Live fun _ _ => SmallRecord r.1.dlRec) →
          (∀ dlc', p.Returns (dlc', eUaOk) → dlc'.dlRec.step = step) → step ≠ stepNone →
          (outline content pkgInfo).Triple .download (Live Φ)
            (p >>= fun r => if r.2 ≠ eUaOk then pure (some eUaErr) else uaDlStepAction fuel r.1)
            fun _ _ => True := by
        intro Φ p step hp hstep hne
        refine .bind hp.returns ?_
        rintro ⟨dlc', rc⟩
        refine Outline.Triple.pre (P := Live fun _ _ =>
          SmallRecord dlc'.dlRec ∧ p.Returns (dlc', rc)) ?_ fun s _ hs htorn => ⟨hs.1 htorn, hs.2⟩
        refine .ite (fun _ => pure_triple _ fun _ _ => trivial) fun hrc => ?_
        refine (ih dlc').pre fun s _ hs htorn => ⟨(hs htorn).1, fun hnone => ?_⟩
        have hret := (hs htorn).2
        have hok : rc = eUaOk := not_not.mp hrc
        subst hok
        exact absurd ((hstep dlc' hret).symm.trans hnone) hne
      unfold uaDlStepAction
      have hstill : ∀ {p : DlProg (Option Rc)}, (SmallRecord dlc.dlRec →
          (outline content pkgInfo).Triple .download (Live fun _ _ => True) p fun _ _ => True) →
          (outline content pkgInfo).Triple .download
            (Live fun _ file => SmallRecord dlc.dlRec ∧ (dlc.dlRec.step = stepNone →
              Receiving content dlc dlc.dlRec.bytesWritten.toNat file)) p fun _ _ => True := by
        intro p hp
        refine (live_const (Ψ := fun _ _ _ => True) fun hsmall => ?_).post fun _ _ _ _ => trivial
        refine ((hp hsmall).pre fun _ _ _ _ => trivial).post fun _ _ _ _ _ => trivial
      refine .ite (fun hnone => ?_) fun _ => .ite (fun _ => ?_) fun _ => .ite (fun _ => ?_) fun _ =>
        .ite (fun hdone => ?_) fun _ => pure_triple _ fun _ _ => trivial
      · refine (hnext (uaDlStepDownload_triple hlen dlc) (fun _ => uaDlStepDownload_step)
          (by decide)).pre fun s _ hs htorn => ⟨(hs htorn).1, (hs htorn).2 hnone⟩
      · exact hstill fun hsmall => hnext (uaDlStepEncrypt_triple hsmall)
          (fun _ => uaDlStepEncrypt_step) (by decide)
      · exact hstill fun hsmall => hnext (uaDlStepVerify_triple hsmall)
          (fun _ => uaDlStepVerify_step) (by decide)
      · refine hstill fun hsmall => ?_
        refine .read_bind (R := fun _ => Live fun _ _ => True) (stable_live _) (fun _ _ h => h)
          fun stop => .ite (fun _ => pure_triple _ fun _ _ => trivial) fun _ => ?_
        have hdoneStill : (uaDlStepDone dlc).All Still := by
          unfold uaDlStepDone
          simp [report_still]
        refine .bind (still_triple _ hdoneStill) ?_
        rintro ⟨dlc', rc⟩
        refine (ih dlc').pre fun s _ hs _ => ?_
        have hsame := uaDlStepDone_record hs.2
        rw [hsame]
        refine ⟨hsmall, fun hnone => ?_⟩
        rw [hnone] at hdone
        exact absurd hdone (by decide)

theorem download_triple (hlen : content.length < 2 ^ 31) (fuel : Nat) :
    (outline content pkgInfo).Triple .download (Live fun _ _ => True)
      (processStartDownload fuel pkgInfo) fun _ _ => True := by
  have hpure : ∀ (Φ : Option Bytes → Option Bytes → Prop) (u : Unit),
      (outline content pkgInfo).Triple .download (Live Φ) (Prog.pure u) fun _ _ => True :=
    fun _ _ => pure_triple _ fun _ _ => trivial
  unfold processStartDownload uaDlStartDownload
  refine .bind (still_op (by trivial) _) fun _ => ?_
  refine .read_bind (R := fun _ => Live fun _ _ => True) (stable_live _) (fun _ _ h => h)
    fun running => .ite (fun _ => .bind (still_op (by trivial) _) fun _ => hpure _ _) fun _ => ?_
  refine .bind (still_op (by trivial) _) fun _ => .bind uaDlInit_triple fun r => ?_
  cases r with
  | none => exact .bind (still_op (by trivial) _) fun _ => hpure _ _
  | some dlc =>
      refine .bind (still_op (by trivial) _) fun _ => ?_
      refine .bind (R := fun _ => Live fun _ _ => True) ?_ fun ret => ?_
      · refine ((uaDlStepAction_triple hlen fuel dlc).pre ?_).post fun _ _ _ _ _ => trivial
        intro s _ hs htorn
        exact ⟨(hs htorn dlc rfl).1, fun _ => (hs htorn dlc rfl).2⟩
      · cases ret with
        | none => exact hpure _ _
        | some ret =>
            exact .bind (still_op (by trivial) _) fun _ => .bind (still_op (by trivial) _) fun _ =>
              hpure _ _

theorem outline_sound (hlen : content.length < 2 ^ 31) : (outline content pkgInfo).Sound where
  init := by
    rintro s ⟨⟨hrecord, -, hdata⟩, -, hhistory⟩
    refine ⟨⟨?_, ?_, ?_⟩, fun _ => trivial⟩
    · rw [hrecord]
      simp
    · rw [hdata]
      simp
    · rw [hhistory]
      intro _ _ hmem
      cases hmem
  restart := by
    rintro s s' hinv rfl
    exact ⟨⟨hinv.record, hinv.data, hinv.recovered⟩, fun _ => trivial⟩
  stable := fun _ => Outline.stable_const _
  arrive := by
    rintro t p s s' hinv - ⟨⟨harrives, rfl⟩, -⟩
    exact ⟨hinv, trivial, harrives, fun _ _ _ => ⟨rfl, rfl, rfl⟩⟩
  body := by
    intro t p s hinv harrives
    cases t with
    | download =>
        obtain ⟨fuel, rfl⟩ := harrives
        exact download_triple hlen fuel s hinv fun _ => trivial
    | message n =>
        have hframe : (outline content pkgInfo).Triple (.message n) (fun _ => True) p
            fun _ _ => True := by
          refine (Outline.Triple.frame (P := fun _ => True) (Outline.stable_const _) ?_
            (message_plain harrives)).post fun _ _ _ _ => trivial
          intro o b s s' ho hinv _ hact
          have hstill : Still o := by
            rcases ho with rfl | rfl <;> trivial
          exact ⟨⟨inv_still hstill hinv hact.1.1, trivial,
            fun _ _ _ _ => still_files hstill hact.1.1, fun _ _ _ hfork => nomatch hfork⟩, trivial⟩
        exact hframe s hinv trivial

/-- The answers of a server that hands the content over byte by byte, with files that can be
read and written. -/
def resuming (content : Bytes) (s : DlState) : (o : DlOp) → Option o.Ans
  | .accessRecord => some s.record.isSome
  | .readRecord => some ((s.record.getD []).take DlRecord.size)
  | .openData => some s.data
  | .dmclientDownload => some content.length
  | .receive requested received .ok => some (some
      ⟨requested, none, .ok, some ((content.drop (requested.toNat + received)).take 1)⟩)
  | o => succeeding o

theorem resuming_offers (content : Bytes) (s : DlState) (o : DlOp) (b : o.Ans)
    (h : resuming content s o = some b) : Offers (continues content) o b := by
  cases o with
  | receive requested received rc =>
      cases rc with
      | ok =>
          cases h
          refine ⟨rfl, rfl, fun data hdata _ => ?_⟩
          cases hdata
          exact List.take_prefix _ _
      | _ =>
          cases h
          trivial
  | _ => trivial

def resumingPlayer (content : Bytes) (pkgInfo : PkgInfo) :
    Player (machine noFiles (continues content) pkgInfo) where
  answer := fun _ s o => (resuming content s o).bind fun b => (effect o b s).map fun s' => (b, s')
  sound := by
    intro t s o b s' h
    obtain ⟨hanswer, heffect⟩ := answered h
    exact ⟨heffect, resuming_offers content s o b hanswer⟩

instance (t : Tid) (s s' : DlState) : Decidable (TornByCrash t s s') :=
  inferInstanceAs (Decidable (_ = _))

def restarted (content : Bytes) : Move (recoveryMachine content samplePkg) :=
  .arrive .download (processStartDownload 6 samplePkg)
    (fun s => if s.recordTorn = false then some s else none) fun s₀ s₁ hs => by
      obtain ⟨htorn, heq⟩ := Option.ite_none_right_eq_some.mp hs
      exact ⟨⟨⟨6, rfl⟩, (Option.some.inj heq).symm⟩, htorn⟩

/-- The agent crashes after it has saved two bytes and starts the download again. -/
def crashedEnd : Config Tid Flags DlState DlOp.Ans :=
  ((resumingPlayer [7, 8, 9] samplePkg).restrict TornByCrash).play
    [restarted [7, 8, 9], .steps .download 25, .restart _ fun _ => rfl,
      restarted [7, 8, 9], .steps .download 20] ⟨freshState, idlePool⟩

theorem crashedEnd_reachable : (recoveryMachine [7, 8, 9] samplePkg).Reachable crashedEnd :=
  Player.play_reachable _ _ (.init freshState ⟨⟨rfl, rfl, rfl⟩, rfl, rfl⟩)

end EsyncUa.DownloadRecovery
