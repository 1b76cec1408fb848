import EsyncUa.Resumption

/-!
The calls of dmc_recv_cb during one transfer. The server may start over at another offset of
the data file, at any call. The files can be opened, read and written in full here, and the
download is not postponed.
-/
namespace EsyncUa.OffsetChanges

open EsyncUa.JsonProperties EsyncUa.Programs EsyncUa.AnsweredRuns EsyncUa.Checksums
open EsyncUa.DownloadRecords EsyncUa.Downloads EsyncUa.DownloadRuns EsyncUa.DownloadRecovery
open EsyncUa.Resumption

/-- The context, the offset that is requested, and the files. -/
structure Transfer where
  dlc : UaDlContext
  requested : UInt64
  st : DlState

/-- The content of the data file. -/
def Transfer.file (t : Transfer) : Bytes := t.st.data.getD []

/-- A call of dmc_recv_cb and its result. -/
def Call (ddc : Delivery) (t t' : Transfer) (rc : DmeCode) : Prop :=
  DlRun Succeeds (dmcRecvCb t.dlc t.requested ddc) t.st (t'.dlc, t'.requested, rc) t'.st

/-- A successful transfer of some bytes, from an offset within the data file. -/
structure Delivers (ddc : Delivery) (data : Bytes) (t : Transfer) : Prop where
  result : ddc.result = .ok
  chunk : ddc.data = some data
  nonempty : data ≠ []
  offset : ddc.contentByteOffset.toNat ≤ t.file.length

/-- The record and the report count the bytes of the file, and the record has its checksum. -/
structure Accounted (t : Transfer) : Prop where
  bytesWritten : t.dlc.dlRec.bytesWritten = .ofNat t.file.length
  downloadedBytes : t.dlc.dlInfo.downloadedBytes = .ofNat t.file.length
  crc32 : t.dlc.dlRec.crc32 = bufCrc32 t.file 0

/-- Where ua_dl_init and the request leave a transfer. -/
structure Started (t : Transfer) : Prop where
  accounted : Accounted t
  requested : t.requested = .ofNat t.file.length
  notPostponed : t.st.downloadPostponed = false

/-- The first bytes of the file, up to the offset, and the bytes that were received from there. -/
structure Parts where
  front : Bytes
  received : Bytes

/-- What another delivery makes of the parts. -/
def Parts.after (p : Parts) (t : Transfer) (offset : UInt64) (data : Bytes) : Parts :=
  if t.requested = offset then ⟨p.front, p.received ++ data⟩
  else ⟨t.file.take offset.toNat, data⟩

/-- The transfer after some calls, the result of the last one, and the parts of the file; each
of the calls meets the condition. -/
inductive Calls (Meets : Delivery → Transfer → Prop) (t₀ : Transfer) :
    Transfer → DmeCode → Parts → Prop
  | start : Calls Meets t₀ t₀ .ok ⟨t₀.file, []⟩
  | call {t t' : Transfer} {rc rc' : DmeCode} {p : Parts} {ddc : Delivery} {data : Bytes}
      (before : Calls Meets t₀ t rc p) (hdelivers : Delivers ddc data t) (hmeets : Meets ddc t)
      (hcall : Call ddc t t' rc') :
      Calls Meets t₀ t' rc' (p.after t ddc.contentByteOffset data)

/-- The server stays at the offset; or nothing has been received since the request, and the new
offset is positive and below 2^31. -/
def Sound (ddc : Delivery) (t : Transfer) : Prop :=
  t.requested = ddc.contentByteOffset ∨
    (t.requested = .ofNat t.file.length ∧ 0 < ddc.contentByteOffset ∧
      ddc.contentByteOffset.toNat < 2 ^ 31)

section Frames

variable {s s' : DlState}

/-- The data file and the flag that postpones the download. -/
def view (s : DlState) : Option Bytes × Bool := (s.data, s.downloadPostponed)

theorem save_view {r : DlRecord} {rc : Rc} (h : DlRun Succeeds (uaDlSaveDlRc r) s rc s') :
    view s' = view s := by
  simp only [uaDlSaveDlRc, yields_bind, run_op, yields_ite] at h
  obtain ⟨opened, s₁, ⟨hopened, hopen⟩, h⟩ := h
  have hopened : opened = true := hopened.2
  subst hopened
  cases hopen
  rw [if_pos rfl] at h
  obtain ⟨n, s₂, ⟨-, hwrite⟩, -, rfl⟩ := h
  cases hwrite
  rfl

theorem report_view {pkgInfo : PkgInfo} {dlInfo : DlInfo} {isDone : Bool} {rc : Rc}
    (h : DlRun Succeeds (sendDlReport pkgInfo dlInfo isDone) s rc s') : view s' = view s := by
  unfold sendDlReport at h
  split at h
  · obtain ⟨-, rfl⟩ := h
    rfl
  · obtain ⟨-, hreport⟩ := (run_op ..).mp h
    cases hreport
    rfl

end Frames

section Calls

variable {dlc dlc' : UaDlContext} {ddc : Delivery} {s s' : DlState} {rc : DmeCode}

theorem uaDlSaveData_run {data : Bytes} {rc : Rc}
    (h : DlRun Succeeds (uaDlSaveData data) s rc s') :
    rc = eUaOk ∧ view s' = (some (s.data.getD [] ++ data), s.downloadPostponed) := by
  simp only [uaDlSaveData, yields_bind, run_op, yields_ite] at h
  obtain ⟨written, s₁, ⟨hwritten, hwrite⟩, h⟩ := h
  have hwritten : written = some data.length := hwritten.2
  subst hwritten
  rw [if_pos rfl] at h
  obtain ⟨rfl, rfl⟩ := h
  simp only [effect, le_refl, if_pos, List.take_length] at hwrite
  cases hwrite
  exact ⟨rfl, rfl⟩

/-- A chunk is appended and counted. -/
theorem recvData_run {data : Bytes} (hresult : ddc.result = .ok) (hnonempty : data ≠ [])
    (h : DlRun Succeeds (recvData dlc ddc data) s (dlc', rc) s') :
    rc = .ok ∧ view s' = (some (s.data.getD [] ++ data), s.downloadPostponed) ∧
      dlc'.dlRec = (afterChunk dlc ddc.eTag data).dlRec ∧
      dlc'.dlInfo = (afterChunk dlc ddc.eTag data).dlInfo := by
  simp only [recvData, if_pos hresult, if_neg hnonempty, yields_bind, yields_ite] at h
  obtain ⟨saved, s₁, hsave, h⟩ := h
  obtain ⟨rfl, hdata⟩ := uaDlSaveData_run hsave
  rw [if_pos rfl] at h
  obtain ⟨rcSave, s₂, hrecord, h⟩ := h
  rw [← hdata, ← save_view hrecord]
  split at h
  · obtain ⟨rcReport, s₃, hreport, heq, rfl⟩ := h
    cases heq
    exact ⟨rfl, report_view hreport, rfl, rfl⟩
  · obtain ⟨heq, rfl⟩ := h
    cases heq
    exact ⟨rfl, rfl, rfl, rfl⟩

theorem openData_run {read : Option Bytes} (hread : Succeeds s .openData read)
    (h : effect .openData read s = some s') : read = s.data ∧ s' = s := by
  have hread : read = s.data := hread.1
  subst hread
  refine ⟨rfl, ?_⟩
  rcases Option.eq_none_or_eq_some s.data with hnone | ⟨file, hfile⟩
  · rw [hnone] at h
    cases h
    rfl
  · simp only [effect, hfile, List.prefix_refl, if_pos] at h
    cases h
    rfl

/-- The file is cut at the new offset, and the record is that of what is left. -/
theorem moveOffset_run {requested : UInt64}
    (h : DlRun Succeeds (moveOffset dlc requested ddc) s (dlc', rc) s') :
    view s' = (s.data.map (resize ddc.contentByteOffset.toNat), s.downloadPostponed) ∧
      dlc'.dlInfo.downloadedBytes =
        dlc.dlInfo.downloadedBytes - (requested - ddc.contentByteOffset) ∧
      ((s.data.map (resize ddc.contentByteOffset.toNat)).bind fun file =>
        uaDlCalcFileCrc32 file (asInt ddc.contentByteOffset)).elim (rc = .sys)
          fun crc => rc = .ok ∧ dlc'.dlRec.crc32 = crc := by
  simp only [moveOffset, yields_bind, run_op] at h
  obtain ⟨x, s₁, ⟨-, hcut⟩, read, s₂, ⟨hread, hopen⟩, rcSave, s₃, hsave, heq, rfl⟩ := h
  cases hcut
  obtain ⟨rfl, rfl⟩ := openData_run hread hopen
  cases heq
  refine ⟨save_view hsave, rfl, ?_⟩
  rcases Option.eq_none_or_eq_some ((s.data.map (resize ddc.contentByteOffset.toNat)).bind
    fun file => uaDlCalcFileCrc32 file (asInt ddc.contentByteOffset)) with hnone | ⟨crc, hcrc⟩
  · simp [hnone]
  · simp [hcrc]

/-- What a call does once the offset has been settled. -/
theorem call_run {t t' : Transfer} {data : Bytes} (hdelivers : Delivers ddc data t)
    (hplain : t.st.downloadPostponed = false) (h : Call ddc t t' rc) :
    ∃ dlc₁ rc₁ s₁,
      (if t.requested = ddc.contentByteOffset then dlc₁ = t.dlc ∧ rc₁ = .ok ∧ s₁ = t.st
        else DlRun Succeeds (moveOffset t.dlc t.requested ddc) t.st (dlc₁, rc₁) s₁) ∧
      t'.requested = ddc.contentByteOffset ∧
      if rc₁ = .ok then
        rc = .ok ∧ view t'.st = (some (s₁.data.getD [] ++ data), false) ∧
          t'.dlc.dlRec = (afterChunk dlc₁ ddc.eTag data).dlRec ∧
          t'.dlc.dlInfo = (afterChunk dlc₁ ddc.eTag data).dlInfo
      else rc = rc₁ := by
  simp only [Call, dmcRecvCb, hdelivers.chunk, yields_bind, yields_ite] at h
  obtain ⟨⟨dlc₁, rc₁⟩, s₁, hmove, h⟩ := h
  have hmoved : if t.requested = ddc.contentByteOffset then dlc₁ = t.dlc ∧ rc₁ = .ok ∧ s₁ = t.st
      else DlRun Succeeds (moveOffset t.dlc t.requested ddc) t.st (dlc₁, rc₁) s₁ := by
    by_cases hsame : t.requested = ddc.contentByteOffset
    · rw [if_neg (not_not_intro hsame)] at hmove
      rw [if_pos hsame]
      obtain ⟨heq, rfl⟩ := hmove
      cases heq
      exact ⟨rfl, rfl, rfl⟩
    · rw [if_pos hsame] at hmove
      rwa [if_neg hsame]
  have hflag : s₁.downloadPostponed = false := by
    split at hmoved
    · rw [hmoved.2.2, hplain]
    · obtain ⟨hview, -⟩ := moveOffset_run hmoved
      exact (congrArg Prod.snd hview).trans hplain
  refine ⟨dlc₁, rc₁, s₁, hmoved, ?_⟩
  by_cases hok : rc₁ = .ok
  · rw [if_neg (not_not_intro hok)] at h
    rw [if_pos hok]
    obtain ⟨⟨dlc₂, rc₂⟩, s₂, hrecv, postponed, s₃, hread, heq, hlast⟩ := h
    obtain ⟨hpostponed, hsame⟩ := (yields_read ..).mp hread
    obtain ⟨rfl, hview, hrec, hinfo⟩ := recvData_run hdelivers.result hdelivers.nonempty hrecv
    have hclear : postponed = false :=
      hpostponed.symm.trans ((congrArg Prod.snd hview).trans hflag)
    simp only [hclear, Prod.mk.injEq, Bool.false_eq_true, if_false] at heq
    obtain ⟨hdlc, hrequested, hrc⟩ := heq
    rw [← hlast, ← hsame, ← hdlc]
    exact ⟨hrequested.symm, hrc.symm, hview.trans (by rw [hflag]), hrec, hinfo⟩
  · rw [if_pos hok] at h
    rw [if_neg hok]
    obtain ⟨heq, -⟩ := h
    simp only [Prod.mk.injEq] at heq
    exact ⟨heq.2.1.symm, heq.2.2.symm⟩

end Calls

section Runs

variable {t₀ t t' : Transfer} {ddc : Delivery} {data : Bytes} {rc : DmeCode} {p : Parts}

/-- What holds after a call that went as it should. -/
structure Received (t : Transfer) (rc : DmeCode) (p : Parts) : Prop where
  ok : rc = .ok
  accounted : Accounted t
  file : t.file = p.front ++ p.received
  requested : t.requested = .ofNat p.front.length

/-- A chunk keeps a file accounted for. -/
theorem accounted_afterChunk {dlc : UaDlContext} {file : Bytes} {eTag : Option Bytes}
    (hdownloaded : dlc.dlInfo.downloadedBytes = .ofNat file.length)
    (hcrc : dlc.dlRec.crc32 = bufCrc32 file 0) (hfile : t.file = file ++ data)
    (hrec : t.dlc.dlRec = (afterChunk dlc eTag data).dlRec)
    (hinfo : t.dlc.dlInfo = (afterChunk dlc eTag data).dlInfo) : Accounted t := by
  have hsum : UInt64.ofNat t.file.length = dlc.dlInfo.downloadedBytes + .ofNat data.length := by
    rw [hdownloaded, hfile, List.length_append, UInt64.ofNat_add]
  refine ⟨?_, ?_, ?_⟩
  · rw [hrec, hsum]
    rfl
  · rw [hinfo, hsum]
    rfl
  · rw [hrec, hfile, bufCrc32_append, ← hcrc]
    rfl

/-- A call at the offset of the request appends to what was received. -/
theorem call_same (hdelivers : Delivers ddc data t) (hsame : t.requested = ddc.contentByteOffset)
    (hplain : t.st.downloadPostponed = false) (hbefore : Accounted t)
    (h : Call ddc t t' rc) :
    rc = .ok ∧ Accounted t' ∧ t'.file = t.file ++ data ∧ t'.requested = t.requested ∧
      t'.st.downloadPostponed = false := by
  obtain ⟨dlc₁, rc₁, s₁, hmove, hoffset, h⟩ := call_run hdelivers hplain h
  rw [if_pos hsame] at hmove
  obtain ⟨rfl, rfl, rfl⟩ := hmove
  rw [if_pos rfl] at h
  obtain ⟨rfl, hview, hrec, hinfo⟩ := h
  have hfile : t'.file = t.file ++ data := congrArg (fun v => v.1.getD []) hview
  exact ⟨rfl, accounted_afterChunk hbefore.downloadedBytes hbefore.crc32 hfile hrec hinfo, hfile,
    hoffset.trans hsame.symm, congrArg Prod.snd hview⟩

/-- A call at another offset begins again there, if nothing has been received so far. -/
theorem call_moved (hdelivers : Delivers ddc data t) (hmoved : t.requested ≠ ddc.contentByteOffset)
    (hfirst : t.requested = .ofNat t.file.length) (hpos : 0 < ddc.contentByteOffset)
    (hlt : ddc.contentByteOffset.toNat < 2 ^ 31) (hplain : t.st.downloadPostponed = false)
    (hbefore : Accounted t) (h : Call ddc t t' rc) :
    rc = .ok ∧ Accounted t' ∧ t'.file = t.file.take ddc.contentByteOffset.toNat ++ data ∧
      t'.requested = ddc.contentByteOffset ∧ t'.st.downloadPostponed = false := by
  obtain ⟨dlc₁, rc₁, s₁, hmove, hoffset, h⟩ := call_run hdelivers hplain h
  rw [if_neg hmoved] at hmove
  obtain ⟨hview₁, hdownloaded, hcrc⟩ := moveOffset_run hmove
  have hposNat : 0 < ddc.contentByteOffset.toNat := hpos
  have hle := hdelivers.offset
  have hsome : t.st.data = some t.file := by
    cases hdata : t.st.data with
    | none =>
        rw [Transfer.file, hdata] at hle
        simp only [Option.getD_none, List.length_nil] at hle
        omega
    | some file => rw [Transfer.file, hdata, Option.getD_some]
  have hcut : t.st.data.map (resize ddc.contentByteOffset.toNat) =
      some (t.file.take ddc.contentByteOffset.toNat) := by
    rw [hsome, Option.map_some, resize_of_le hle]
  have hlen : (t.file.take ddc.contentByteOffset.toNat).length = ddc.contentByteOffset.toNat :=
    List.length_take_of_le hle
  have hsum : uaDlCalcFileCrc32 (t.file.take ddc.contentByteOffset.toNat)
      (asInt ddc.contentByteOffset) =
        some (bufCrc32 (t.file.take ddc.contentByteOffset.toNat) 0) := by
    have hsmall := asInt_small hlt
    rw [uaDlCalcFileCrc32_of_le (asInt_pos hpos hlt) (by rw [hsmall, hlen]), hsmall,
      List.take_take, Nat.min_self]
  rw [hcut, Option.bind_some, hsum] at hcrc
  obtain ⟨rfl, hcrc⟩ := hcrc
  rw [if_pos rfl] at h
  obtain ⟨rfl, hview, hrec, hinfo⟩ := h
  have hfile₁ : s₁.data = some (t.file.take ddc.contentByteOffset.toNat) :=
    (congrArg Prod.fst hview₁).trans hcut
  rw [hfile₁] at hview
  have hfile : t'.file = t.file.take ddc.contentByteOffset.toNat ++ data :=
    congrArg (fun v => v.1.getD []) hview
  have hcount : dlc₁.dlInfo.downloadedBytes =
      .ofNat (t.file.take ddc.contentByteOffset.toNat).length := by
    rw [hdownloaded, hbefore.downloadedBytes, ← hfirst, hlen, UInt64.ofNat_toNat]
    rw [UInt64.sub_eq_add_neg, UInt64.neg_sub, UInt64.add_comm, UInt64.sub_add_cancel]
  exact ⟨rfl, accounted_afterChunk hcount hcrc hfile hrec hinfo, hfile, hoffset,
    congrArg Prod.snd hview⟩

/-- A sound call leaves the file as its parts say. -/
theorem received_of_sound (hdelivers : Delivers ddc data t) (hsound : Sound ddc t)
    (hplain : t.st.downloadPostponed = false) (hbefore : Received t rc p) {rc' : DmeCode}
    (h : Call ddc t t' rc') :
    Received t' rc' (p.after t ddc.contentByteOffset data) ∧
      t'.st.downloadPostponed = false := by
  by_cases hsame : t.requested = ddc.contentByteOffset
  · obtain ⟨hok, haccounted, hfile, hrequested, hplain'⟩ :=
      call_same hdelivers hsame hplain hbefore.accounted h
    rw [Parts.after, if_pos hsame]
    refine ⟨⟨hok, haccounted, ?_, hrequested.trans hbefore.requested⟩, hplain'⟩
    rw [hfile, hbefore.file, List.append_assoc]
  · obtain ⟨hfirst, hpos, hlt⟩ := hsound.resolve_left hsame
    obtain ⟨hok, haccounted, hfile, hrequested, hplain'⟩ :=
      call_moved hdelivers hsame hfirst hpos hlt hplain hbefore.accounted h
    rw [Parts.after, if_neg hsame]
    refine ⟨⟨hok, haccounted, hfile, ?_⟩, hplain'⟩
    rw [hrequested, List.length_take_of_le hdelivers.offset, UInt64.ofNat_toNat]

/-- In a run of sound calls each succeeds and leaves the data file, its length in the record
and in the report, and its checksum as the deliveries make them. -/
theorem calls_received (hstart : Started t₀) (h : Calls Sound t₀ t rc p) : Received t rc p := by
  have hrun : Received t rc p ∧ t.st.downloadPostponed = false := by
    induction h with
    | start =>
        exact ⟨⟨rfl, hstart.accounted, (List.append_nil _).symm, hstart.requested⟩,
          hstart.notPostponed⟩
    | call _ hdelivers hmeets hcall ih =>
        exact received_of_sound hdelivers hmeets ih.2 ih.1 hcall
  exact hrun.1

/-- A call at another offset below 2^31 that is not sound loses count or fails. -/
theorem not_received_of_unsound (hdelivers : Delivers ddc data t) (hunsound : ¬ Sound ddc t)
    (hlt : ddc.contentByteOffset.toNat < 2 ^ 31) (hplain : t.st.downloadPostponed = false)
    (hbefore : Accounted t) (h : Call ddc t t' rc) :
    ¬ Received t' rc (p.after t ddc.contentByteOffset data) := by
  intro hreceived
  have hmoved : t.requested ≠ ddc.contentByteOffset := fun hsame => hunsound (.inl hsame)
  obtain ⟨dlc₁, rc₁, s₁, hmove, hoffset, hrest⟩ := call_run hdelivers hplain h
  rw [if_neg hmoved] at hmove
  obtain ⟨hview₁, hdownloaded, hcrc⟩ := moveOffset_run hmove
  have hok : rc₁ = .ok := by
    by_contra hfailed
    rw [if_neg hfailed] at hrest
    exact hfailed (hrest.symm.trans hreceived.ok)
  subst hok
  rw [if_pos rfl] at hrest
  obtain ⟨-, -, -, hinfo⟩ := hrest
  have hpos : 0 < ddc.contentByteOffset := by
    cases hsum : (t.st.data.map (resize ddc.contentByteOffset.toNat)).bind fun file =>
        uaDlCalcFileCrc32 file (asInt ddc.contentByteOffset) with
    | none =>
        rw [hsum] at hcrc
        cases hcrc
    | some crc =>
        obtain ⟨file, -, hsum⟩ := Option.bind_eq_some_iff.mp hsum
        obtain ⟨hpos, -, -⟩ := uaDlCalcFileCrc32_eq_some hsum
        by_contra hzero
        have hzero : ddc.contentByteOffset = 0 := by
          rw [UInt64.lt_iff_toNat_lt] at hzero
          exact UInt64.toNat_inj.mp (Nat.eq_zero_of_not_pos hzero)
        rw [hzero] at hpos
        exact absurd hpos (by decide)
  have hlen : t'.file.length = ddc.contentByteOffset.toNat + data.length := by
    rw [hreceived.file, Parts.after, if_neg hmoved, List.length_append,
      List.length_take_of_le hdelivers.offset]
  have hcount : t'.dlc.dlInfo.downloadedBytes =
      dlc₁.dlInfo.downloadedBytes + .ofNat data.length := by
    rw [hinfo]
    rfl
  rw [hreceived.accounted.downloadedBytes, hlen, UInt64.ofNat_add, UInt64.ofNat_toNat,
    hdownloaded, hbefore.downloadedBytes] at hcount
  have hfirst : t.requested = .ofNat t.file.length := by
    generalize UInt64.ofNat t.file.length = len at hcount
    generalize UInt64.ofNat data.length = n at hcount
    generalize ddc.contentByteOffset = offset at hcount
    grind
  exact hunsound (.inr ⟨hfirst, hpos, hlt⟩)

/-- The transfer of a file of two bytes that ua_dl_init has found. -/
def sampleTransfer : Transfer where
  dlc := {
    pkgInfo := samplePkg
    dlRec := recordOf [7, 8]
    dlInfo := ⟨9, 2, 9, 0, 0, none⟩
    bytesToReport := 0 }
  requested := 2
  st := stored [7, 8]

theorem sampleTransfer_started : Started sampleTransfer := ⟨⟨rfl, rfl, rfl⟩, rfl, rfl⟩

/-- A delivery of one byte. -/
def byteAt (offset : UInt64) (byte : UInt8) : Delivery := ⟨offset, none, .ok, some [byte]⟩

theorem sendDlReport_calls (pkgInfo : PkgInfo) (dlInfo : DlInfo) (isDone : Bool) :
    (sendDlReport pkgInfo dlInfo isDone).All (· ≠ .crash) := by
  simp [sendDlReport, op]

theorem moveOffset_calls (dlc : UaDlContext) (requested : UInt64) (ddc : Delivery) :
    (moveOffset dlc requested ddc).All (· ≠ .crash) := by
  simp [moveOffset, op, uaDlSaveDlRc_calls]

theorem recvData_calls (dlc : UaDlContext) (ddc : Delivery) (data : Bytes) :
    (recvData dlc ddc data).All (· ≠ .crash) := by
  simp [recvData, uaDlSaveData, op, uaDlSaveDlRc_calls, sendDlReport_calls]

theorem dmcRecvCb_calls (dlc : UaDlContext) (requested : UInt64) (ddc : Delivery) :
    (dmcRecvCb dlc requested ddc).All (· ≠ .crash) := by
  unfold dmcRecvCb
  split
  · trivial
  · simp [moveOffset_calls, recvData_calls]

theorem call_exists (ddc : Delivery) (t : Transfer) : ∃ t' rc, Call ddc t t' rc := by
  obtain ⟨⟨dlc, requested, rc⟩, s', h⟩ :=
    yields_exists succeeds_answers (dmcRecvCb_calls t.dlc t.requested ddc) t.st
  exact ⟨⟨dlc, requested, s'⟩, rc, h⟩

/-- The server starts over at offset 1 of two bytes. -/
theorem calls_received_example :
    ∃ t rc, Calls Sound sampleTransfer t rc ⟨[7], [9]⟩ ∧ Received t rc ⟨[7], [9]⟩ := by
  obtain ⟨t, rc, h⟩ := call_exists (byteAt 1 9) sampleTransfer
  have hcalls : Calls Sound sampleTransfer t rc ⟨[7], [9]⟩ :=
    .call .start ⟨rfl, rfl, by simp, by decide⟩ (.inr ⟨rfl, by decide, by decide⟩) h
  exact ⟨t, rc, hcalls, calls_received sampleTransfer_started hcalls⟩

/-- The server starts over at offset 1 after a byte has been received at offset 2: the count of
the bytes keeps the byte that was cut off. -/
theorem offset_change_miscounted :
    ∃ t rc, Calls (fun _ _ => True) sampleTransfer t rc ⟨[7], [5]⟩ ∧
      ¬ Received t rc ⟨[7], [5]⟩ := by
  obtain ⟨t₁, rc₁, h₁⟩ := call_exists (byteAt 2 9) sampleTransfer
  have hfirst : Delivers (byteAt 2 9) [9] sampleTransfer := ⟨rfl, rfl, by simp, by decide⟩
  obtain ⟨-, haccounted, hfile, hrequested, hplain⟩ :=
    call_same hfirst rfl rfl sampleTransfer_started.accounted h₁
  have hfile : t₁.file = [7, 8, 9] := hfile
  have hrequested : t₁.requested = 2 := hrequested
  obtain ⟨t₂, rc₂, h₂⟩ := call_exists (byteAt 1 5) t₁
  have hsecond : Delivers (byteAt 1 5) [5] t₁ := by
    refine ⟨rfl, rfl, by simp, ?_⟩
    rw [hfile]
    decide
  have hparts : ((Parts.mk [7, 8] []).after sampleTransfer 2 [9]).after t₁ 1 [5] = ⟨[7], [5]⟩ := by
    rw [Parts.after, hrequested, hfile]
    rfl
  have hcalls : Calls (fun _ _ => True) sampleTransfer t₂ rc₂
      (((Parts.mk [7, 8] []).after sampleTransfer 2 [9]).after t₁ 1 [5]) :=
    .call (.call .start hfirst trivial h₁) hsecond trivial h₂
  have hunsound : ¬ Sound (byteAt 1 5) t₁ := by
    rintro (hsame | ⟨hcount, -⟩)
    · rw [hrequested] at hsame
      exact absurd hsame (by decide)
    · rw [hrequested, hfile] at hcount
      exact absurd hcount (by decide)
  have hnot := not_received_of_unsound (p := (Parts.mk [7, 8] []).after sampleTransfer 2 [9])
    hsecond hunsound (by decide) hplain haccounted h₂
  exact ⟨t₂, rc₂, hparts ▸ hcalls, hparts ▸ hnot⟩

end Runs

end EsyncUa.OffsetChanges
