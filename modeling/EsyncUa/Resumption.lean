import EsyncUa.AnsweredRuns
import EsyncUa.DownloadRecovery

/-!
Resuming a download. The length of the data that ua_dl_init checks passes from the 64 bits of
the record through an int, so the record of 2^31 bytes or more is checked over other bytes
than it tells of. One thread runs here, the operations may have any answers, and where good
data is to be kept the two files can be opened and read in full.
-/
namespace EsyncUa.Resumption

open EsyncUa.JsonProperties EsyncUa.Programs EsyncUa.AnsweredRuns EsyncUa.Checksums
open EsyncUa.DownloadRecords EsyncUa.Downloads EsyncUa.DownloadRuns EsyncUa.DownloadRecovery

section Runs

variable {α : Type}

def flags (s : DlState) : Flags := ⟨s.stopCompletedStatus, s.downloadPostponed⟩

/-- The answers that are possible in a state and allowed there. -/
def Answered (allowed : DlState → (o : DlOp) → o.Ans → Prop) (o : DlOp) (b : o.Ans)
    (s s' : DlState) : Prop :=
  allowed s o b ∧ effect o b s = some s'

/-- What a program of the download thread may return and leave. -/
abbrev DlRun (allowed : DlState → (o : DlOp) → o.Ans → Prop) (p : DlProg α) (s : DlState) (a : α)
    (s' : DlState) : Prop :=
  Yields flags (Answered allowed) p s a s'

def Anything (_s : DlState) (o : DlOp) (_b : o.Ans) : Prop := True

/-- The directories can be made, and the files can be opened and read in full. -/
def ReadsBack (s : DlState) : (o : DlOp) → o.Ans → Prop
  | .makeDirs, (b : Bool) | .openRecordAppend, (b : Bool) => b = true
  | .accessRecord, (b : Bool) => b = s.record.isSome
  | .readRecord, (b : Bytes) => b = (s.record.getD []).take DlRecord.size
  | .openData, (b : Option Bytes) => b = s.data
  | _, _ => True

/-- What is written is written in full. -/
def Completes : (o : DlOp) → o.Ans → Prop
  | .openRecordNew, (b : Bool) => b = true
  | .writeRecord bytes, (n : Nat) => n = bytes.length
  | .appendData bytes, (b : Option Nat) => b = some bytes.length
  | _, _ => True

/-- All operations on files succeed. -/
def Succeeds (s : DlState) (o : DlOp) (b : o.Ans) : Prop := ReadsBack s o b ∧ Completes o b

@[simp] theorem run_op (allowed : DlState → (o : DlOp) → o.Ans → Prop) (o : DlOp) (s : DlState)
    (b : o.Ans) (s' : DlState) :
    @Yields _ _ _ _ (no_index o.Ans) flags (Answered allowed) (op o) s b s' ↔
      allowed s o b ∧ effect o b s = some s' :=
  yields_perform flags (Answered allowed) o s b s'

end Runs

section RoundTrip

/-- The value of the lowest bytes of a number. -/
theorem leValue_leBytes (n x : Nat) : leValue (leBytes n x) = x % 256 ^ n := by
  induction n generalizing x with
  | zero => simp [leBytes, leValue, Nat.mod_one]
  | succ n ih =>
      have hmod : x % 256 ^ (n + 1) = x % 256 + 256 * (x / 256 % 256 ^ n) := by
        rw [Nat.pow_succ', Nat.mod_mul]
      rw [leBytes, leValue, ih, UInt8.toNat_ofNat', hmod]

theorem drop_leBytes {n i : Nat} (x : Nat) (h : n ≤ i) : (leBytes n x).drop i = [] :=
  List.drop_eq_nil_of_le (le_of_eq_of_le (leBytes_length n x) h)

theorem ofNat_leBytes64 (x : UInt64) : UInt64.ofNat (leValue (leBytes 8 x.toNat)) = x := by
  have hlt : x.toNat < 256 ^ 8 := x.toNat_lt
  rw [leValue_leBytes, Nat.mod_eq_of_lt hlt, UInt64.ofNat_toNat]

theorem ofNat_leBytes32 (x : UInt32) : UInt32.ofNat (leValue (leBytes 4 x.toNat)) = x := by
  have hlt : x.toNat < 256 ^ 4 := x.toNat_lt
  rw [leValue_leBytes, Nat.mod_eq_of_lt hlt, UInt32.ofNat_toNat]

/-- A record is read back from its bytes. -/
theorem decode_encode (r : DlRecord) (htag : r.eTag.length = eTagMaxSize) :
    DlRecord.decode r.encode = r := by
  have hpadded : DlRecord.padded eTagMaxSize r.eTag = r.eTag := by
    rw [DlRecord.padded, List.take_append_of_le_length (le_of_eq htag.symm), ← htag,
      List.take_length]
  simp [DlRecord.decode, DlRecord.field, DlRecord.encode, List.drop_append,
    leBytes_length, drop_leBytes, ofNat_leBytes64, ofNat_leBytes32, hpadded]

end RoundTrip

section Sums

/-- A file that is long enough is summed. -/
theorem crcBlocks_of_le {fuel : Nat} {file : Bytes} {remain : Nat} (crc : UInt32)
    (hfuel : remain < fuel) (hlen : remain ≤ file.length) :
    crcBlocks fuel file remain crc = some (bufCrc32 (file.take remain) crc) := by
  induction fuel generalizing file remain crc with
  | zero => omega
  | succ fuel ih =>
      unfold crcBlocks
      split
      · rename_i hzero
        rw [hzero]
        rfl
      · rename_i hne
        have hblock : ¬ file.length < min remain 1024 := by omega
        simp only [if_neg hblock]
        rw [ih _ (by omega) (by rw [List.length_drop]; omega), ← bufCrc32_append]
        have hsplit : remain = min remain 1024 + (remain - min remain 1024) := by omega
        conv_rhs => rw [hsplit]
        rw [List.take_add]

theorem uaDlCalcFileCrc32_of_le {file : Bytes} {len : Int32} (hpos : 0 < len)
    (hlen : len.toNatClampNeg ≤ file.length) :
    uaDlCalcFileCrc32 file len = some (bufCrc32 (file.take len.toNatClampNeg) 0) := by
  rw [uaDlCalcFileCrc32, if_neg (Int32.not_le.mpr hpos)]
  exact crcBlocks_of_le 0 (by omega) hlen

theorem asInt_pos {n : UInt64} (hpos : 0 < n) (hlt : n.toNat < 2 ^ 31) : 0 < asInt n := by
  rw [Int32.lt_iff_toInt_lt]
  have hsmall := asInt_small hlt
  have hn : 0 < n.toNat := hpos
  rw [← hsmall] at hn
  unfold Int32.toNatClampNeg at hn
  have hzero : (0 : Int32).toInt = 0 := rfl
  omega

theorem crc32Step_bit : crc32Step 0 0 = 0 ∧ crc32Step 0 1 ≠ 0 := by decide +kernel

theorem bufCrc32_zeros (n : Nat) : bufCrc32 (List.replicate n 0) 0 = 0 := by
  induction n with
  | zero => rfl
  | succ n ih =>
      rw [List.replicate_succ, bufCrc32, List.foldl_cons, crc32Step_bit.1]
      exact ih

end Sums

section Initialisation

variable {allowed : DlState → (o : DlOp) → o.Ans → Prop} {s s' : DlState}

theorem startOver_run {r r' : DlRecord} (h : DlRun allowed (startOver r) s r' s') :
    r' = uaDlInitDlRec r ∧ s'.data = none := by
  simp only [startOver, yields_bind, run_op, effect, Option.some.injEq] at h
  obtain ⟨n, s₁, ⟨-, -⟩, x, s₂, ⟨-, hremoved⟩, rfl, rfl⟩ := h
  exact ⟨rfl, hremoved ▸ rfl⟩

theorem writeRecord_data {bytes : Bytes} {n : Nat}
    (h : effect (.writeRecord bytes) n s = some s') : s'.data = s.data := by
  cases h
  rfl

theorem openRecordNew_data {opened : Bool} (h : effect .openRecordNew opened s = some s') :
    s'.data = s.data := by
  cases opened <;> cases h <;> rfl

theorem uaDlSaveDlRc_data {r : DlRecord} {rc : Rc}
    (h : DlRun allowed (uaDlSaveDlRc r) s rc s') : s'.data = s.data := by
  simp only [uaDlSaveDlRc, yields_bind, run_op, yields_ite] at h
  obtain ⟨opened, s₁, ⟨-, hopen⟩, h⟩ := h
  rw [← openRecordNew_data hopen]
  split at h
  · obtain ⟨n, s₂, ⟨-, hwrite⟩, -, rfl⟩ := h
    exact writeRecord_data hwrite
  · obtain ⟨-, rfl⟩ := h
    rfl

theorem dropLastPackage_data {r r' : DlRecord} (h : DlRun allowed (dropLastPackage r) s r' s') :
    s'.data = s.data := by
  unfold dropLastPackage at h
  split at h
  · simp only [yields_bind] at h
    obtain ⟨rc, s₁, hsave, -, rfl⟩ := h
    exact uaDlSaveDlRc_data hsave
  · obtain ⟨-, rfl⟩ := h
    rfl

/-- The record that is continued with has passed the check; another is started over. -/
theorem continueDownload_run {r r' : DlRecord} {file : Bytes}
    (h : DlRun allowed (continueDownload r file) s r' s') :
    (r'.bytesWritten = 0 ∧ s'.data = none) ∨
      (uaDlCalcFileCrc32 file (asInt r'.bytesWritten) = some r'.crc32 ∧
        s'.data = s.data.map (resize r'.bytesWritten.toNat)) := by
  simp only [continueDownload, yields_bind, yields_ite] at h
  obtain ⟨r₁, s₁, hdrop, h⟩ := h
  rw [← dropLastPackage_data hdrop]
  split at h
  · rename_i hcheck
    right
    simp only [run_op] at h
    obtain ⟨n, s₂, ⟨-, hwrite⟩, x, s₃, ⟨-, hcut⟩, rfl, rfl⟩ := h
    rw [← writeRecord_data hwrite]
    cases hcut
    refine ⟨?_, rfl⟩
    split <;> exact hcheck
  · left
    obtain ⟨rfl, hnone⟩ := startOver_run h
    exact ⟨rfl, hnone⟩

/-- A record with nothing to drop is kept or started over as the check says. -/
theorem continueDownload_same {r r' : DlRecord} {file : Bytes}
    (hwritten : r.bytesWritten = r.lastBytesWritten) (hcrc : r.crc32 = r.lastCrc32)
    (h : DlRun allowed (continueDownload r file) s r' s') :
    if uaDlCalcFileCrc32 file (asInt r.bytesWritten) = some r.crc32 then
      r'.bytesWritten = r.bytesWritten ∧ s'.data = s.data.map (resize r.bytesWritten.toNat)
    else r'.bytesWritten = 0 ∧ s'.data = none := by
  have hdrop : dropLastPackage r = pure r := by
    rw [dropLastPackage, if_neg]
    rintro (hne | hne)
    · exact hne hwritten.symm
    · exact hne hcrc
  simp only [continueDownload, hdrop, Prog.pure_eq, Prog.pure_bind, yields_ite] at h
  split at h
  · rename_i hcheck
    rw [if_pos hcheck]
    simp only [run_op, yields_bind] at h
    obtain ⟨n, s₁, ⟨-, hwrite⟩, x, s₂, ⟨-, hcut⟩, rfl, rfl⟩ := h
    have hkept : (if stepDownloaded < r.step then { r with step := stepDownloaded } else r
        ).bytesWritten = r.bytesWritten := by
      split <;> rfl
    rw [← writeRecord_data hwrite]
    cases hcut
    rw [hkept]
    exact ⟨rfl, rfl⟩
  · rename_i hcheck
    rw [if_neg hcheck]
    obtain ⟨rfl, hnone⟩ := startOver_run h
    exact ⟨rfl, hnone⟩

/-- The operations before the data file is read leave it as it is. -/
theorem reading_data {exists_ opened : Bool} {bytes : Bytes} {s₁ s₂ s₃ : DlState}
    (hexists : effect .accessRecord exists_ s = some s₁)
    (hopen : effect .openRecordAppend opened s₁ = some s₂)
    (hread : effect .readRecord bytes s₂ = some s₃) : s₃.data = s.data := by
  simp only [effect] at hexists hopen hread
  split at hexists
  · cases hexists
  · cases hexists
    split at hread
    · cases hread
      split at hopen <;> cases hopen <;> rfl
    · cases hread

theorem startOver_some {r r' : DlRecord}
    (h : DlRun allowed (some <$> startOver r) s (some r') s') : r'.bytesWritten = 0 := by
  rw [DlRun, yields_map] at h
  obtain ⟨r₁, hstart, heq⟩ := h
  cases heq
  obtain ⟨rfl, -⟩ := startOver_run hstart
  rfl

/-- What ua_dl_init goes on with has passed the check over a front of the data file. -/
theorem settleRecord_run {r' : DlRecord} (h : DlRun allowed settleRecord s (some r') s') :
    r'.bytesWritten = 0 ∨ ∃ data file, s.data = some data ∧ file <+: data ∧
      uaDlCalcFileCrc32 file (asInt r'.bytesWritten) = some r'.crc32 := by
  simp only [settleRecord, yields_bind, run_op, yields_ite] at h
  obtain ⟨exists_, s₁, ⟨-, hexists⟩, h⟩ := h
  split at h
  · obtain ⟨opened, s₂, ⟨-, hopen⟩, h⟩ := h
    split at h
    · obtain ⟨bytes, s₃, ⟨-, hread⟩, h⟩ := h
      split at h
      · exact .inl (startOver_some h)
      · obtain ⟨file, s₄, ⟨-, hfile⟩, h⟩ := h
        cases file with
        | none => exact .inl (startOver_some h)
        | some file =>
            obtain ⟨r₁, hcontinue, heq⟩ := (yields_map ..).mp h
            cases heq
            rcases continueDownload_run hcontinue with ⟨hzero, -⟩ | ⟨hcheck, -⟩
            · exact .inl hzero
            · right
              simp only [effect, reading_data hexists hopen hread] at hfile
              split at hfile
              · cases hfile
              · rename_i data hdata
                split at hfile
                · rename_i hfront
                  exact ⟨data, file, hdata, hfront, hcheck⟩
                · cases hfile
    · cases h.1
  · obtain ⟨opened, s₂, ⟨-, hopen⟩, h⟩ := h
    split at h
    · exact .inl (startOver_some h)
    · cases h.1

/-- A record with nothing to drop and files that are read back are kept or started over. -/
theorem settleRecord_readsBack {bytes data : Bytes} {r' : Option DlRecord}
    (hrecord : s.record = some bytes) (hsize : DlRecord.size ≤ bytes.length)
    (hdata : s.data = some data) {r : DlRecord}
    (hr : DlRecord.decode (bytes.take DlRecord.size) = r)
    (hwritten : r.bytesWritten = r.lastBytesWritten) (hcrc : r.crc32 = r.lastCrc32)
    (h : DlRun ReadsBack settleRecord s r' s') :
    ∃ r₁, r' = some r₁ ∧
      if uaDlCalcFileCrc32 data (asInt r.bytesWritten) = some r.crc32 then
        r₁.bytesWritten = r.bytesWritten ∧ s'.data = some (resize r.bytesWritten.toNat data)
      else r₁.bytesWritten = 0 ∧ s'.data = none := by
  simp only [settleRecord, yields_bind, run_op, yields_ite] at h
  obtain ⟨exists_, s₁, ⟨hexistsAns, hexists⟩, h⟩ := h
  have hthere : exists_ = true := by
    rw [show exists_ = s.record.isSome from hexistsAns, hrecord]
    rfl
  rw [if_pos hthere] at h
  obtain ⟨opened, s₂, ⟨hopenAns, hopen⟩, h⟩ := h
  have hopened : opened = true := hopenAns
  rw [if_pos hopened] at h
  obtain ⟨read, s₃, ⟨hreadAns, hread⟩, h⟩ := h
  have hkeep := reading_data hexists hopen hread
  subst hthere hopened
  simp only [effect, hrecord] at hexists hopen
  cases hexists
  cases hopen
  have hreadAll : read = bytes.take DlRecord.size := by
    rw [show read = _ from hreadAns, hrecord]
    rfl
  have hlen : read.length = DlRecord.size := by
    rw [hreadAll, List.length_take, Nat.min_eq_left hsize]
  rw [if_neg (not_not_intro hlen)] at h
  obtain ⟨file, s₄, ⟨hfileAns, hfile⟩, h⟩ := h
  have hfileAll : file = some data := by
    rw [show file = s₃.data from hfileAns, hkeep, hdata]
  subst hfileAll
  have hsame : s₄.data = some data := by
    simp only [effect, hkeep, hdata] at hfile
    split at hfile
    · cases hfile
      rw [hkeep, hdata]
    · cases hfile
  rw [hreadAll, hr] at h
  obtain ⟨r₁, hcontinue, heq⟩ := (yields_map ..).mp h
  refine ⟨r₁, heq.symm, ?_⟩
  have hsettled := continueDownload_same hwritten hcrc hcontinue
  rw [hsame] at hsettled
  exact hsettled

/-- What a context begins with. -/
def beginning (dlc : UaDlContext) : DlRecord × UInt64 := (dlc.dlRec, dlc.dlInfo.downloadedBytes)

/-- After ua_dl_init the context has the settled record and counts its bytes. -/
theorem uaDlInit_run {pkgInfo : PkgInfo} {dlc : Option UaDlContext}
    (h : DlRun allowed (uaDlInit pkgInfo) s dlc s') :
    ∃ made : Bool, allowed s .makeDirs made ∧
      if made = true then
        ∃ r s₁, DlRun allowed settleRecord s r s₁ ∧ s'.data = s₁.data ∧
          dlc.map beginning = r.map fun r => (r, r.bytesWritten)
      else dlc = none := by
  simp only [uaDlInit, yields_bind, run_op, yields_ite] at h
  obtain ⟨made, s₁, ⟨hallowed, hmade⟩, h⟩ := h
  cases hmade
  refine ⟨made, hallowed, ?_⟩
  split at h
  · rename_i hmade
    rw [if_pos hmade]
    obtain ⟨r, s₂, hsettle, h⟩ := h
    refine ⟨r, s₂, hsettle, ?_⟩
    cases r with
    | none =>
        obtain ⟨rfl, rfl⟩ := h
        exact ⟨rfl, rfl⟩
    | some r =>
        obtain ⟨x, s₃, ⟨-, hset⟩, rfl, rfl⟩ := h
        cases hset
        exact ⟨rfl, rfl⟩
  · rename_i hmade
    rw [if_neg hmade]
    exact h.1.symm

end Initialisation

/-- A record of a download that was not interrupted in a write, and the data it tells of. -/
structure GoodRecord (r : DlRecord) (data : Bytes) : Prop where
  pos : 0 < r.bytesWritten
  bytesWritten : r.bytesWritten = r.lastBytesWritten
  crc32 : r.crc32 = r.lastCrc32
  len : r.bytesWritten.toNat ≤ data.length
  sum : bufCrc32 (data.take r.bytesWritten.toNat) 0 = r.crc32

/-- The package has the record in its record file and the data in its data file. -/
structure Holds (s : DlState) (r : DlRecord) (data : Bytes) : Prop where
  record : ∃ bytes, s.record = some bytes ∧ DlRecord.size ≤ bytes.length ∧
    DlRecord.decode (bytes.take DlRecord.size) = r
  data : s.data = some data

/-- ua_dl_init goes on with the length and leaves exactly that much of the data. -/
structure Kept (len : UInt64) (data : Bytes) (dlc : Option UaDlContext) (s : DlState) : Prop where
  context : ∃ r, dlc.map beginning = some (r, len) ∧ r.bytesWritten = len
  data : s.data = some (data.take len.toNat)

/-- The download is started from zero. -/
structure StartedOver (dlc : Option UaDlContext) (s : DlState) : Prop where
  context : ∃ r, dlc.map beginning = some (r, 0) ∧ r.bytesWritten = 0
  data : s.data = none

/-- Good data of this length is kept, wherever it is read back. -/
def KeepsGoodData (len : UInt64) : Prop :=
  ∀ pkgInfo s r data, Holds s r data → GoodRecord r data → r.bytesWritten = len →
    (∃ dlc s', DlRun ReadsBack (uaDlInit pkgInfo) s dlc s') ∧
      ∀ dlc s', DlRun ReadsBack (uaDlInit pkgInfo) s dlc s' → Kept len data dlc s'

/-- A record of this length is accepted only with the data whose checksum it has. -/
def RejectsBadData (len : UInt64) : Prop :=
  ∀ pkgInfo s dlc s', DlRun Anything (uaDlInit pkgInfo) s (some dlc) s' →
    dlc.dlRec.bytesWritten = len → 0 < len →
      ∃ data, s.data = some data ∧ len.toNat ≤ data.length ∧
        bufCrc32 (data.take len.toNat) 0 = dlc.dlRec.crc32

/-- Good data of this length is resumed, and no bad record of this length is. -/
def Resumes (len : UInt64) : Prop := KeepsGoodData len ∧ RejectsBadData len

section Lengths

variable {len : UInt64}

theorem rejects_of_small (hlen : len.toNat < 2 ^ 31) : RejectsBadData len := by
  intro pkgInfo s dlc s' h hwritten hpos
  obtain ⟨made, -, h⟩ := uaDlInit_run h
  split at h
  · obtain ⟨r, s₁, hsettle, -, hbegin⟩ := h
    obtain ⟨r, rfl, hr⟩ := Option.map_eq_some_iff.mp hbegin.symm
    obtain ⟨rfl, -⟩ := Prod.mk.inj hr
    rcases settleRecord_run hsettle with hzero | ⟨data, file, hdata, hfront, hcheck⟩
    · rw [← hwritten, hzero] at hpos
      exact absurd hpos (by decide)
    · obtain ⟨-, hle, hsum⟩ := uaDlCalcFileCrc32_eq_some hcheck
      rw [hwritten, asInt_small hlen] at hle hsum
      refine ⟨data, hdata, le_trans hle hfront.length_le, ?_⟩
      rw [hsum, take_of_prefix hfront hle]
  · cases h

theorem succeeds_answers (o : DlOp) (ho : o ≠ .crash) (s : DlState) :
    ∃ b s', Answered Succeeds o b s s' := by
  cases o with
  | makeDirs => exact ⟨true, s, ⟨rfl, trivial⟩, rfl⟩
  | accessRecord =>
      refine ⟨s.record.isSome, s, ⟨rfl, trivial⟩, ?_⟩
      cases hrecord : s.record <;> simp [effect, hrecord]
  | openRecordAppend => exact ⟨true, _, ⟨rfl, trivial⟩, rfl⟩
  | openRecordNew => exact ⟨true, _, ⟨trivial, rfl⟩, rfl⟩
  | readRecord => exact ⟨_, s, ⟨rfl, trivial⟩, if_pos (List.prefix_refl _)⟩
  | openData =>
      cases hdata : s.data with
      | none => exact ⟨none, s, ⟨hdata.symm, trivial⟩, rfl⟩
      | some data => exact ⟨some data, s, ⟨hdata.symm, trivial⟩, by simp [effect, hdata]⟩
  | appendData bytes => exact ⟨some bytes.length, _, ⟨trivial, rfl⟩, if_pos (le_refl _)⟩
  | writeRecord bytes => exact ⟨bytes.length, _, ⟨trivial, rfl⟩, rfl⟩
  | receive requested received rc => exact ⟨none, s, ⟨trivial, trivial⟩, rfl⟩
  | downloadResult => exact ⟨⟨.ok, .ok, 200⟩, s, ⟨trivial, trivial⟩, rfl⟩
  | dmclientDownload => exact ⟨0, s, ⟨trivial, trivial⟩, rfl⟩
  | sendReport report => exact ⟨eUaOk, _, ⟨trivial, trivial⟩, rfl⟩
  | verifyBinary i => exact ⟨true, _, ⟨trivial, trivial⟩, rfl⟩
  | copyToEncrypted | sizeEncrypted | decryptBinary | verifyCaFile i =>
      exact ⟨true, s, ⟨trivial, trivial⟩, rfl⟩
  | crash => exact absurd rfl ho
  | _ => exact ⟨(), _, ⟨trivial, trivial⟩, rfl⟩

theorem readsBack_answers (o : DlOp) (ho : o ≠ .crash) (s : DlState) :
    ∃ b s', Answered ReadsBack o b s s' := by
  obtain ⟨b, s', hallowed, heffect⟩ := succeeds_answers o ho s
  exact ⟨b, s', hallowed.1, heffect⟩

theorem startOver_calls (r : DlRecord) : (startOver r).All (· ≠ .crash) := by
  simp [startOver, op]

theorem uaDlSaveDlRc_calls (r : DlRecord) : (uaDlSaveDlRc r).All (· ≠ .crash) := by
  simp [uaDlSaveDlRc, op]

theorem continueDownload_calls (r : DlRecord) (file : Bytes) :
    (continueDownload r file).All (· ≠ .crash) := by
  unfold continueDownload dropLastPackage
  rw [Prog.all_bind, Prog.all_ite]
  refine ⟨⟨fun _ => ?_, fun _ => trivial⟩, fun r _ => ?_⟩
  · simp [uaDlSaveDlRc_calls]
  · simp [startOver_calls, op]

theorem some_calls {p : DlProg DlRecord} (hp : p.All (· ≠ .crash)) :
    (some <$> p).All (· ≠ .crash) := by
  rw [map_eq_pure_bind, Prog.all_bind]
  exact ⟨hp, fun _ _ => trivial⟩

theorem settleRecord_calls : settleRecord.All (· ≠ .crash) := by
  simp only [settleRecord, op, Prog.all_bind, Prog.all_perform, Prog.all_ite]
  refine ⟨by simp, fun _ _ => ⟨fun _ => ⟨by simp, fun _ _ => ⟨fun _ => ?_, fun _ => trivial⟩⟩,
    fun _ => ⟨by simp, fun _ _ => ⟨fun _ => ?_, fun _ => trivial⟩⟩⟩⟩
  · refine ⟨by simp, fun bytes _ => ⟨fun _ => some_calls (startOver_calls _), fun _ => ?_⟩⟩
    refine ⟨by simp, fun file _ => ?_⟩
    cases file with
    | none => exact some_calls (startOver_calls _)
    | some file => exact some_calls (continueDownload_calls _ file)
  · exact some_calls (startOver_calls _)

theorem uaDlInit_calls (pkgInfo : PkgInfo) : (uaDlInit pkgInfo).All (· ≠ .crash) := by
  simp only [uaDlInit, op, Prog.all_bind, Prog.all_perform, Prog.all_ite]
  refine ⟨by simp, fun _ _ => ⟨fun _ => ⟨settleRecord_calls, fun r _ => ?_⟩, fun _ => trivial⟩⟩
  cases r with
  | none => trivial
  | some r => simp

/-- ua_dl_init on files that are read back keeps the data or starts over as the check says. -/
theorem uaDlInit_readsBack {pkgInfo : PkgInfo} {s s' : DlState} {r : DlRecord} {data : Bytes}
    (hs : Holds s r data) (hgood : GoodRecord r data) {dlc : Option UaDlContext}
    (h : DlRun ReadsBack (uaDlInit pkgInfo) s dlc s') :
    if uaDlCalcFileCrc32 data (asInt r.bytesWritten) = some r.crc32 then
      Kept r.bytesWritten data dlc s'
    else StartedOver dlc s' := by
  obtain ⟨bytes, hrecord, hsize, hr⟩ := hs.record
  obtain ⟨made, hmade, h⟩ := uaDlInit_run h
  rw [if_pos (show made = true from hmade)] at h
  obtain ⟨r', s₁, hsettle, hdata, hbegin⟩ := h
  obtain ⟨r₁, rfl, hsettled⟩ :=
    settleRecord_readsBack hrecord hsize hs.data hr hgood.bytesWritten hgood.crc32 hsettle
  rw [Option.map_some] at hbegin
  split at hsettled
  · rename_i hcheck
    rw [if_pos hcheck]
    rw [resize_of_le hgood.len] at hsettled
    exact ⟨⟨r₁, by rw [hbegin, hsettled.1], hsettled.1⟩, hdata.trans hsettled.2⟩
  · rename_i hcheck
    rw [if_neg hcheck]
    exact ⟨⟨r₁, by rw [hbegin, hsettled.1], hsettled.1⟩, hdata.trans hsettled.2⟩

theorem keeps_of_small (hlen : len.toNat < 2 ^ 31) : KeepsGoodData len := by
  rintro pkgInfo s r data hs hgood rfl
  refine ⟨yields_exists readsBack_answers (uaDlInit_calls pkgInfo) s, fun dlc s' h => ?_⟩
  have hsmall := asInt_small hlen
  have hcheck : uaDlCalcFileCrc32 data (asInt r.bytesWritten) = some r.crc32 := by
    rw [uaDlCalcFileCrc32_of_le (asInt_pos hgood.pos hlen) (hsmall ▸ hgood.len), hsmall,
      hgood.sum]
  have hend := uaDlInit_readsBack hs hgood h
  rwa [if_pos hcheck] at hend

/-- Zeros and a one at the end. -/
def lateOne (len : Nat) : Bytes := List.replicate (len - 1) 0 ++ [1]

/-- The record of a download with this data. -/
def recordOf (data : Bytes) : DlRecord where
  bytesWritten := .ofNat data.length
  step := stepNone
  crc32 := bufCrc32 data 0
  lastBytesWritten := .ofNat data.length
  lastCrc32 := bufCrc32 data 0
  eTagValid := 0
  eTag := DlRecord.padded eTagMaxSize []

/-- The state of a download with this data before ua_dl_init. -/
def stored (data : Bytes) : DlState :=
  { freshState with record := some (recordOf data).encode, data := some data }

theorem holds_stored (data : Bytes) : Holds (stored data) (recordOf data) data := by
  have hsize := encode_length (recordOf data)
  refine ⟨⟨_, rfl, le_of_eq hsize.symm, ?_⟩, rfl⟩
  rw [← hsize, List.take_length, decode_encode]
  rfl

theorem goodRecord_of {data : Bytes} (hpos : data ≠ [])
    (hlen : data.length < UInt64.size) : GoodRecord (recordOf data) data := by
  have hwritten : (recordOf data).bytesWritten.toNat = data.length :=
    UInt64.toNat_ofNat_of_lt' hlen
  refine ⟨?_, rfl, rfl, le_of_eq hwritten, ?_⟩
  · rw [UInt64.lt_iff_toNat_lt, hwritten]
    exact List.length_pos_iff.mpr hpos
  · rw [hwritten, List.take_length]
    rfl

/-- A file of 2^31 bytes or more is summed over less, if at all. -/
theorem lateOne_unchecked {n : Nat} (hlow : 2 ^ 31 ≤ n) (len : Int32) :
    uaDlCalcFileCrc32 (lateOne n) len ≠ some (bufCrc32 (lateOne n) 0) := by
  intro h
  obtain ⟨-, -, hsum⟩ := uaDlCalcFileCrc32_eq_some h
  have hlt : len.toNatClampNeg < 2 ^ 31 := len.toNatClampNeg_lt
  have hfront : (lateOne n).take len.toNatClampNeg = List.replicate len.toNatClampNeg 0 := by
    rw [lateOne, List.take_append_of_le_length (by rw [List.length_replicate]; omega),
      List.take_replicate, Nat.min_eq_left (by omega)]
  rw [hfront, bufCrc32_zeros, lateOne, bufCrc32_append, bufCrc32_zeros] at hsum
  exact crc32Step_bit.2 hsum

theorem length_lateOne {n : Nat} (hpos : 0 < n) : (lateOne n).length = n := by
  rw [lateOne, List.length_append, List.length_replicate, List.length_singleton]
  omega

theorem lateOne_good {n : Nat} (hpos : 0 < n) (hlen : n < UInt64.size) :
    GoodRecord (recordOf (lateOne n)) (lateOne n) :=
  goodRecord_of (List.append_ne_nil_of_right_ne_nil _ (by simp))
    ((length_lateOne hpos).symm ▸ hlen)

/-- Data of 2^31 bytes or more with a one at its end is not kept. -/
theorem lateOne_startsOver {n : Nat} (hlow : 2 ^ 31 ≤ n) (hlen : n < UInt64.size)
    (pkgInfo : PkgInfo) :
    ∃ dlc s', DlRun ReadsBack (uaDlInit pkgInfo) (stored (lateOne n)) dlc s' ∧
      StartedOver dlc s' := by
  obtain ⟨dlc, s', h⟩ :=
    yields_exists readsBack_answers (uaDlInit_calls pkgInfo) (stored (lateOne n))
  refine ⟨dlc, s', h, ?_⟩
  have hcheck : uaDlCalcFileCrc32 (lateOne n) (asInt (recordOf (lateOne n)).bytesWritten) ≠
      some (recordOf (lateOne n)).crc32 := lateOne_unchecked hlow _
  have hend := uaDlInit_readsBack (holds_stored _) (lateOne_good (by omega) hlen) h
  rwa [if_neg hcheck] at hend

/-- Good data is kept and bad records are rejected for exactly the lengths below 2^31. -/
theorem resumes_iff (len : UInt64) : Resumes len ↔ len.toNat < 2 ^ 31 := by
  constructor
  · rintro ⟨hkeeps, -⟩
    by_contra hlow
    have hlow : 2 ^ 31 ≤ len.toNat := Nat.le_of_not_lt hlow
    have hgood := lateOne_good (n := len.toNat) (by omega) len.toNat_lt
    obtain ⟨dlc, s', h, hover⟩ := lateOne_startsOver hlow len.toNat_lt samplePkg
    have hwritten : (recordOf (lateOne len.toNat)).bytesWritten = len := by
      rw [recordOf, length_lateOne (by omega), UInt64.ofNat_toNat]
    have hkept := (hkeeps samplePkg _ _ _ (holds_stored _) hgood hwritten).2 dlc s' h
    have hsome := hkept.data
    rw [hover.data] at hsome
    cases hsome
  · intro hlt
    exact ⟨keeps_of_small hlt, rejects_of_small hlt⟩

/-- A download with 2^31 bytes of good data is started from zero. -/
theorem good_data_dropped :
    GoodRecord (recordOf (lateOne 2147483648)) (lateOne 2147483648) ∧
      Holds (stored (lateOne 2147483648)) (recordOf (lateOne 2147483648)) (lateOne 2147483648) ∧
      ∃ dlc s', DlRun ReadsBack (uaDlInit samplePkg) (stored (lateOne 2147483648)) dlc s' ∧
        StartedOver dlc s' :=
  ⟨lateOne_good (by decide) (by decide), holds_stored _,
    lateOne_startsOver (by decide) (by decide) samplePkg⟩

end Lengths

end EsyncUa.Resumption
