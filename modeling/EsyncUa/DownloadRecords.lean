import EsyncUa.Checksums
import Mathlib.Data.List.GetD
import Mathlib.Tactic.Ring

/-!
The record file of a resumable download. The record is written as the bytes of its C
structure, with little-endian integers of 8 and 4 bytes, no padding and 160 bytes in all.
A record file that was torn or appended to is read by its first 160 bytes, so what is read
may mix two records; it is still small if the bytes that would make a length large are zero.
-/
namespace EsyncUa.DownloadRecords

open EsyncUa.Checksums

/-- The `n` lowest bytes of a number, lowest first. -/
def leBytes : Nat → Nat → Bytes
  | 0, _ => []
  | n + 1, x => UInt8.ofNat x :: leBytes n (x / 256)

def leValue : Bytes → Nat
  | [] => 0
  | b :: bs => b.toNat + 256 * leValue bs

/-- UA_DL_STEP_NONE, UA_DL_STEP_DOWNLOADED, UA_DL_STEP_ENCRYPTED, UA_DL_STEP_VERIFIED and
UA_DL_STEP_DONE; a record may hold any other number. -/
def stepNone : Int32 := 0
def stepDownloaded : Int32 := 1
def stepEncrypted : Int32 := 2
def stepVerified : Int32 := 3
def stepDone : Int32 := 4

def eTagMaxSize : Nat := 128

/-- ua_dl_record_t. -/
structure DlRecord where
  bytesWritten : UInt64
  step : Int32
  crc32 : UInt32
  lastBytesWritten : UInt64
  lastCrc32 : UInt32
  eTagValid : Int32
  eTag : Bytes
  deriving DecidableEq

namespace DlRecord

/-- The size of a char array after its content. -/
def padded (n : Nat) (bytes : Bytes) : Bytes := (bytes ++ List.replicate n 0).take n

/-- The bytes of the structure. -/
def encode (r : DlRecord) : Bytes :=
  leBytes 8 r.bytesWritten.toNat ++ leBytes 4 r.step.toUInt32.toNat ++ leBytes 4 r.crc32.toNat ++
    leBytes 8 r.lastBytesWritten.toNat ++ leBytes 4 r.lastCrc32.toNat ++
    leBytes 4 r.eTagValid.toUInt32.toNat ++ padded eTagMaxSize r.eTag

/-- sizeof(ua_dl_record_t). -/
def size : Nat := 160

def field (bytes : Bytes) (offset n : Nat) : Nat := leValue ((bytes.drop offset).take n)

/-- The structure, zeroed before, after some of its bytes have been read. -/
def decode (bytes : Bytes) : DlRecord where
  bytesWritten := .ofNat (field bytes 0 8)
  step := (UInt32.ofNat (field bytes 8 4)).toInt32
  crc32 := .ofNat (field bytes 12 4)
  lastBytesWritten := .ofNat (field bytes 16 8)
  lastCrc32 := .ofNat (field bytes 24 4)
  eTagValid := (UInt32.ofNat (field bytes 28 4)).toInt32
  eTag := padded eTagMaxSize (bytes.drop 32)

end DlRecord

/-- ua_dl_init_dl_rec. -/
def uaDlInitDlRec (dlRec : DlRecord) : DlRecord where
  bytesWritten := 0
  step := stepNone
  crc32 := 0
  lastBytesWritten := 0
  lastCrc32 := 0
  eTagValid := 0
  eTag := 0 :: dlRec.eTag.drop 1

/-- The two lengths of the record are below 2^31. -/
def SmallRecord (r : DlRecord) : Prop :=
  r.bytesWritten.toNat < 2 ^ 31 ∧ r.lastBytesWritten.toNat < 2 ^ 31

/-- The bytes of a file that make the lengths of a record large are clear. -/
structure SmallBytes (file : Bytes) : Prop where
  bytesWritten : file.getD 3 0 < 128
  bytesWritten_high : ∀ i, 4 ≤ i → i < 8 → file.getD i 0 = 0
  lastBytesWritten : file.getD 19 0 < 128
  lastBytesWritten_high : ∀ i, 20 ≤ i → i < 24 → file.getD i 0 = 0

theorem leBytes_length (n x : Nat) : (leBytes n x).length = n := by
  induction n generalizing x with
  | zero => rfl
  | succ n ih => simp [leBytes, ih]

theorem leBytes_getD (n x i : Nat) (hi : i < n) :
    (leBytes n x).getD i 0 = UInt8.ofNat (x / 256 ^ i) := by
  induction n generalizing x i with
  | zero => omega
  | succ n ih =>
      cases i with
      | zero => simp [leBytes]
      | succ i =>
          rw [leBytes, List.getD_cons_succ, ih _ _ (by omega), Nat.div_div_eq_div_mul, pow_succ,
            Nat.mul_comm]

theorem leValue_step (bytes : Bytes) :
    leValue bytes = (bytes.getD 0 0).toNat + 256 * leValue (bytes.drop 1) := by
  cases bytes <;> simp [leValue]

/-- A number of 8 bytes with clear upper bytes. -/
theorem leValue_eight_lt (bytes : Bytes) (hlen : bytes.length ≤ 8) (hthree : bytes.getD 3 0 < 128)
    (hhigh : ∀ i, 4 ≤ i → i < 8 → bytes.getD i 0 = 0) : leValue bytes < 2 ^ 31 := by
  have hstep : ∀ i, leValue (bytes.drop i) =
      (bytes.getD i 0).toNat + 256 * leValue (bytes.drop (i + 1)) := by
    intro i
    have h := leValue_step (bytes.drop i)
    rw [List.drop_drop] at h
    simpa [List.getD_eq_getElem?_getD, List.getElem?_drop] using h
  have hzero : ∀ i, 4 ≤ i → i < 8 →
      leValue (bytes.drop i) = 256 * leValue (bytes.drop (i + 1)) := by
    intro i hi hi'
    rw [hstep i, hhigh i hi hi']
    simp
  have hend : leValue (bytes.drop 8) = 0 := by
    rw [List.drop_eq_nil_of_le hlen]
    rfl
  have h0 := (bytes.getD 0 0).toNat_lt
  have h1 := (bytes.getD 1 0).toNat_lt
  have h2 := (bytes.getD 2 0).toNat_lt
  have h3 : (bytes.getD 3 0).toNat < 128 := hthree
  have hs0 := hstep 0
  rw [List.drop_zero] at hs0
  rw [hs0, hstep 1, hstep 2, hstep 3, hzero 4 (by omega) (by omega), hzero 5 (by omega) (by omega),
    hzero 6 (by omega) (by omega), hzero 7 (by omega) (by omega), hend]
  omega

theorem getD_field (bytes : Bytes) (offset n i : Nat) (hi : i < n) :
    ((bytes.drop offset).take n).getD i 0 = bytes.getD (offset + i) 0 := by
  simp [List.getD_eq_getElem?_getD, hi]

theorem toNat_ofNat_small {x : Nat} (h : x < 2 ^ 31) : (UInt64.ofNat x).toNat = x := by
  rw [UInt64.toNat_ofNat']
  omega

/-- What is read from small bytes is small. -/
theorem SmallBytes.decode {file : Bytes} (h : SmallBytes file) :
    SmallRecord (DlRecord.decode file) := by
  have hfirst : DlRecord.field file 0 8 < 2 ^ 31 := by
    refine leValue_eight_lt _ (by simp) ?_ ?_
    · rw [getD_field _ _ _ _ (by omega)]
      exact h.bytesWritten
    · intro i hi hi'
      rw [getD_field _ _ _ _ hi', Nat.zero_add]
      exact h.bytesWritten_high i hi hi'
  have hlast : DlRecord.field file 16 8 < 2 ^ 31 := by
    refine leValue_eight_lt _ (by simp) ?_ ?_
    · rw [getD_field _ _ _ _ (by omega)]
      exact h.lastBytesWritten
    · intro i hi hi'
      rw [getD_field _ _ _ _ hi']
      exact h.lastBytesWritten_high (16 + i) (by omega) (by omega)
  constructor
  · simpa only [DlRecord.decode, toNat_ofNat_small hfirst] using hfirst
  · simpa only [DlRecord.decode, toNat_ofNat_small hlast] using hlast

theorem getD_of_prefix {short long : Bytes} (h : short <+: long) (i : Nat) :
    short.getD i 0 = long.getD i 0 ∨ short.getD i 0 = 0 := by
  obtain ⟨rest, rfl⟩ := h
  by_cases hi : i < short.length
  · left
    rw [List.getD_append _ _ _ _ hi]
  · right
    exact List.getD_eq_default _ _ (Nat.le_of_not_lt hi)

/-- A torn write of small bytes is small. -/
theorem SmallBytes.torn {short long : Bytes} (h : SmallBytes long) (hshort : short <+: long) :
    SmallBytes short := by
  refine ⟨?_, ?_, ?_, ?_⟩
  · rcases getD_of_prefix hshort 3 with heq | hzero
    · rw [heq]
      exact h.bytesWritten
    · rw [hzero]
      decide
  · intro i hi hi'
    rcases getD_of_prefix hshort i with heq | hzero
    · rw [heq]
      exact h.bytesWritten_high i hi hi'
    · exact hzero
  · rcases getD_of_prefix hshort 19 with heq | hzero
    · rw [heq]
      exact h.lastBytesWritten
    · rw [hzero]
      decide
  · intro i hi hi'
    rcases getD_of_prefix hshort i with heq | hzero
    · rw [heq]
      exact h.lastBytesWritten_high i hi hi'
    · exact hzero

/-- Bytes whose first 24 are clear. -/
def ClearFront (bytes : Bytes) : Prop := ∀ i, i < 24 → bytes.getD i 0 = 0

theorem ClearFront.torn {short long : Bytes} (h : ClearFront long) (hshort : short <+: long) :
    ClearFront short := by
  intro i hi
  rcases getD_of_prefix hshort i with heq | hzero
  · rw [heq]
    exact h i hi
  · exact hzero

/-- Small bytes stay small when something is appended behind the lengths or when what is
appended is clear where it may fall on them. -/
theorem SmallBytes.append {file bytes : Bytes} (h : SmallBytes file)
    (hbytes : 24 ≤ file.length ∨ ClearFront bytes) : SmallBytes (file ++ bytes) := by
  have hsame : ∀ i, i < 24 → (file ++ bytes).getD i 0 = file.getD i 0 := by
    intro i hi
    by_cases hlt : i < file.length
    · rw [List.getD_append _ _ _ _ hlt]
    · rw [List.getD_append_right _ _ _ _ (Nat.le_of_not_lt hlt),
        List.getD_eq_default _ _ (Nat.le_of_not_lt hlt)]
      rcases hbytes with hlen | hclear
      · omega
      · exact hclear _ (by omega)
  refine ⟨?_, ?_, ?_, ?_⟩
  · rw [hsame 3 (by omega)]
    exact h.bytesWritten
  · intro i hi hi'
    rw [hsame i (by omega)]
    exact h.bytesWritten_high i hi hi'
  · rw [hsame 19 (by omega)]
    exact h.lastBytesWritten
  · intro i hi hi'
    rw [hsame i hi']
    exact h.lastBytesWritten_high i hi hi'

theorem smallBytes_nil : SmallBytes [] :=
  ⟨by decide, fun _ _ _ => rfl, by decide, fun _ _ _ => rfl⟩

theorem leBytes_small (x : Nat) (hx : x < 2 ^ 31) :
    (leBytes 8 x).getD 3 0 < 128 ∧ ∀ i, 4 ≤ i → i < 8 → (leBytes 8 x).getD i 0 = 0 := by
  constructor
  · rw [leBytes_getD 8 x 3 (by omega), UInt8.lt_iff_toNat_lt, UInt8.toNat_ofNat']
    have : x / 256 ^ 3 < 128 := by omega
    exact lt_of_le_of_lt (Nat.mod_le _ _) this
  · intro i hi hi'
    have hpow : 2 ^ 31 ≤ 256 ^ i := by
      calc 2 ^ 31 ≤ 256 ^ 4 := by decide
        _ ≤ 256 ^ i := Nat.pow_le_pow_right (by omega) hi
    rw [leBytes_getD 8 x i hi', Nat.div_eq_of_lt (lt_of_lt_of_le hx hpow)]
    rfl

theorem encode_first (r : DlRecord) (i : Nat) (hi : i < 8) :
    r.encode.getD i 0 = (leBytes 8 r.bytesWritten.toNat).getD i 0 := by
  unfold DlRecord.encode
  simp only [List.append_assoc]
  rw [List.getD_append _ _ _ _ (by rw [leBytes_length]; exact hi)]

theorem encode_last (r : DlRecord) (i : Nat) (hi : i < 8) :
    r.encode.getD (16 + i) 0 = (leBytes 8 r.lastBytesWritten.toNat).getD i 0 := by
  unfold DlRecord.encode
  rw [List.getD_append _ _ _ _ (by simp [leBytes_length]; omega),
    List.getD_append _ _ _ _ (by simp [leBytes_length]; omega),
    List.getD_append _ _ _ _ (by simp [leBytes_length]; omega),
    List.getD_append_right _ _ _ _ (by simp [leBytes_length])]
  congr 1
  simp [leBytes_length]

theorem SmallRecord.encode {r : DlRecord} (h : SmallRecord r) : SmallBytes r.encode := by
  obtain ⟨hthree, hhigh⟩ := leBytes_small _ h.1
  obtain ⟨hlthree, hlhigh⟩ := leBytes_small _ h.2
  refine ⟨?_, ?_, ?_, ?_⟩
  · rw [encode_first r 3 (by omega)]
    exact hthree
  · intro i hi hi'
    rw [encode_first r i hi']
    exact hhigh i hi hi'
  · rw [show 19 = 16 + 3 from rfl, encode_last r 3 (by omega)]
    exact hlthree
  · intro i hi hi'
    have hi16 : i = 16 + (i - 16) := by omega
    rw [hi16, encode_last r (i - 16) (by omega)]
    exact hlhigh (i - 16) (by omega) (by omega)

theorem initDlRec_small (r : DlRecord) : SmallRecord (uaDlInitDlRec r) :=
  ⟨Nat.two_pow_pos 31, Nat.two_pow_pos 31⟩

theorem initDlRec_clear (r : DlRecord) : ClearFront (uaDlInitDlRec r).encode := by
  intro i hi
  have hfront : (uaDlInitDlRec r).encode =
      List.replicate 24 0 ++
        (List.replicate 8 0 ++ DlRecord.padded eTagMaxSize (0 :: r.eTag.drop 1)) := by
    have hstep : stepNone.toUInt32.toNat = 0 := by decide
    have hvalid : (0 : Int32).toUInt32.toNat = 0 := by decide
    simp only [DlRecord.encode, uaDlInitDlRec, hstep, hvalid]
    simp [leBytes, List.replicate]
  rw [hfront, List.getD_append _ _ _ _ (by simpa using hi), List.getD_replicate]
  exact hi

end EsyncUa.DownloadRecords
