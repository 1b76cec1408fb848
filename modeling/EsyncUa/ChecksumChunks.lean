import EsyncUa.ReflectedCrc
import EsyncUa.OffsetChanges

/-!
The checksum of `Crc32.c` is a reflected cyclic redundancy check without inversion. The check of
a download is fed by the chunks as they arrive; that of the file by blocks of 1024 bytes.
-/
namespace EsyncUa.ChecksumChunks

open Checksums Downloads DownloadRecovery Resumption OffsetChanges ReflectedCrc

/-- The polynomial of degree 32, its lowest coefficient in the highest bit. -/
def polynomial : BitVec 32 := 0xEDB88320

/-- The context after dmc_recv_cb has saved some chunks, each with the e-tag of its answer. -/
def afterChunks (dlc : UaDlContext) (chunks : List (Option Bytes × Bytes)) : UaDlContext :=
  chunks.foldl (fun dlc chunk => afterChunk dlc chunk.1 chunk.2) dlc

section Table

theorem crc32Tab_eq : crc32Tab.toList.map UInt32.toBitVec =
    (List.range 256).map fun i => tableEntry polynomial (BitVec.ofNat 8 i) := by decide +kernel

theorem crc32Tab_getD (index : BitVec 8) :
    (crc32Tab.getD index.toNat 0).toBitVec = tableEntry polynomial index := by
  have hlt : index.toNat < 256 := index.isLt
  have hsize : index.toNat < crc32Tab.size := by
    have hlength := congrArg List.length crc32Tab_eq
    rw [List.length_map, List.length_map, List.length_range, Array.length_toList] at hlength
    rw [hlength]
    exact hlt
  have hentry := congrArg (·[index.toNat]?) crc32Tab_eq
  simp only [List.getElem?_map, List.getElem?_range hlt, Option.map_some, BitVec.ofNat_toNat,
    BitVec.setWidth_eq, Array.getElem?_toList, Array.getElem?_eq_getElem hsize] at hentry
  rw [Array.getD_eq_getD_getElem?, Array.getElem?_eq_getElem hsize]
  exact Option.some.inj hentry

/-- The index is that of the lowest eight bits of the register and the byte together. -/
theorem index_toNat (crc : UInt32) (byte : UInt8) :
    ((crc &&& 0xFF) ^^^ byte.toUInt32).toNat =
      (crc.toBitVec.setWidth 8 ^^^ byte.toBitVec).toNat := by
  have hlow : crc.toNat &&& 255 = crc.toNat % 2 ^ 8 := Nat.and_two_pow_sub_one_eq_mod crc.toNat 8
  rw [UInt32.toNat_xor, UInt32.toNat_and, BitVec.toNat_xor, BitVec.toNat_setWidth]
  change (crc.toNat &&& 255) ^^^ byte.toUInt32.toNat = crc.toNat % 2 ^ 8 ^^^ byte.toNat
  rw [hlow, UInt8.toNat_toUInt32]

theorem crc32Step_eq (crc : UInt32) (byte : UInt8) :
    (crc32Step crc byte).toBitVec = feedWord polynomial 8 crc.toBitVec byte.toBitVec := by
  rw [feedWord_eq_tableEntry polynomial (by decide), ← crc32Tab_getD, ← index_toNat]
  rfl

theorem bufCrc32_eq (buf : Bytes) (oldCrc32 : UInt32) :
    (bufCrc32 buf oldCrc32).toBitVec =
      crc polynomial oldCrc32.toBitVec (buf.map UInt8.toBitVec) := by
  induction buf generalizing oldCrc32 with
  | nil => rfl
  | cons byte buf ih =>
      have hstep := ih (crc32Step oldCrc32 byte)
      rw [crc32Step_eq] at hstep
      exact hstep

/-- The usual check of the digits from 1 to 9, before its inversion. -/
example : bufCrc32 [0x31, 0x32, 0x33, 0x34, 0x35, 0x36, 0x37, 0x38, 0x39] 0xFFFFFFFF =
    0x340BC6D9 := by decide +kernel

end Table

section Chunks

variable {dlc : UaDlContext} {chunks : List (Option Bytes × Bytes)}

theorem afterChunks_crc32 (dlc : UaDlContext) (chunks : List (Option Bytes × Bytes)) :
    (afterChunks dlc chunks).dlRec.crc32 =
      bufCrc32 (chunks.map Prod.snd).flatten dlc.dlRec.crc32 := by
  induction chunks generalizing dlc with
  | nil => rfl
  | cons chunk chunks ih =>
      rw [List.map_cons, List.flatten_cons, bufCrc32_append]
      exact ih (afterChunk dlc chunk.1 chunk.2)

/-- The check of the front of a file, block by block. -/
theorem uaDlCalcFileCrc32_front {data : Bytes} (rest : Bytes) (hpos : 0 < data.length)
    (hlen : data.length < 2 ^ 31) :
    uaDlCalcFileCrc32 (data ++ rest) (asInt (.ofNat data.length)) = some (bufCrc32 data 0) := by
  have hnat : (UInt64.ofNat data.length).toNat = data.length :=
    UInt64.toNat_ofNat_of_lt' (Nat.lt_trans hlen (by decide))
  have hlt : (UInt64.ofNat data.length).toNat < 2 ^ 31 := by rwa [hnat]
  have hzero : 0 < UInt64.ofNat data.length := by
    rw [UInt64.lt_iff_toNat_lt, hnat]
    exact hpos
  have hcount : (asInt (.ofNat data.length)).toNatClampNeg = data.length := by
    rw [asInt_small hlt, hnat]
  have hfits : (asInt (.ofNat data.length)).toNatClampNeg ≤ (data ++ rest).length := by
    rw [hcount, List.length_append]
    omega
  rw [uaDlCalcFileCrc32_of_le (asInt_pos hzero hlt) hfits, hcount, List.take_left]

/-- The checksum is the check bit by bit, and chunks of any lengths give the one that is read
back from the file in blocks. -/
theorem bitwise_and_chunked :
    (∀ (buf : Bytes) (oldCrc32 : UInt32), (bufCrc32 buf oldCrc32).toBitVec =
      crc polynomial oldCrc32.toBitVec (buf.map UInt8.toBitVec)) ∧
    ∀ (data rest : Bytes) (dlc : UaDlContext) (chunks : List (Option Bytes × Bytes)),
      0 < data.length → data.length < 2 ^ 31 → (chunks.map Prod.snd).flatten = data →
      dlc.dlRec.crc32 = 0 →
        uaDlCalcFileCrc32 (data ++ rest) (asInt (.ofNat data.length)) =
          some (afterChunks dlc chunks).dlRec.crc32 := by
  refine ⟨bufCrc32_eq, ?_⟩
  intro data rest dlc chunks hpos hlen hchunks hstart
  rw [uaDlCalcFileCrc32_front rest hpos hlen, afterChunks_crc32, hchunks, hstart]

theorem bitwise_and_chunked_three_chunks :
    uaDlCalcFileCrc32 [1, 2, 3, 4] 3 = some (afterChunks
      { sampleTransfer.dlc with dlRec := { sampleTransfer.dlc.dlRec with crc32 := 0 } }
      [(none, [1, 2]), (some [97], []), (none, [3])]).dlRec.crc32 :=
  bitwise_and_chunked.2 [1, 2, 3] [4] _ _ (by decide) (by decide) rfl rfl

end Chunks

end EsyncUa.ChecksumChunks
