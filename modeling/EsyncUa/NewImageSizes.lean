import EsyncUa.LastWrites
import EsyncUa.ScratchMemory
import Mathlib.Data.List.Induction

/-!
The size that `espatch` cuts the new image to (`espatch.c`). The callback that writes a block
notes where the block ends, whatever was written before it. A write that fails comes back as the
largest length there is, so it notes a size as well: one less than the offset of its block.
-/
namespace EsyncUa.NewImageSizes

open ByteStores CStrings LastWrites ScratchMemory

/-- How much of a block is to be written before the power is interrupted. -/
def interrupted (pwrInterruptPos blkoffset length : Nat) : Nat :=
  if pwrInterruptPos ≠ 0 ∧ sizeT (blkoffset + length : Nat) ≥ pwrInterruptPos then
    if blkoffset < pwrInterruptPos then pwrInterruptPos - blkoffset else 0
  else length

/-- A call for the new image, and how its `write` ends: with -1 (`none`) or the number of bytes
that are in the file. Offsets of files are below 2^63. -/
structure BlockWrite (pwrInterruptPos : Nat) where
  blkoffset : Nat
  buffer : List Byte
  write : Option Nat
  offset_lt : blkoffset < 2 ^ 63
  write_le : ∀ n, write = some n → n ≤ interrupted pwrInterruptPos blkoffset buffer.length
  end_lt : ∀ n, write = some n → blkoffset + n < 2 ^ 63

/-- The new image and the size that is noted for it. -/
structure Image where
  newsize : Nat
  file : List Byte

/-- The file after some bytes were written at an offset. -/
def pwrite (file : List Byte) (offset : Nat) (data : List Byte) : List Byte :=
  if data = [] then file
  else overwrite (resize file (max file.length (offset + data.length)) fun _ => 0) offset data

/-- The file after `ftruncate`, which refuses a size that is negative as an offset. -/
def ftruncate (file : List Byte) (size : Nat) (granted : Bool) : List Byte :=
  if granted ∧ size < 2 ^ 63 then resize file size fun _ => 0 else file

/-- The file that `espatch` leaves; `patched` is a result from ESPOK on. -/
def truncateNew (image : Image) (newfd : Int) (patched granted : Bool) : List Byte :=
  if newfd > 0 ∧ patched ∧ image.newsize ≠ 0 then ftruncate image.file image.newsize granted
  else image.file

variable {pwrInterruptPos : Nat}

namespace BlockWrite

variable (call : BlockWrite pwrInterruptPos)

/-- The bytes of the block that are in the file. -/
def data : List Byte := call.buffer.take (call.write.getD 0)

/-- What `flash_writeblock` returns. -/
def returned : Nat := resultSize call.write

/-- What is assigned to the size of the new image. -/
def noted : Option Nat :=
  if call.returned > 0 then some (sizeT (call.blkoffset + call.returned : Nat)) else none

/-- `flash_writeblock` for the new image. -/
def flashWriteblock (image : Image) : Image where
  newsize := call.noted.getD image.newsize
  file := pwrite image.file call.blkoffset call.data

/-- The end offset of the bytes written, 0 without any. -/
def reach : Nat := if call.data = [] then 0 else call.blkoffset + call.data.length

end BlockWrite

/-- The new image after some calls, from the file that the old image was copied to. -/
def written (file : List Byte) (calls : List (BlockWrite pwrInterruptPos)) : Image :=
  calls.foldl (fun image call => call.flashWriteblock image) ⟨0, file⟩

/-- The largest end offset of the bytes written. -/
def largestEnd (calls : List (BlockWrite pwrInterruptPos)) : Nat :=
  calls.foldl (fun size call => max size call.reach) 0

/-- The bytes written, the last one at each offset. -/
def store (calls : List (BlockWrite pwrInterruptPos)) : Store Byte :=
  calls.foldl (fun store call => store.record call.blkoffset call.data) Store.empty

/-- The noted size is where the data ends, and the truncation of the file keeps the data. -/
structure Sized (file : List Byte) (calls : List (BlockWrite pwrInterruptPos)) : Prop where
  newsize : (written file calls).newsize = largestEnd calls
  keeps : ∀ newfd patched granted,
    Holds (truncateNew (written file calls) newfd patched granted) (store calls)

/-- The last of the calls whose `write` does not return 0. -/
def Last (calls : List (BlockWrite pwrInterruptPos)) (call : BlockWrite pwrInterruptPos) : Prop :=
  ∃ earlier later, calls = earlier ++ call :: later ∧ call.write ≠ some 0 ∧
    ∀ other ∈ later, other.write = some 0

/-- The call ends at or behind the size; or it fails, and its block begins one behind it. -/
def Covers (call : BlockWrite pwrInterruptPos) (size : Nat) : Prop :=
  match call.write with
  | some n => size ≤ call.blkoffset + n
  | none => call.blkoffset = size + 1

namespace BlockWrite

variable (call : BlockWrite pwrInterruptPos)

theorem interrupted_le (pwrInterruptPos blkoffset length : Nat) :
    interrupted pwrInterruptPos blkoffset length ≤ length := by
  have hwrapped : sizeT (blkoffset + length : Nat) ≤ blkoffset + length := by
    unfold sizeT
    omega
  unfold interrupted
  split
  · split <;> omega
  · exact le_refl length

theorem length_data : call.data.length = call.write.getD 0 := by
  rw [data, List.length_take]
  cases hwrite : call.write with
  | none => exact Nat.zero_min _
  | some n =>
    have hn := call.write_le n hwrite
    have hlength := interrupted_le pwrInterruptPos call.blkoffset call.buffer.length
    exact min_eq_left (le_trans hn hlength)

theorem reach_of_written {n : Nat} (hwrite : call.write = some n) (hn : n ≠ 0) :
    call.reach = call.blkoffset + n := by
  have hlength := call.length_data
  rw [hwrite, Option.getD_some] at hlength
  rw [reach, if_neg fun hdata => hn (by rw [← hlength, hdata, List.length_nil]), hlength]

theorem reach_of_nothing (hwrite : call.write.getD 0 = 0) : call.reach = 0 := by
  have hlength := call.length_data
  rw [hwrite] at hlength
  exact if_pos (List.length_eq_zero_iff.mp hlength)

theorem noted_of_written {n : Nat} (hwrite : call.write = some n) (hn : n ≠ 0) :
    call.noted = some (call.blkoffset + n) := by
  have hend := call.end_lt n hwrite
  have hreturned : call.returned = n := by rw [returned, hwrite, resultSize_some (by omega)]
  rw [noted, hreturned, if_pos (Nat.pos_of_ne_zero hn), sizeT_of_lt (by omega)]

theorem reach_lt : call.reach < 2 ^ 63 := by
  by_cases hnothing : call.write.getD 0 = 0
  · rw [call.reach_of_nothing hnothing]
    decide
  · cases hwrite : call.write with
    | none => exact absurd (by rw [hwrite, Option.getD_none]) hnothing
    | some n =>
      have hn : n ≠ 0 := fun hzero => hnothing (by rw [hwrite, Option.getD_some, hzero])
      rw [call.reach_of_written hwrite hn]
      exact call.end_lt n hwrite

/-- A failed write notes the size before its offset, or the largest one. -/
theorem noted_of_failed (hwrite : call.write = none) :
    call.noted = some (if call.blkoffset = 0 then 2 ^ 64 - 1 else call.blkoffset - 1) := by
  have hoffset := call.offset_lt
  have hreturned : call.returned = 2 ^ 64 - 1 := by rw [returned, hwrite, resultSize_none]
  rw [noted, hreturned, if_pos (by decide), Option.some.injEq]
  unfold sizeT
  split <;> omega

theorem noted_eq_none_iff : call.noted = none ↔ call.write = some 0 := by
  constructor
  · intro hnoted
    cases hwrite : call.write with
    | none =>
      rw [call.noted_of_failed hwrite] at hnoted
      cases hnoted
    | some n =>
      by_cases hn : n = 0
      · rw [hn]
      · rw [call.noted_of_written hwrite hn] at hnoted
        cases hnoted
  · intro hwrite
    rw [noted, returned, hwrite]
    rfl

end BlockWrite

section Runs

variable (file : List Byte) (calls : List (BlockWrite pwrInterruptPos))

theorem newsize_eq_assigned : (written file calls).newsize = assigned BlockWrite.noted 0 calls := by
  have hrun : ∀ image : Image,
      (calls.foldl (fun image call => call.flashWriteblock image) image).newsize =
        assigned BlockWrite.noted image.newsize calls := by
    induction calls with
    | nil => exact fun _ => rfl
    | cons call calls ih => exact fun image => ih (call.flashWriteblock image)
  exact hrun ⟨0, file⟩

variable {file calls}

theorem le_foldl_max (size : Nat) :
    size ≤ calls.foldl (fun size call => max size call.reach) size := by
  induction calls generalizing size with
  | nil => exact le_refl size
  | cons call calls ih => exact le_trans (le_max_left _ _) (ih (max size call.reach))

theorem reach_le_largestEnd {call : BlockWrite pwrInterruptPos} (hcall : call ∈ calls) :
    call.reach ≤ largestEnd calls := by
  obtain ⟨earlier, later, rfl⟩ := List.append_of_mem hcall
  rw [largestEnd, List.foldl_append, List.foldl_cons]
  exact le_trans (le_max_right _ _) (le_foldl_max _)

theorem store_append (call : BlockWrite pwrInterruptPos) :
    store (calls ++ [call]) = (store calls).record call.blkoffset call.data := by
  rw [store, List.foldl_append]
  rfl

theorem largestEnd_append (call : BlockWrite pwrInterruptPos) :
    largestEnd (calls ++ [call]) = max (largestEnd calls) call.reach := by
  rw [largestEnd, List.foldl_append]
  rfl

/-- Nothing is written behind the largest end. -/
theorem store_lt_largestEnd {i : Nat} {value : Byte} (hi : store calls i = some value) :
    i < largestEnd calls := by
  induction calls using List.reverseRecOn with
  | nil => cases hi
  | append_singleton calls call ih =>
    rw [store_append, Store.record] at hi
    rw [largestEnd_append]
    split at hi
    · rename_i hinside
      have hdata : call.data ≠ [] := by
        intro hnil
        rw [hnil, List.length_nil] at hinside
        omega
      have hreach : call.reach = call.blkoffset + call.data.length := if_neg hdata
      omega
    · have hbefore := ih hi
      omega

theorem holds_pwrite {bytes : List Byte} {stored : Store Byte} (h : Holds bytes stored)
    (offset : Nat) (data : List Byte) :
    Holds (pwrite bytes offset data) (stored.record offset data) := by
  unfold pwrite
  split
  · rename_i hnil
    intro i value hi
    rw [hnil, Store.record, List.length_nil, if_neg (by omega)] at hi
    exact h i value hi
  · refine (h.resize _ _ (le_max_left _ _)).overwrite offset data ?_
    rw [length_resize]
    exact le_max_right _ _

theorem written_holds : Holds (written file calls).file (store calls) := by
  induction calls using List.reverseRecOn with
  | nil => exact holds_empty file
  | append_singleton calls call ih =>
    rw [store_append, written, List.foldl_append]
    exact holds_pwrite ih call.blkoffset call.data

/-- A truncation behind the data keeps it. -/
theorem truncateNew_holds (hsize : largestEnd calls ≤ (written file calls).newsize) (newfd : Int)
    (patched granted : Bool) :
    Holds (truncateNew (written file calls) newfd patched granted) (store calls) := by
  unfold truncateNew ftruncate
  split
  · split
    · exact written_holds.resize_covering _ _ fun i value hi =>
        lt_of_lt_of_le (store_lt_largestEnd hi) hsize
    · exact written_holds
  · exact written_holds

/-- Without a call that notes a size nothing is written. -/
theorem largestEnd_of_silent (h : ∀ call ∈ calls, call.write = some 0) : largestEnd calls = 0 := by
  induction calls using List.reverseRecOn with
  | nil => rfl
  | append_singleton calls call ih =>
    have hreach := call.reach_of_nothing (by rw [h call (by simp), Option.getD_some])
    rw [largestEnd_append, ih fun other hother => h other (by simp [hother]), hreach]
    rfl

theorem largestEnd_lt (calls : List (BlockWrite pwrInterruptPos)) :
    largestEnd calls < 2 ^ 63 := by
  induction calls using List.reverseRecOn with
  | nil => exact Nat.two_pow_pos 63
  | append_singleton calls call ih =>
    have hreach := call.reach_lt
    rw [largestEnd_append]
    exact max_lt ih hreach

/-- The size that the last call notes is the largest end exactly if the call covers it. -/
theorem noted_eq_largestEnd_iff {call : BlockWrite pwrInterruptPos} (hcall : call ∈ calls)
    (hwrite : call.write ≠ some 0) :
    call.noted = some (largestEnd calls) ↔ Covers call (largestEnd calls) := by
  have hreach := reach_le_largestEnd hcall
  unfold Covers
  cases hresult : call.write with
  | some n =>
    have hn : n ≠ 0 := fun hzero => hwrite (by rw [hresult, hzero])
    rw [call.reach_of_written hresult hn] at hreach
    rw [call.noted_of_written hresult hn, Option.some.injEq]
    simp only
    omega
  | none =>
    have hlt := largestEnd_lt calls
    rw [call.noted_of_failed hresult, Option.some.injEq]
    simp only
    split <;> omega

/-- The noted size is the largest end exactly if the last call that notes one covers it. -/
theorem newsize_eq_largestEnd_iff (file : List Byte) :
    (written file calls).newsize = largestEnd calls ↔
      ∀ call, Last calls call → Covers call (largestEnd calls) := by
  rw [newsize_eq_assigned]
  constructor
  · rintro hsize call ⟨earlier, later, hcalls, hwrite, hlater⟩
    have hmem : call ∈ calls := by simp [hcalls]
    obtain ⟨size, hnoted⟩ : ∃ size, call.noted = some size :=
      Option.ne_none_iff_exists'.mp fun hnone => hwrite (call.noted_eq_none_iff.mp hnone)
    have hlast : assigned BlockWrite.noted 0 calls = size := by
      rw [hcalls]
      exact assigned_of_last BlockWrite.noted 0 earlier later call size hnoted fun other hother =>
        other.noted_eq_none_iff.mpr (hlater other hother)
    rw [← noted_eq_largestEnd_iff hmem hwrite, hnoted, ← hsize, hlast]
  · intro hcovers
    rcases assigned_source BlockWrite.noted 0 calls with
      ⟨hzero, hsilent⟩ | ⟨earlier, call, later, hcalls, hnoted, hlater⟩
    · rw [hzero, largestEnd_of_silent fun call hcall =>
        call.noted_eq_none_iff.mp (hsilent call hcall)]
    · have hmem : call ∈ calls := by rw [hcalls]; simp
      have hwrite : call.write ≠ some 0 := fun hzero => by
        rw [call.noted_eq_none_iff.mpr hzero] at hnoted
        cases hnoted
      have hlast : Last calls call :=
        ⟨earlier, later, hcalls, hwrite, fun other hother =>
          other.noted_eq_none_iff.mp (hlater other hother)⟩
      have hend := (noted_eq_largestEnd_iff hmem hwrite).mpr (hcovers call hlast)
      exact Option.some.inj (hnoted.symm.trans hend)

/-- The new image is sized by its data exactly if the last call that notes a size covers it. -/
theorem sized_iff (file : List Byte) (calls : List (BlockWrite pwrInterruptPos)) :
    Sized file calls ↔ ∀ call, Last calls call → Covers call (largestEnd calls) := by
  constructor
  · intro hsized
    exact (newsize_eq_largestEnd_iff file).mp hsized.newsize
  · intro hcovers
    have hsize := (newsize_eq_largestEnd_iff file).mpr hcovers
    exact ⟨hsize, truncateNew_holds (le_of_eq hsize.symm)⟩

/-- Two blocks in descending order: the truncation removes the one that was written first. -/
theorem descending_blocks_cut :
    ∃ calls : List (BlockWrite 0), ¬ Sized [] calls ∧
      (written [] calls).file = [1, 2, 3, 4, 5, 6, 7, 8] ∧
      truncateNew (written [] calls) 3 true true = [1, 2, 3, 4] := by
  let later : BlockWrite 0 := ⟨4, [5, 6, 7, 8], some 4, by decide, by decide, by decide⟩
  let first : BlockWrite 0 := ⟨0, [1, 2, 3, 4], some 4, by decide, by decide, by decide⟩
  refine ⟨[later, first], ?_, by decide, by decide⟩
  intro hsized
  exact absurd hsized.newsize (by decide)

end Runs

end EsyncUa.NewImageSizes
