import EsyncUa.Checksums
import EsyncUa.JsonProperties

/-!
`copy_file` over the streams of the C library. A stream takes the bytes it is given before they
are in the file, so bytes may be lost as late as when it is closed, and the result of closing
is only logged.
-/
namespace EsyncUa.FileCopies

open EsyncUa.JsonProperties EsyncUa.Checksums

/-- ua_rw_buff_size, which a configuration only replaces by a size other than zero. -/
structure BuffSize where
  size : Nat
  pos : 0 < size

def defaultBuffSize : BuffSize := ⟨16 * 1024, by decide⟩

/-- How a call of fread ends; with an error it may have read some bytes. -/
inductive ReadCall
  | done
  | fails (got : Nat)
  deriving DecidableEq

/-- How a call of fwrite ends; with an error it may have taken some bytes. -/
inductive WriteCall
  | done
  | fails (taken : Nat)
  deriving DecidableEq

/-- How closing the destination ends; with an error a front of what it has taken is in the file. -/
inductive CloseCall
  | done
  | fails (kept : Nat)
  deriving DecidableEq

/-- The outcomes of one run of copy_file. -/
structure CopyCalls where
  openFrom : Bool
  chkdirp : Bool
  openTo : Bool
  fread : Nat → ReadCall
  fwrite : Nat → WriteCall
  closeTo : CloseCall

/-- A stream that is read: the bytes left, and its error indicator. -/
structure InStream where
  rest : Bytes
  ferror : Bool

/-- The bytes of one fread, and the stream after it. -/
def fread (size : Nat) : ReadCall → InStream → Bytes × InStream
  | .done, inn => (inn.rest.take size, { inn with rest := inn.rest.drop size })
  | .fails got, inn =>
      (inn.rest.take (min got (size - 1)), ⟨inn.rest.drop (min got (size - 1)), true⟩)

/-- The bytes that a stream takes of those it is given. -/
def fwrite (bytes : Bytes) : WriteCall → Bytes
  | .done => bytes
  | .fails taken => bytes.take (min taken (bytes.length - 1))

/-- What is in the file when the stream that has taken the bytes is closed. -/
def fclose (taken : Bytes) : CloseCall → Bytes
  | .done => taken
  | .fails kept => taken.take kept

section Copy

variable (buff : BuffSize) (calls : CopyCalls)

/-- The copying loop from its `i`-th pass: its error, and what the destination has taken. -/
def copyLoop : Nat → Nat → InStream → Bytes → Option (Rc × Bytes)
  | 0, _, _, _ => none
  | fuel + 1, i, inn, out =>
      let (buf, inn) := fread buff.size (calls.fread i) inn
      if buf = [] ∧ inn.ferror then some (eUaSys, out)
      else if buf ≠ [] ∧ (fwrite buf (calls.fwrite i)).length ≠ buf.length then
        some (eUaSys, out ++ fwrite buf (calls.fwrite i))
      else if buf = [] then some (eUaOk, out)
      else copyLoop fuel (i + 1) inn (out ++ fwrite buf (calls.fwrite i))

/-- copy_file: its result, and the file at the destination where there was `before`. -/
def copyFile (source : Bytes) (before : Option Bytes) : Option (Rc × Option Bytes) :=
  if !calls.openFrom then some (eUaSys, before)
  else if !calls.chkdirp then some (eUaSys, before)
  else if !calls.openTo then some (eUaSys, before)
  else (copyLoop buff calls (source.length + 1) 0 ⟨source, false⟩ []).map fun copied =>
    (copied.1, some (fclose copied.2 calls.closeTo))

/-- How often a buffer is filled with some of the bytes. -/
def blocks (size len : Nat) : Nat := (len + size - 1) / size

/-- Every call before the destination is closed succeeds, on as many bytes. -/
structure Succeed (len : Nat) : Prop where
  openFrom : calls.openFrom = true
  chkdirp : calls.chkdirp = true
  openTo : calls.openTo = true
  fread : ∀ i < blocks buff.size len + 1, calls.fread i = .done
  fwrite : ∀ i < blocks buff.size len, calls.fwrite i = .done

/-- Closing the destination fails, and not all of the bytes are in the file. -/
def LosesAtClose (len : Nat) : Prop := ∃ kept, calls.closeTo = .fails kept ∧ kept < len

end Copy

theorem blocks_zero (buff : BuffSize) : blocks buff.size 0 = 0 := by
  unfold blocks
  have hpos := buff.pos
  exact Nat.div_eq_of_lt (by omega)

theorem blocks_step (buff : BuffSize) {len : Nat} (hlen : 0 < len) :
    blocks buff.size len = blocks buff.size (len - buff.size) + 1 := by
  unfold blocks
  have hpos := buff.pos
  by_cases hle : buff.size ≤ len
  · have hsum : len + buff.size - 1 = (len - buff.size + buff.size - 1) + buff.size := by omega
    rw [hsum, Nat.add_div_right _ hpos]
  · have hshort : len - buff.size = 0 := by omega
    have hone : len + buff.size - 1 = (len - 1) + buff.size := by omega
    rw [hshort, hone, Nat.add_div_right _ hpos, Nat.div_eq_of_lt (by omega),
      Nat.div_eq_of_lt (by omega)]

variable {buff : BuffSize} {calls : CopyCalls}

theorem fwrite_all {bytes : Bytes} (hne : bytes ≠ []) {call : WriteCall} :
    (fwrite bytes call).length = bytes.length ↔ call = .done := by
  have hpos : 0 < bytes.length := List.length_pos_iff.mpr hne
  cases call with
  | done => simp [fwrite]
  | fails taken =>
      simp only [fwrite, List.length_take, reduceCtorEq, iff_false]
      omega

theorem fread_split (size : Nat) (call : ReadCall) (inn : InStream) :
    (fread size call inn).1 ++ (fread size call inn).2.rest = inn.rest := by
  cases call <;> exact List.take_append_drop _ _

theorem fread_ferror (size : Nat) (call : ReadCall) (inn : InStream) :
    (fread size call inn).2.ferror = true ↔ inn.ferror = true ∨ call ≠ .done := by
  cases call <;> simp [fread]

/-- One pass: the end of the file or an error ends the loop, a full write goes on. -/
theorem copyLoop_step (fuel i : Nat) (inn : InStream) (out : Bytes) :
    copyLoop buff calls (fuel + 1) i inn out =
      if (fread buff.size (calls.fread i) inn).1 = [] then
        some (if (fread buff.size (calls.fread i) inn).2.ferror then eUaSys else eUaOk, out)
      else if calls.fwrite i = .done then
        copyLoop buff calls fuel (i + 1) (fread buff.size (calls.fread i) inn).2
          (out ++ (fread buff.size (calls.fread i) inn).1)
      else some (eUaSys,
        out ++ fwrite (fread buff.size (calls.fread i) inn).1 (calls.fwrite i)) := by
  conv => lhs; unfold copyLoop
  by_cases hempty : (fread buff.size (calls.fread i) inn).1 = []
  · by_cases herror : (fread buff.size (calls.fread i) inn).2.ferror = true
    · simp [hempty, herror]
    · simp [hempty, herror]
  · by_cases hwrite : calls.fwrite i = .done
    · simp [hempty, hwrite, fwrite]
    · have hshort := (not_congr (fwrite_all hempty)).mpr hwrite
      simp only [hempty, false_and, if_false, not_false_eq_true, ne_eq, hshort, hwrite, and_self,
        if_true]

/-- A read that is not empty leaves fewer bytes. -/
theorem fread_shorter {size : Nat} {call : ReadCall} {inn : InStream} {fuel : Nat}
    (hne : (fread size call inn).1 ≠ []) (hfuel : inn.rest.length < fuel + 1) :
    (fread size call inn).2.rest.length < fuel := by
  have hsplit := congrArg List.length (fread_split size call inn)
  rw [List.length_append] at hsplit
  have hpos := List.length_pos_iff.mpr hne
  omega

/-- Once the error indicator is set the loop ends with an error. -/
theorem copyLoop_error {fuel i : Nat} {inn : InStream} (out : Bytes)
    (herror : (fread buff.size (calls.fread i) inn).2.ferror = true)
    (hfuel : inn.rest.length < fuel) :
    ∃ taken, copyLoop buff calls fuel i inn out = some (eUaSys, taken) := by
  induction fuel generalizing i inn out with
  | zero => omega
  | succ fuel ih =>
      rw [copyLoop_step]
      by_cases hempty : (fread buff.size (calls.fread i) inn).1 = []
      · exact ⟨out, by simp only [hempty, herror, if_true]⟩
      · rw [if_neg hempty]
        split
        · exact ih _ ((fread_ferror _ _ _).mpr (.inl herror)) (fread_shorter hempty hfuel)
        · exact ⟨_, rfl⟩

/-- What holds from a pass on holds of this pass and from the next one on. -/
theorem forall_passes (P : Nat → Prop) (i n : Nat) :
    (∀ j < n + 1, P (i + j)) ↔ P i ∧ ∀ j < n, P (i + 1 + j) := by
  rw [Nat.forall_lt_succ_left]
  simp only [Nat.add_zero, Nat.add_assoc, Nat.add_comm 1]

/-- Every read and every write of so many bytes from a pass on succeeds. -/
def Goes (buff : BuffSize) (calls : CopyCalls) (i len : Nat) : Prop :=
  (∀ j < blocks buff.size len + 1, calls.fread (i + j) = .done) ∧
    ∀ j < blocks buff.size len, calls.fwrite (i + j) = .done

theorem goes_zero (i : Nat) : Goes buff calls i 0 ↔ calls.fread i = .done := by
  unfold Goes
  rw [blocks_zero, forall_passes fun k => calls.fread k = .done]
  simp

theorem goes_step (buff : BuffSize) (calls : CopyCalls) (i : Nat) {len : Nat} (hlen : 0 < len) :
    Goes buff calls i len ↔
      (calls.fread i = .done ∧ calls.fwrite i = .done) ∧
        Goes buff calls (i + 1) (len - buff.size) := by
  unfold Goes
  rw [blocks_step buff hlen, forall_passes fun k => calls.fread k = .done,
    forall_passes fun k => calls.fwrite k = .done]
  tauto

/-- The loop ends, without an error exactly if every read and every write has succeeded, and
then the destination has taken all bytes. -/
theorem copyLoop_ends (buff : BuffSize) (calls : CopyCalls) (i : Nat) {fuel : Nat}
    {rest : Bytes} (out : Bytes) (hfuel : rest.length < fuel) :
    ∃ rc taken, copyLoop buff calls fuel i ⟨rest, false⟩ out = some (rc, taken) ∧
      (rc = eUaOk ↔ Goes buff calls i rest.length) ∧ (rc = eUaOk → taken = out ++ rest) := by
  have hsys : eUaSys ≠ eUaOk := by decide
  induction fuel generalizing i rest out with
  | zero => omega
  | succ fuel ih =>
      cases hread : calls.fread i with
      | fails got =>
          -- the indicator is set, so whatever follows ends with an error
          have herror : (fread buff.size (calls.fread i) ⟨rest, false⟩).2.ferror = true :=
            (fread_ferror _ _ _).mpr (.inr (by simp [hread]))
          obtain ⟨taken, htaken⟩ := copyLoop_error out herror hfuel
          refine ⟨eUaSys, taken, htaken, ⟨fun h => absurd h hsys, fun h => ?_⟩,
            fun h => absurd h hsys⟩
          have hfirst := ((forall_passes (fun k => calls.fread k = .done) _ _).mp h.1).1
          rw [hread] at hfirst
          cases hfirst
      | done =>
          rw [copyLoop_step, hread]
          cases rest with
          | nil =>
              refine ⟨eUaOk, out, by simp [fread], ⟨fun _ => ?_, fun _ => rfl⟩,
                fun _ => (List.append_nil out).symm⟩
              exact (goes_zero i).mpr hread
          | cons b bytes =>
              have hpos := buff.pos
              have hne : (fread buff.size .done ⟨b :: bytes, false⟩).1 ≠ [] := by
                simp only [fread, ne_eq, List.take_eq_nil_iff, reduceCtorEq, or_false]
                omega
              have hlen : 0 < (b :: bytes).length := Nat.succ_pos _
              have hgoes := goes_step buff calls i hlen
              rw [if_neg hne, hgoes]
              by_cases hwrite : calls.fwrite i = .done
              · rw [if_pos hwrite]
                obtain ⟨rc, taken, hrun, hok, htaken⟩ := ih (i + 1)
                  (out ++ (b :: bytes).take buff.size) (fread_shorter hne hfuel)
                dsimp only [fread] at hok htaken
                rw [List.length_drop] at hok
                refine ⟨rc, taken, hrun, ?_, fun h => ?_⟩
                · simp only [hok, hread, hwrite, and_self, true_and]
                · rw [htaken h, List.append_assoc, List.take_append_drop]
              · rw [if_neg hwrite]
                exact ⟨eUaSys, _, rfl, ⟨fun h => absurd h hsys, fun h => absurd h.1.2 hwrite⟩,
                  fun h => absurd h hsys⟩

/-- copy_file comes to its end; it succeeds exactly if every call before the destination is
closed does, and then the destination holds what closing it has left of the source. -/
theorem copyFile_ends (buff : BuffSize) (calls : CopyCalls) (source : Bytes)
    (before : Option Bytes) :
    ∃ rc dest, copyFile buff calls source before = some (rc, dest) ∧
      (rc = eUaOk ↔ Succeed buff calls source.length) ∧
      (rc = eUaOk → dest = some (fclose source calls.closeTo)) := by
  have hsys : eUaSys ≠ eUaOk := by decide
  unfold copyFile
  by_cases hfrom : calls.openFrom = true
  · by_cases hdir : calls.chkdirp = true
    · by_cases hto : calls.openTo = true
      · obtain ⟨rc, taken, hrun, hok, htaken⟩ := copyLoop_ends buff calls 0 []
          (Nat.lt_succ_self source.length)
        refine ⟨rc, some (fclose taken calls.closeTo), by simp [hfrom, hdir, hto, hrun], ?_,
          fun h => by rw [htaken h, List.nil_append]⟩
        unfold Goes at hok
        simp only [Nat.zero_add] at hok
        exact hok.trans ⟨fun h => ⟨hfrom, hdir, hto, h.1, h.2⟩, fun h => ⟨h.fread, h.fwrite⟩⟩
      · exact ⟨eUaSys, before, by simp [hfrom, hdir, hto],
          ⟨fun h => absurd h hsys, fun h => absurd h.openTo hto⟩, fun h => absurd h hsys⟩
    · exact ⟨eUaSys, before, by simp [hfrom, hdir],
        ⟨fun h => absurd h hsys, fun h => absurd h.chkdirp hdir⟩, fun h => absurd h hsys⟩
  · exact ⟨eUaSys, before, by simp [hfrom],
      ⟨fun h => absurd h hsys, fun h => absurd h.openFrom hfrom⟩, fun h => absurd h hsys⟩

theorem fclose_whole (bytes : Bytes) :
    fclose bytes calls.closeTo = bytes ↔ ¬ LosesAtClose calls bytes.length := by
  unfold LosesAtClose
  cases calls.closeTo with
  | done => simp [fclose]
  | fails kept => simp [fclose, List.take_eq_self_iff]

/-- A copy that is reported as made is the source exactly when no bytes are lost in closing the
destination after every other call has succeeded. -/
theorem copied_iff (buff : BuffSize) (calls : CopyCalls) (source : Bytes)
    (before : Option Bytes) :
    ∃ rc dest, copyFile buff calls source before = some (rc, dest) ∧
      ((rc = eUaOk → dest = some source) ↔
        ¬ (Succeed buff calls source.length ∧ LosesAtClose calls source.length)) := by
  obtain ⟨rc, dest, hrun, hok, hdest⟩ := copyFile_ends buff calls source before
  refine ⟨rc, dest, hrun, ?_⟩
  rw [← hok, not_and]
  refine imp_congr_right fun h => ?_
  rw [hdest h, Option.some.injEq, fclose_whole]

/-- A full disk that shows only when the destination is closed: the copy is empty. -/
theorem lost_at_close :
    ¬ ∀ (buff : BuffSize) (calls : CopyCalls) (source : Bytes) (before : Option Bytes),
      ∃ rc dest, copyFile buff calls source before = some (rc, dest) ∧
        (rc = eUaOk → dest = some source) := by
  intro h
  obtain ⟨rc, dest, hrun, hcopied⟩ := h defaultBuffSize
    ⟨true, true, true, fun _ => .done, fun _ => .done, .fails 0⟩ [1, 2, 3] none
  have hend : copyFile defaultBuffSize ⟨true, true, true, fun _ => .done, fun _ => .done, .fails 0⟩
      [1, 2, 3] none = some (eUaOk, some []) := by decide
  rw [hend] at hrun
  cases hrun
  exact absurd (hcopied rfl) (by decide)

end EsyncUa.FileCopies
