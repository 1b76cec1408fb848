import EsyncUa.CStrings

/-!
`__copyfile` of `espatch.c`, which fills the new image from the old one. The results of `read` and
of `write` are kept in one unsigned variable, where an error is a very large count.
-/
namespace EsyncUa.FileDescriptorCopies

open CStrings

/-- How `read` and `write` end in each pass of the loop; `none` is -1. No more is written than
was read; after an error of `read`, `write` is called with a length that is no buffer's, and may
return anything. -/
structure Results where
  read : Nat → Option (List Byte)
  write : Nat → Option Nat
  read_le : ∀ i chunk, read i = some chunk → chunk.length ≤ 16384
  write_lt : ∀ i n, write i = some n → n < 2 ^ 63
  write_le : ∀ i chunk n, read i = some chunk → write i = some n → n ≤ chunk.length

/-- The bytes read from the source, those of them that were written, and whether `read` has found
the end of the source. -/
structure Progress where
  delivered : List Byte
  copied : List Byte
  ended : Bool
  deriving DecidableEq

def start : Progress := ⟨[], [], false⟩

section Copy

variable (results : Results)

/-- One pass of the loop: `n` at its end, and what has been read and written. -/
def pass (i : Nat) (copy : Progress) : Nat × Progress :=
  let chunk := (results.read i).getD []
  if resultSize ((results.read i).map List.length) > 0 then
    (resultSize (results.write i),
      { copy with
        delivered := copy.delivered ++ chunk
        copied := copy.copied ++ chunk.take ((results.write i).getD 0) })
  else (0, { copy with ended := true })

/-- The loop from its `i`-th pass. -/
def copyLoop : Nat → Nat → Progress → Option (Nat × Progress)
  | 0, _, _ => none
  | fuel + 1, i, copy =>
      if (pass results i copy).1 > 0 then copyLoop fuel (i + 1) (pass results i copy).2
      else some (pass results i copy)

/-- `__copyfile`, where `malloc` may fail. -/
def copyfile (allocated : Bool) (fuel : Nat) : Option (Bool × Progress) :=
  if !allocated then some (false, start)
  else (copyLoop results fuel 0 start).map fun out => (decide (out.1 ≥ 0), out.2)

/-- It ends, and returns true only if all up to the end of the source was read and written. -/
def Copies (allocated : Bool) : Prop :=
  ∃ fuel returned copy, copyfile results allocated fuel = some (returned, copy) ∧
    (returned = true → copy.ended = true ∧ copy.copied = copy.delivered)

/-- All that was read in the pass was written, and the loop goes on. -/
def Complete (i : Nat) : Prop :=
  match results.read i with
  | none => results.write i ≠ some 0
  | some chunk => chunk ≠ [] ∧ results.write i = some chunk.length

/-- `read` finds the end of the source in the `n`-th pass, after complete ones. -/
def EndsAt (n : Nat) : Prop := results.read n = some [] ∧ ∀ i < n, Complete results i

end Copy

section Passes

variable {results : Results} {i : Nat} {copy : Progress}

theorem pass_ended (hread : results.read i = some []) :
    pass results i copy = (0, { copy with ended := true }) := by
  unfold pass
  rw [hread]
  rfl

theorem pass_failed (hread : results.read i = none) :
    pass results i copy = (resultSize (results.write i), copy) := by
  unfold pass
  rw [hread, if_pos (by decide)]
  simp

theorem pass_read {chunk : List Byte} (hread : results.read i = some chunk) (hchunk : chunk ≠ []) :
    pass results i copy = (resultSize (results.write i),
      { copy with
        delivered := copy.delivered ++ chunk
        copied := copy.copied ++ chunk.take ((results.write i).getD 0) }) := by
  have hle := results.read_le i chunk hread
  have hpos := List.length_pos_iff.mpr hchunk
  unfold pass
  rw [hread, Option.map_some, resultSize_some (by omega), if_pos hpos]
  rfl

theorem resultSize_write_pos_iff : 0 < resultSize (results.write i) ↔ results.write i ≠ some 0 := by
  cases hwrite : results.write i with
  | none => simp [resultSize_none]
  | some n =>
    have hn := results.write_lt i n hwrite
    rw [resultSize_some (by omega), ne_eq, Option.some.injEq]
    exact Nat.pos_iff_ne_zero

theorem pass_complete (copy : Progress) (h : Complete results i) :
    0 < (pass results i copy).1 ∧ (pass results i copy).2.ended = copy.ended ∧
      ∃ chunk, (pass results i copy).2.delivered = copy.delivered ++ chunk ∧
        (pass results i copy).2.copied = copy.copied ++ chunk := by
  unfold Complete at h
  cases hread : results.read i with
  | none =>
    rw [hread] at h
    rw [pass_failed hread]
    exact ⟨resultSize_write_pos_iff.mpr h, rfl, [], by simp⟩
  | some chunk =>
    rw [hread] at h
    obtain ⟨hchunk, hwrite⟩ := h
    have hpos := List.length_pos_iff.mpr hchunk
    rw [pass_read hread hchunk]
    refine ⟨resultSize_write_pos_iff.mpr ?_, rfl, chunk, rfl, ?_⟩
    · rw [hwrite, ne_eq, Option.some.injEq]
      omega
    · simp [hwrite]

/-- A pass after which the loop goes on, and in which nothing was lost, is complete. -/
theorem complete_of_pass (hgoes : 0 < (pass results i copy).1)
    (hshort : copy.copied.length ≤ copy.delivered.length)
    (hlength : (pass results i copy).2.delivered.length ≤
      (pass results i copy).2.copied.length) : Complete results i := by
  unfold Complete
  cases hread : results.read i with
  | none =>
    rw [pass_failed hread] at hgoes
    exact resultSize_write_pos_iff.mp hgoes
  | some chunk =>
    have hchunk : chunk ≠ [] := by
      rintro rfl
      rw [pass_ended hread] at hgoes
      exact absurd hgoes (lt_irrefl 0)
    have hpos := List.length_pos_iff.mpr hchunk
    rw [pass_read hread hchunk] at hgoes hlength
    simp only [List.length_append, List.length_take] at hlength
    refine ⟨hchunk, ?_⟩
    cases hwrite : results.write i with
    | none =>
      rw [hwrite, Option.getD_none] at hlength
      omega
    | some n =>
      have hn := results.write_le i chunk n hread hwrite
      rw [hwrite, Option.getD_some] at hlength
      rw [Option.some.injEq]
      omega

/-- What is written in a pass is part of what is read in it. -/
theorem pass_shorter (results : Results) (i : Nat) (copy : Progress) :
    (pass results i copy).2.copied.length + copy.delivered.length ≤
      (pass results i copy).2.delivered.length + copy.copied.length := by
  unfold pass
  split
  · simp only [List.length_append, List.length_take]
    omega
  · exact le_of_eq (Nat.add_comm _ _)

/-- Only a pass in which `read` finds the end notes it. -/
theorem pass_ended_iff (hended : copy.ended = false) :
    (pass results i copy).2.ended = true ↔ results.read i = some [] := by
  cases hread : results.read i with
  | none =>
    rw [pass_failed hread]
    simp [hended]
  | some chunk =>
    by_cases hchunk : chunk = []
    · subst hchunk
      simp [pass_ended hread]
    · rw [pass_read hread hchunk]
      simp [hended, hchunk]

end Passes

section Runs

variable {results : Results} {i : Nat} {copy copy' : Progress} {n : Nat}

/-- Complete passes up to the end of the source copy all that is read. -/
theorem copyLoop_of_complete (copy : Progress) (passes : Nat)
    (hend : results.read (i + passes) = some [])
    (hcomplete : ∀ j, i ≤ j → j < i + passes → Complete results j)
    (hsame : copy.copied = copy.delivered) :
    ∃ copy', copyLoop results (passes + 1) i copy = some (0, copy') ∧ copy'.ended = true ∧
      copy'.copied = copy'.delivered := by
  induction passes generalizing i copy with
  | zero =>
    have hread : results.read i = some [] := hend
    rw [copyLoop, pass_ended hread, if_neg (lt_irrefl 0)]
    exact ⟨_, rfl, rfl, hsame⟩
  | succ passes ih =>
    obtain ⟨hgoes, -, chunk, hdelivered, hcopied⟩ :=
      pass_complete copy (hcomplete i (le_refl i) (by omega))
    have hend' : results.read (i + 1 + passes) = some [] := by
      rw [← hend]
      congr 1
      omega
    rw [copyLoop, if_pos hgoes]
    exact ih _ hend' (fun j hj hlt => hcomplete j (by omega) (by omega))
      (by rw [hcopied, hdelivered, hsame])

/-- A run that copies all up to the end of the source has only complete passes before it. -/
theorem complete_of_copyLoop {fuel : Nat} (h : copyLoop results fuel i copy = some (n, copy'))
    (hended : copy.ended = false) (hended' : copy'.ended = true)
    (hshort : copy.copied.length ≤ copy.delivered.length)
    (hsame : copy'.copied = copy'.delivered) :
    copy.copied.length = copy.delivered.length ∧
      ∃ last, i ≤ last ∧ results.read last = some [] ∧
        ∀ j, i ≤ j → j < last → Complete results j := by
  induction fuel generalizing i copy with
  | zero => cases h
  | succ fuel ih =>
    have hstep := pass_shorter results i copy
    rw [copyLoop] at h
    split at h
    · rename_i hgoes
      have hnot : (pass results i copy).2.ended = false := by
        by_contra htrue
        have hread := (pass_ended_iff hended).mp (Bool.eq_true_of_not_eq_false htrue)
        rw [pass_ended hread] at hgoes
        exact absurd hgoes (lt_irrefl 0)
      obtain ⟨hequal, last, hlast, hread, hbefore⟩ := ih h hnot (by omega)
      have hcomplete := complete_of_pass hgoes hshort (le_of_eq hequal.symm)
      refine ⟨by omega, last, by omega, hread, fun j hj hlt => ?_⟩
      by_cases hfirst : j = i
      · rw [hfirst]
        exact hcomplete
      · exact hbefore j (by omega) hlt
    · rename_i hstops
      rw [Option.some.injEq] at h
      have hcopy : (pass results i copy).2 = copy' := congrArg Prod.snd h
      rw [hcopy] at hstep
      have hread : results.read i = some [] := (pass_ended_iff hended).mp (by rw [hcopy, hended'])
      rw [hsame] at hstep
      exact ⟨by omega, i, le_refl i, hread, fun j hj hlt => absurd hlt (by omega)⟩

theorem endsAt_of_copies (h : Copies results true) : ∃ n, EndsAt results n := by
  obtain ⟨fuel, returned, copy, hrun, hcopies⟩ := h
  rw [copyfile, Bool.not_true, if_neg Bool.false_ne_true, Option.map_eq_some_iff] at hrun
  obtain ⟨⟨n, copy₁⟩, hloop, hout⟩ := hrun
  obtain ⟨hreturned, rfl⟩ := Prod.mk.inj hout
  -- `n` is unsigned, so the last test never fails.
  have htrue : returned = true := by
    rw [← hreturned]
    exact decide_eq_true (Nat.zero_le n)
  obtain ⟨hended, hsame⟩ := hcopies htrue
  obtain ⟨-, last, -, hread, hbefore⟩ := complete_of_copyLoop hloop rfl hended (le_refl _) hsame
  exact ⟨last, hread, fun i hi => hbefore i (Nat.zero_le i) hi⟩

theorem copies_of_endsAt {n : Nat} (h : EndsAt results n) : Copies results true := by
  obtain ⟨hread, hbefore⟩ := h
  obtain ⟨copy, hloop, hended, hsame⟩ := copyLoop_of_complete start n
    (by rw [Nat.zero_add]; exact hread) (fun j _ hlt => hbefore j (by omega)) rfl
  refine ⟨n + 1, true, copy, ?_, fun _ => ⟨hended, hsame⟩⟩
  rw [copyfile, Bool.not_true, if_neg Bool.false_ne_true, hloop]
  rfl

/-- The copy is as it should be exactly if there is no memory for the buffer, or the source comes
to its end after passes in which all that was read was written. -/
theorem copies_iff (results : Results) (allocated : Bool) :
    Copies results allocated ↔ allocated = false ∨ ∃ n, EndsAt results n := by
  cases allocated with
  | false => exact ⟨fun _ => .inl rfl, fun _ => ⟨0, false, start, rfl, nofun⟩⟩
  | true =>
    constructor
    · exact fun h => .inr (endsAt_of_copies h)
    · rintro (hfalse | ⟨n, hends⟩)
      · cases hfalse
      · exact copies_of_endsAt hends

/-- The loop does not end while no pass ends it. -/
theorem copyLoop_endless (hgoes : ∀ j copy, i ≤ j → 0 < (pass results j copy).1) (fuel : Nat) :
    copyLoop results fuel i copy = none := by
  induction fuel generalizing i copy with
  | zero => rfl
  | succ fuel ih =>
    rw [copyLoop, if_pos (hgoes i copy (le_refl i))]
    exact ih fun j copy hj => hgoes j copy (by omega)

end Runs

/-- Every call fails. -/
def brokenSource : Results where
  read _ := none
  write _ := none
  read_le := nofun
  write_lt := nofun
  write_le := nofun

/-- A byte is read and cannot be written, and then the source ends. -/
def fullDestination : Results where
  read i := if i = 0 then some [7] else some []
  write _ := none
  read_le i chunk h := by
    split at h <;> cases h <;> decide
  write_lt := nofun
  write_le := nofun

/-- A source that cannot be read is copied without end; a destination that cannot be written
counts as a copy. -/
theorem errors_not_reported :
    (∀ fuel, copyfile brokenSource true fuel = none) ∧ ¬ Copies brokenSource true ∧
      copyfile fullDestination true 2 = some (true, ⟨[7], [], true⟩) ∧
      ¬ Copies fullDestination true := by
  have hendless (fuel : Nat) : copyfile brokenSource true fuel = none := by
    have hgoes : ∀ j copy, 0 ≤ j → 0 < (pass brokenSource j copy).1 := by
      intro j copy _
      rw [pass_failed rfl]
      change 0 < resultSize none
      decide
    rw [copyfile, copyLoop_endless hgoes fuel]
    rfl
  refine ⟨hendless, ?_, by decide, ?_⟩
  · rintro ⟨fuel, returned, copy, hrun, -⟩
    rw [hendless] at hrun
    cases hrun
  · intro hcopies
    obtain ⟨n, hread, hbefore⟩ := endsAt_of_copies hcopies
    have hn : n ≠ 0 := by
      rintro rfl
      exact absurd hread (by decide)
    have hwrite : fullDestination.write 0 = some 1 := (hbefore 0 (Nat.pos_of_ne_zero hn)).2
    cases hwrite

end EsyncUa.FileDescriptorCopies
