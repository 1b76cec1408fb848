import EsyncUa.Extraction

/-!
What `libzip_unzip` leaves in the files. The copy of an entry goes on until as many bytes are
written as the entry declares, so it stops early, late or never where the decoder gives another
number of bytes.
-/
namespace EsyncUa.ExtractedFiles

open EsyncUa.JsonProperties EsyncUa.Checksums EsyncUa.FilePaths EsyncUa.Extraction
open EsyncUa.FileCopies (BuffSize defaultBuffSize WriteCall)

variable {buff : BuffSize} {calls : UnzipCalls} {dest : Destination} {sb : ZipEntry buff}

/-- The bytes of the first calls of zip_fread. -/
def yielded (d : Decoder buff) : Nat → Bytes
  | 0 => []
  | k + 1 => yielded d k ++ (d.read k).getD []

/-- All bytes that the decoder gives before it ends or fails. -/
def Yields (d : Decoder buff) (bytes : Bytes) : Prop :=
  ∃ n, (∀ j < n, ∃ chunk, d.read j = some chunk ∧ chunk ≠ []) ∧
    (d.read n = none ∨ d.read n = some []) ∧ bytes = yielded d n

/-- The declared size is reached, or the read fails. -/
def StopsAt (sb : ZipEntry buff) (k : Nat) : Prop :=
  ((yielded sb.decoder k).length : Int) = sb.declared ∨ sb.decoder.read k = none

/-- Reading the entry fails before its declared size is reached. -/
def FailsEarly (sb : ZipEntry buff) : Prop :=
  ∃ k, sb.decoder.read k = none ∧
    ∀ j ≤ k, ((yielded sb.decoder j).length : Int) ≠ sb.declared

/-- The decoder gives as many bytes as the entry declares. -/
def Complete (sb : ZipEntry buff) : Prop :=
  ∃ bytes, Yields sb.decoder bytes ∧ (bytes.length : Int) = sb.declared

/-- The last entry whose file has a path. -/
def lastAt (dest : Destination) (p : Path) : List (ZipEntry buff) → Option (ZipEntry buff)
  | [] => none
  | sb :: entries =>
      (lastAt dest p entries).or
        (if isDirectoryName sb.name = false ∧ resolve (join dest.path sb.name) = p then some sb
          else none)

/-- Every extracted file holds what the decoder yields for its entry. -/
def Exact (dest : Destination) (entries : List (ZipEntry buff)) (files : Files Bytes) : Prop :=
  ∀ p sb, lastAt dest p entries = some sb →
    ∃ bytes, files p = some bytes ∧ Yields sb.decoder bytes

/-- The copies come to their ends, and one of them fails at a read or all of those that are not
written over are complete. -/
structure Sound (dest : Destination) (entries : List (ZipEntry buff)) : Prop where
  stops : ∀ sb ∈ entries, isDirectoryName sb.name = false → ∃ k, StopsAt sb k
  whole : (∃ sb ∈ entries, isDirectoryName sb.name = false ∧ FailsEarly sb) ∨
    ∀ p sb, lastAt dest p entries = some sb → Complete sb

/-- A copy that succeeds has stopped where the declared size is reached for the first time. -/
theorem copyLoop_ok {write : Nat → WriteCall} {fuel k : Nat} {out : Bytes}
    (h : copyLoop sb write fuel k (yielded sb.decoder k) = (some eUaOk, out)) :
    ∃ m, k ≤ m ∧ out = yielded sb.decoder m ∧ (out.length : Int) = sb.declared ∧
      ∀ j, k ≤ j → j < m → ¬ StopsAt sb j := by
  induction fuel generalizing k with
  | zero => cases h
  | succ fuel ih =>
      unfold copyLoop at h
      split at h
      · rename_i hsize
        cases h
        exact ⟨k, Nat.le_refl k, rfl, hsize, fun j hkj hjk => absurd hjk (Nat.not_lt.mpr hkj)⟩
      · rename_i hsize
        split at h
        · exact absurd (Option.some.inj (Prod.mk.inj h).1) eUaErr_ne_ok
        · rename_i buf hread
          split at h
          · have hnext : yielded sb.decoder k ++ buf = yielded sb.decoder (k + 1) := by
              rw [yielded, hread, Option.getD_some]
            rw [hnext] at h
            obtain ⟨m, hkm, hout, hlen, hbefore⟩ := ih h
            refine ⟨m, by omega, hout, hlen, fun j hkj hjm => ?_⟩
            rcases Nat.eq_or_lt_of_le hkj with rfl | hlt
            · rintro (hstop | hstop)
              · exact hsize hstop
              · rw [hread] at hstop
                cases hstop
            · exact hbefore j hlt hjm
          · exact absurd (Option.some.inj (Prod.mk.inj h).1) eUaErr_ne_ok

/-- A copy comes to its end if there is a call of zip_fread where it stops, however the writes
end. -/
theorem copyLoop_ends (write : Nat → WriteCall) {n : Nat} (hn : StopsAt sb n) {fuel k : Nat}
    (hkn : k ≤ n) (hfuel : n < fuel + k) :
    ∃ rc out, copyLoop sb write fuel k (yielded sb.decoder k) = (some rc, out) := by
  induction fuel generalizing k with
  | zero => omega
  | succ fuel ih =>
      unfold copyLoop
      split
      · exact ⟨_, _, rfl⟩
      · rename_i hsize
        cases hread : sb.decoder.read k with
        | none => exact ⟨_, _, rfl⟩
        | some buf =>
            cases write k with
            | fails taken => exact ⟨_, _, rfl⟩
            | done =>
                have hne : k ≠ n := by
                  rintro rfl
                  rcases hn with hstop | hstop
                  · exact hsize hstop
                  · rw [hread] at hstop
                    cases hstop
                have hnext : yielded sb.decoder k ++ buf = yielded sb.decoder (k + 1) := by
                  rw [yielded, hread, Option.getD_some]
                simp only [hnext]
                exact ih (by omega) (by omega)

/-- A copy whose writes succeed and that comes to its end has a call where it stops. -/
theorem stops_of_ends {fuel k : Nat} {rc : Rc} {out : Bytes}
    (h : copyLoop sb (fun _ => .done) fuel k (yielded sb.decoder k) = (some rc, out)) :
    ∃ n, k ≤ n ∧ StopsAt sb n ∧ (∀ j, k ≤ j → j < n → ¬ StopsAt sb j) ∧
      (rc ≠ eUaOk → ((yielded sb.decoder n).length : Int) ≠ sb.declared) := by
  induction fuel generalizing k with
  | zero => cases h
  | succ fuel ih =>
      unfold copyLoop at h
      split at h
      · rename_i hsize
        cases h
        exact ⟨k, Nat.le_refl k, .inl hsize, fun j hkj hjk => absurd hjk (Nat.not_lt.mpr hkj),
          fun h => absurd rfl h⟩
      · rename_i hsize
        cases hread : sb.decoder.read k with
        | none =>
            exact ⟨k, Nat.le_refl k, .inr hread,
              fun j hkj hjk => absurd hjk (Nat.not_lt.mpr hkj), fun _ => hsize⟩
        | some buf =>
            have hnext : yielded sb.decoder k ++ buf = yielded sb.decoder (k + 1) := by
              rw [yielded, hread, Option.getD_some]
            simp only [hread, hnext] at h
            obtain ⟨n, hkn, hstop, hbefore, hrc⟩ := ih h
            refine ⟨n, by omega, hstop, fun j hkj hjn => ?_, hrc⟩
            rcases Nat.eq_or_lt_of_le hkj with rfl | hlt
            · rintro (hstop | hstop)
              · exact hsize hstop
              · rw [hread] at hstop
                cases hstop
            · exact hbefore j hlt hjn

theorem yielded_le (d : Decoder buff) {m n : Nat} (h : m ≤ n) :
    (yielded d m).length ≤ (yielded d n).length := by
  induction h with
  | refl => exact Nat.le_refl _
  | step _ ih =>
      rw [yielded, List.length_append]
      omega

theorem yielded_lt (d : Decoder buff) {m n : Nat} (h : m < n) {chunk : Bytes}
    (hread : d.read m = some chunk) (hne : chunk ≠ []) :
    (yielded d m).length < (yielded d n).length := by
  have hstep : (yielded d (m + 1)).length = (yielded d m).length + chunk.length := by
    rw [yielded, hread, List.length_append, Option.getD_some]
  have hpos := List.length_pos_iff.mpr hne
  have hle : (yielded d (m + 1)).length ≤ (yielded d n).length := yielded_le d h
  omega

/-- What a complete entry is stopped with is all that its decoder yields. -/
theorem complete_yields (hcomplete : Complete sb) {m : Nat}
    (hsize : ((yielded sb.decoder m).length : Int) = sb.declared)
    (hbefore : ∀ j < m, ¬ StopsAt sb j) : Yields sb.decoder (yielded sb.decoder m) := by
  obtain ⟨bytes, ⟨n, hchunks, hend, rfl⟩, hlen⟩ := hcomplete
  rcases Nat.lt_trichotomy m n with hlt | rfl | hgt
  · obtain ⟨chunk, hread, hne⟩ := hchunks m hlt
    have hmore := yielded_lt sb.decoder hlt hread hne
    omega
  · exact ⟨m, hchunks, hend, rfl⟩
  · exact absurd (.inl hlen) (hbefore n hgt)

/-- A copy that stops with all the decoder yields shows that the entry is complete. -/
theorem not_early_of_ok {m : Nat} (hsize : ((yielded sb.decoder m).length : Int) = sb.declared)
    (hbefore : ∀ j < m, ¬ StopsAt sb j) : ¬ FailsEarly sb := by
  rintro ⟨k, hread, hearly⟩
  rcases Nat.lt_or_ge k m with hlt | hge
  · exact hbefore k hlt (.inr hread)
  · exact hearly m hge hsize

/-- Without an early failure the copy stops where the declared size is reached. -/
theorem size_of_not_early (hearly : ¬ FailsEarly sb) {n : Nat} (hstop : StopsAt sb n)
    (hbefore : ∀ j < n, ¬ StopsAt sb j) :
    ((yielded sb.decoder n).length : Int) = sb.declared := by
  rcases hstop with hsize | hread
  · exact hsize
  · by_contra hne
    refine hearly ⟨n, hread, fun j hj hsize => ?_⟩
    rcases Nat.eq_or_lt_of_le hj with rfl | hlt
    · exact hne hsize
    · exact hbefore j hlt (.inl hsize)

theorem mkdirs_files (i : Nat) (p : Path) (cs : List Component) (s : UnzipState) :
    (mkdirs calls i p cs s).2.files = s.files := by
  induction cs generalizing p s with
  | nil => rfl
  | cons c cs ih =>
      unfold mkdirs
      split
      · exact ih _ s
      · split
        · exact ih _ ⟨s.files, _⟩
        · rfl

theorem chkdirp_files (calls : UnzipCalls) (i : Nat) (path : String) (s : UnzipState) :
    (chkdirp calls i path s).2.files = s.files := by
  unfold chkdirp
  split
  · rfl
  · exact mkdirs_files i _ _ s

/-- What one entry leaves: nothing but the file at its path is written. -/
theorem extractEntry_files {fuel i : Nat} {s s' : UnzipState} {rc : Rc}
    (h : extractEntry fuel calls dest i sb s = (.ok rc, s')) :
    (isDirectoryName sb.name = true → rc = eUaOk ∧ s'.files = s.files) ∧
      (isDirectoryName sb.name = false →
        ∃ out, copyLoop sb (calls.write i) fuel 0 [] = (some rc, out) ∧
          s'.files = write s.files (resolve (join dest.path sb.name)) (some out)) := by
  unfold extractEntry at h
  split at h
  · cases h
  · split at h
    · rename_i hdirectory
      have hmade : (mkdirp calls i (join dest.path sb.name) s).2.files = s.files :=
        mkdirs_files i _ _ s
      refine ⟨fun _ => ?_, fun hfile => absurd hdirectory (by simp [hfile])⟩
      unfold extractDirectory at h
      split at h
      · cases h
      · rename_i hmkdir
        rw [hmkdir] at hmade
        cases h
        exact ⟨rfl, hmade⟩
    · rename_i hfile
      have hmade := chkdirp_files calls i (join dest.path sb.name) s
      refine ⟨fun hdirectory => absurd hdirectory hfile, fun _ => ?_⟩
      unfold extractFile at h
      split at h
      · cases h
      · split at h
        · rename_i hchkdir
          rw [hchkdir] at hmade
          split at h
          · unfold copyEntry at h
            obtain ⟨hcopy, rfl⟩ := Prod.mk.inj h
            refine ⟨(copyLoop sb (calls.write i) fuel 0 []).2, ?_, by rw [← hmade]⟩
            cases hrc : (copyLoop sb (calls.write i) fuel 0 []).1 with
            | none =>
                simp only [hrc] at hcopy
                cases hcopy
            | some rc' =>
                simp only [hrc] at hcopy
                cases hcopy
                rw [← hrc]
          · cases h
        · cases h

/-- What ends the loop over the entries is no success. -/
theorem extractEntry_error {fuel i : Nat} {s s' : UnzipState} {ended : Option Rc}
    (h : extractEntry fuel calls dest i sb s = (.error ended, s')) : ended ≠ some eUaOk := by
  have herr : some eUaErr ≠ some eUaOk := by decide
  have hsys : some eUaSys ≠ some eUaOk := by decide
  unfold extractEntry at h
  split at h
  · cases h
    exact herr
  · split at h
    · unfold extractDirectory at h
      split at h
      · cases h
        exact hsys
      · cases h
    · unfold extractFile at h
      split at h
      · cases h
        exact herr
      · split at h
        · split at h
          · unfold copyEntry at h
            simp only at h
            split at h
            · cases h
              intro hnone
              cases hnone
            · cases h
          · cases h
            exact hsys
        · cases h
          exact hsys

/-- The file that the copies leave at a path: that of the last entry with the path, or what was
there. -/
def LeftAt (fuel : Nat) (before after : Option Bytes) : Option (ZipEntry buff) → Prop
  | none => after = before
  | some sb => ∃ write out, copyLoop sb write fuel 0 [] = (some eUaOk, out) ∧ after = some out

/-- An extraction that succeeds has copied every file, and the last copy to a path is there. -/
theorem extract_ok {fuel i : Nat} {entries : List (ZipEntry buff)} {err : Rc}
    {s s' : UnzipState}
    (h : extract fuel calls dest i entries err s = (some eUaOk, s')) :
    err = eUaOk ∧
      (∀ sb ∈ entries, isDirectoryName sb.name = false → ∃ write out,
        copyLoop sb write fuel 0 [] = (some eUaOk, out)) ∧
      ∀ p, LeftAt fuel (s.files p) (s'.files p) (lastAt dest p entries) := by
  induction entries generalizing i err s with
  | nil =>
      cases h
      exact ⟨rfl, by simp, fun p => rfl⟩
  | cons sb entries ih =>
      unfold extract at h
      split at h
      · rename_i ended s₁ hentry
        exact absurd (Prod.mk.inj h).1 (extractEntry_error hentry)
      · rename_i rc s₁ hentry
        obtain ⟨hdirectory, hfile⟩ := extractEntry_files hentry
        obtain ⟨herr, hcopied, hleft⟩ := ih h
        have hrc : rc = eUaOk := by
          split at herr
          · assumption
          · exact herr
        subst hrc
        rw [if_pos rfl] at herr
        cases hname : isDirectoryName sb.name with
        | true =>
            refine ⟨herr, fun sb' hsb' hsb'file => ?_, fun p => ?_⟩
            · rcases List.mem_cons.mp hsb' with rfl | hmem
              · rw [hname] at hsb'file
                cases hsb'file
              · exact hcopied sb' hmem hsb'file
            · have hp := hleft p
              rw [(hdirectory hname).2] at hp
              simpa [lastAt, hname] using hp
        | false =>
            obtain ⟨out, hcopy, hfiles⟩ := hfile hname
            refine ⟨herr, fun sb' hsb' hsb'file => ?_, fun p => ?_⟩
            · rcases List.mem_cons.mp hsb' with rfl | hmem
              · exact ⟨_, out, hcopy⟩
              · exact hcopied sb' hmem hsb'file
            · have hp := hleft p
              rw [hfiles] at hp
              unfold lastAt
              cases hlast : lastAt dest p entries with
              | some sb' =>
                  rw [hlast] at hp
                  exact hp
              | none =>
                  rw [hlast] at hp
                  by_cases hat : resolve (join dest.path sb.name) = p
                  · subst hat
                    rw [if_pos ⟨hname, rfl⟩, Option.none_or]
                    exact ⟨_, out, hcopy, hp.trans (write_self _ _ _)⟩
                  · rw [if_neg fun h => hat h.2, Option.none_or]
                    exact hp.trans (write_other (fun heq => hat heq.symm) _)

/-- The extraction comes to its end if every copy has a call of zip_fread where it stops. -/
theorem extract_ends (calls : UnzipCalls) (dest : Destination) (i : Nat) {fuel : Nat}
    {entries : List (ZipEntry buff)} (err : Rc) (s : UnzipState)
    (h : ∀ sb ∈ entries, isDirectoryName sb.name = false → ∃ n, StopsAt sb n ∧ n < fuel) :
    ∃ rc s', extract fuel calls dest i entries err s = (some rc, s') := by
  induction entries generalizing i err s with
  | nil => exact ⟨err, s, rfl⟩
  | cons sb entries ih =>
      unfold extract
      split
      · rename_i ended s₁ hentry
        cases ended with
        | some rc => exact ⟨rc, s₁, rfl⟩
        | none =>
            -- only a copy that has not come to its end gives no result
            exfalso
            unfold extractEntry at hentry
            split at hentry
            · cases hentry
            · split at hentry
              · unfold extractDirectory at hentry
                split at hentry
                · cases hentry
                · cases hentry
              · rename_i hfile
                unfold extractFile at hentry
                split at hentry
                · cases hentry
                · split at hentry
                  · split at hentry
                    · obtain ⟨n, hstop, hn⟩ := h sb List.mem_cons_self (by simpa using hfile)
                      obtain ⟨rc, out, hcopy⟩ := copyLoop_ends (calls.write i) hstop
                        (Nat.zero_le n) hn
                      unfold copyEntry at hentry
                      rw [yielded] at hcopy
                      rw [hcopy] at hentry
                      cases hentry
                    · cases hentry
                  · cases hentry
      · exact ih _ _ _ fun sb' hsb' => h sb' (List.mem_cons_of_mem _ hsb')

/-- The calls of a run in which nothing but a read can fail. -/
def allSucceed : UnzipCalls where
  zipOpen := true
  zipStatIndex := fun _ => true
  zipFopenIndex := fun _ => true
  isDirectory := fun _ _ => false
  mkdir := fun _ _ => .done
  openFile := fun _ => true
  write := fun _ _ => .done
  zipClose := true

theorem mkdirs_succeed (i : Nat) (p : Path) (cs : List Component) (s : UnzipState) :
    (mkdirs allSucceed i p cs s).1 = .done := by
  induction cs generalizing p s with
  | nil => rfl
  | cons c cs ih => exact ih _ _

/-- In such a run every entry is extracted. -/
theorem extractEntry_succeed (dest : Destination) (fuel i : Nat) (sb : ZipEntry buff)
    (s : UnzipState) :
    (extractEntry fuel allSucceed dest i sb s).1 =
      if isDirectoryName sb.name then .ok eUaOk
      else match (copyLoop sb (fun _ => .done) fuel 0 []).1 with
        | none => .error none
        | some rc => .ok rc := by
  unfold extractEntry
  rw [if_neg (by simp [allSucceed])]
  split
  · have hdone : (mkdirp allSucceed i (join dest.path sb.name) s).1 = .done :=
      mkdirs_succeed i _ _ s
    unfold extractDirectory
    split
    · rename_i hmkdir
      rw [hmkdir] at hdone
      cases hdone
    · rfl
  · have hdone : (chkdirp allSucceed i (join dest.path sb.name) s).1 = .done := by
      unfold chkdirp
      split
      · rfl
      · exact mkdirs_succeed i _ _ s
    unfold extractFile
    rw [if_neg (by simp [allSucceed])]
    split
    · rw [if_pos (by simp [allSucceed])]
      rfl
    · rename_i hfails hchkdir
      rw [hchkdir] at hdone
      exact absurd hdone (by simpa using hfails)

/-- If such a run ends, every copy has a call where it stops, and if no read fails before that
the run succeeds. -/
theorem extract_succeed {fuel i : Nat} {entries : List (ZipEntry buff)} {err rc : Rc}
    {s s' : UnzipState}
    (h : extract fuel allSucceed dest i entries err s = (some rc, s')) :
    (∀ sb ∈ entries, isDirectoryName sb.name = false → ∃ n, StopsAt sb n) ∧
      ((∀ sb ∈ entries, isDirectoryName sb.name = false → ¬ FailsEarly sb) → rc = err) := by
  induction entries generalizing i err s with
  | nil =>
      cases h
      exact ⟨by simp, fun _ => rfl⟩
  | cons sb entries ih =>
      have hentry := extractEntry_succeed dest fuel i sb s
      unfold extract at h
      cases hname : isDirectoryName sb.name with
      | true =>
          rw [hname, if_pos rfl] at hentry
          split at h
          · rename_i hstep
            rw [hstep] at hentry
            cases hentry
          · rename_i hstep
            rw [hstep] at hentry
            cases hentry
            rw [if_pos rfl] at h
            obtain ⟨hstops, hok⟩ := ih h
            refine ⟨fun sb' hsb' hfile => ?_, fun hearly =>
              hok fun sb' hsb' => hearly sb' (List.mem_cons_of_mem _ hsb')⟩
            rcases List.mem_cons.mp hsb' with rfl | hmem
            · rw [hname] at hfile
              cases hfile
            · exact hstops sb' hmem hfile
      | false =>
          rw [hname, if_neg (by decide)] at hentry
          cases hcopy : copyLoop sb (fun _ => .done) fuel 0 [] with
          | mk copied out =>
              rw [hcopy] at hentry
              cases copied with
              | none =>
                  split at h
                  · rename_i hstep
                    rw [hstep] at hentry
                    cases hentry
                    cases h
                  · rename_i hstep
                    rw [hstep] at hentry
                    cases hentry
              | some copied =>
                  obtain ⟨n, _, hstop, hbefore, hsize⟩ := stops_of_ends hcopy
                  split at h
                  · rename_i hstep
                    rw [hstep] at hentry
                    cases hentry
                  · rename_i hstep
                    rw [hstep] at hentry
                    cases hentry
                    obtain ⟨hstops, hok⟩ := ih h
                    refine ⟨fun sb' hsb' hfile => ?_, fun hearly => ?_⟩
                    · rcases List.mem_cons.mp hsb' with rfl | hmem
                      · exact ⟨n, hstop⟩
                      · exact hstops sb' hmem hfile
                    · have hfirst := size_of_not_early (hearly sb List.mem_cons_self hname) hstop
                        fun j hj => hbefore j (Nat.zero_le j) hj
                      have hcopied : copied = eUaOk := by
                        by_contra hne
                        exact hsize hne hfirst
                      rw [hok fun sb' hsb' => hearly sb' (List.mem_cons_of_mem _ hsb'),
                        if_pos hcopied]

/-- For all entries together there is a number of reads that is enough for each. -/
theorem exists_fuel {entries : List (ZipEntry buff)}
    (h : ∀ sb ∈ entries, isDirectoryName sb.name = false → ∃ n, StopsAt sb n) :
    ∃ fuel, ∀ sb ∈ entries, isDirectoryName sb.name = false → ∃ n, StopsAt sb n ∧ n < fuel := by
  induction entries with
  | nil => exact ⟨0, by simp⟩
  | cons sb entries ih =>
      obtain ⟨fuel, hfuel⟩ := ih fun sb' hsb' => h sb' (List.mem_cons_of_mem _ hsb')
      by_cases hfile : isDirectoryName sb.name = false
      · obtain ⟨n, hn⟩ := h sb List.mem_cons_self hfile
        refine ⟨max fuel (n + 1), fun sb' hsb' hfile' => ?_⟩
        rcases List.mem_cons.mp hsb' with rfl | hmem
        · exact ⟨n, hn, by omega⟩
        · obtain ⟨m, hm, hlt⟩ := hfuel sb' hmem hfile'
          exact ⟨m, hm, by omega⟩
      · refine ⟨fuel, fun sb' hsb' hfile' => ?_⟩
        rcases List.mem_cons.mp hsb' with rfl | hmem
        · exact absurd hfile' hfile
        · exact hfuel sb' hmem hfile'

/-- A successful extraction of a sound archive leaves what the decoders yield. -/
theorem exact_of_ok {fuel : Nat} {entries : List (ZipEntry buff)} {files : Files Bytes}
    {s' : UnzipState} (hsound : Sound dest entries)
    (h : libzipUnzip fuel calls dest entries files = (some eUaOk, s')) :
    Exact dest entries s'.files := by
  unfold libzipUnzip at h
  split at h
  · exact absurd (Option.some.inj (Prod.mk.inj h).1) eUaErr_ne_ok
  · split at h
    · rename_i rc s₁ hrun
      obtain ⟨hrc, rfl⟩ := Prod.mk.inj h
      have hok : rc = eUaOk := by
        split at hrc
        · exact Option.some.inj hrc
        · exact absurd (Option.some.inj hrc) eUaErr_ne_ok
      subst hok
      obtain ⟨_, hcopied, hleft⟩ := extract_ok hrun
      have hcomplete : ∀ p sb, lastAt dest p entries = some sb → Complete sb := by
        rcases hsound.whole with ⟨sb, hsb, hfile, hearly⟩ | hwhole
        · obtain ⟨write, out, hcopy⟩ := hcopied sb hsb hfile
          obtain ⟨m, _, rfl, hsize, hbefore⟩ := copyLoop_ok (k := 0) hcopy
          exact absurd hearly (not_early_of_ok hsize fun j hj => hbefore j (Nat.zero_le j) hj)
        · exact hwhole
      intro p sb hlast
      have hp := hleft p
      rw [hlast] at hp
      obtain ⟨write, out, hcopy, hfile⟩ := hp
      obtain ⟨m, _, rfl, hsize, hbefore⟩ := copyLoop_ok (k := 0) hcopy
      exact ⟨_, hfile, complete_yields (hcomplete p sb hlast) hsize
        fun j hj => hbefore j (Nat.zero_le j) hj⟩
    · cases h

/-- The extraction comes to its end with what the decoders yield, whatever the other calls
answer, exactly if the archive is sound. -/
theorem extracts_iff (dest : Destination) (entries : List (ZipEntry buff)) :
    (∀ calls files, ∃ fuel rc s', libzipUnzip fuel calls dest entries files = (some rc, s') ∧
      (rc = eUaOk → Exact dest entries s'.files)) ↔ Sound dest entries := by
  constructor
  · intro h
    obtain ⟨fuel, rc, s', hrun, hexact⟩ := h allSucceed fun _ => none
    unfold libzipUnzip at hrun
    rw [if_neg (by simp [allSucceed])] at hrun
    split at hrun
    · rename_i rc' s₁ hext
      rw [if_pos (show allSucceed.zipClose = true from rfl)] at hrun
      cases hrun
      obtain ⟨hstops, hok⟩ := extract_succeed hext
      refine ⟨hstops, ?_⟩
      by_cases hearly : ∃ sb ∈ entries, isDirectoryName sb.name = false ∧ FailsEarly sb
      · exact .inl hearly
      · right
        have hrc := hok fun sb hsb hfile hfails => hearly ⟨sb, hsb, hfile, hfails⟩
        subst hrc
        obtain ⟨_, _, hleft⟩ := extract_ok hext
        intro p sb hlast
        have hp := hleft p
        rw [hlast] at hp
        obtain ⟨write, out, hcopy, hfile⟩ := hp
        obtain ⟨m, _, rfl, hsize, _⟩ := copyLoop_ok (k := 0) hcopy
        obtain ⟨bytes, hbytes, hyields⟩ := hexact rfl p sb hlast
        rw [hfile] at hbytes
        cases hbytes
        exact ⟨_, hyields, hsize⟩
    · cases hrun
  · intro hsound calls files
    obtain ⟨fuel, hfuel⟩ := exists_fuel hsound.stops
    obtain ⟨rc, s', hrun⟩ := extract_ends calls dest 0 eUaOk ⟨files, []⟩ hfuel
    cases hopen : calls.zipOpen with
    | false =>
        exact ⟨fuel, eUaErr, ⟨files, []⟩, by simp [libzipUnzip, hopen],
          fun h => absurd h (by decide)⟩
    | true =>
        have hall : libzipUnzip fuel calls dest entries files =
            (some (if calls.zipClose then rc else eUaErr), s') := by
          simp [libzipUnzip, hopen, hrun]
        refine ⟨fuel, _, s', hall, fun hok => ?_⟩
        rw [hok] at hall
        exact exact_of_ok hsound hall

/-- A decoder that gives three bytes. -/
def threeBytes : Decoder defaultBuffSize where
  read := fun i => if i = 0 then some [1, 2, 3] else some []
  fits := by
    intro i bytes h
    split at h <;> cases h <;> decide
  ended := by
    intro i h
    rfl

/-- An entry that declares five bytes and has three: the copy never ends. -/
theorem short_entry_hangs :
    ¬ ∀ (buff : BuffSize) (dest : Destination) (entries : List (ZipEntry buff))
      (calls : UnzipCalls) (files : Files Bytes),
      ∃ fuel rc s', libzipUnzip fuel calls dest entries files = (some rc, s') ∧
        (rc = eUaOk → Exact dest entries s'.files) := by
  intro h
  obtain ⟨fuel, rc, s', hrun, _⟩ := h defaultBuffSize ⟨"/ca", by decide⟩
    [⟨"f", 5, threeBytes⟩] allSucceed fun _ => none
  unfold libzipUnzip at hrun
  rw [if_neg (by simp [allSucceed])] at hrun
  have hshort : ∀ n, (yielded threeBytes n).length ≤ 3 := by
    intro n
    cases n with
    | zero => exact Nat.zero_le _
    | succ n =>
        induction n with
        | zero => exact Nat.le_refl _
        | succ n ih => simpa [yielded, threeBytes] using ih
  split at hrun
  · rename_i hext
    obtain ⟨n, hsize | hread⟩ := (extract_succeed hext).1 _ List.mem_cons_self (by decide)
    · have hdeclared : (⟨"f", 5, threeBytes⟩ : ZipEntry defaultBuffSize).declared = 5 := by decide
      have hn := hshort n
      rw [hdeclared] at hsize
      change ((yielded threeBytes n).length : Int) = 5 at hsize
      omega
    · simp only [threeBytes] at hread
      split at hread <;> cases hread
  · cases hrun

end EsyncUa.ExtractedFiles
