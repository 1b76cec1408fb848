import EsyncUa.Deltas
import EsyncUa.RunMerging

/-!
The digest of a package that does not depend on the order of its files.
`calc_sha256_x` hashes the name and the content of each file, sorts these digests and hashes
them once more. What libzip and OpenSSL do is not its own: an archive says how each call on it
ends, and the hash is any function.
-/
namespace EsyncUa.PackageDigests

open EsyncUa.JsonProperties EsyncUa.Components EsyncUa.Checksums EsyncUa.RunMerging

def sha256DigestLength : Nat := 32

abbrev Digest : Type := { d : Bytes // d.length = sha256DigestLength }

def base64Chars : List Char :=
  "ABCDEFGHIJKLMNOPQRSTUVWXYZabcdefghijklmnopqrstuvwxyz0123456789+/=".toList

/-- The text of a digest. -/
structure DigestB64 where
  val : String
  size : val.utf8ByteSize = sha256B64Length - 1
  base64 : val.toList.all base64Chars.contains
  deriving DecidableEq

def DigestB64.toSha256B64 (d : DigestB64) : Sha256B64 := ⟨d.val, by rw [d.size]; decide⟩

/-- What is used of OpenSSL. -/
structure Openssl where
  sha256 : Bytes → Digest
  base64 : Digest → DigestB64

/-- An entry of an archive and how the calls of libzip on it end. `zipFread pos n` is the read
of at most `n` bytes at `pos`, `none` where it fails. -/
structure ZipEntry where
  name : Bytes
  content : Bytes
  zipStatIndex : Bool
  zipFopenIndex : Bool
  zipFread : Nat → Nat → Option Bytes

/-- An archive that zip_open has opened, and whether it is closed and its digest encoded. -/
structure ZipArchive where
  entries : List ZipEntry
  zipClose : Bool
  base64Encode : Bool

def ascii (s : String) : Bytes := s.toList.map fun c => c.toNat.toUInt8

def xl4XPrefix : String := "xl4-x-"
def xl4SignaturePrefix : String := "xl4-signature"

/-- The name of a directory ends in a slash; an empty name has no last character. -/
def isDirectory (name : Bytes) : Bool := name.getLast? = some 47

def isSkipped (name : Bytes) : Bool :=
  name = ascii Deltas.manifest || name = ascii Deltas.manifestDiff ||
    (ascii xl4XPrefix).isPrefixOf name || (ascii xl4SignaturePrefix).isPrefixOf name

/-- sha256cmp is memcmp. -/
def sha256cmp (a b : Digest) : Bool := (compare a.val b.val).isLE

/-- The loop of zip_fread: what has been read, and whether the last call succeeded. It goes on
while the buffer is filled, `fuel` times at most. -/
def readLoop (zipFread : Nat → Nat → Option Bytes) (rwBuffSize : Nat) :
    Nat → Bytes → Option (Bytes × Bool)
  | 0, _ => none
  | fuel + 1, got =>
      match zipFread got.length rwBuffSize with
      | none => some (got, false)
      | some buf =>
          if buf.length = rwBuffSize then readLoop zipFread rwBuffSize fuel (got ++ buf)
          else some (got ++ buf, true)

/-- What calc_sha256_x returns, and the text it has put into the buffer. -/
structure Calculated where
  err : Rc
  obuff : Option DigestB64
  deriving DecidableEq

section Calculation

variable (ssl : Openssl) (rwBuffSize fuel : Nat)

/-- The loop over the entries of the archive. A failing read does not end it. -/
def hashEntries : List ZipEntry → Rc → List Digest → Option (Rc × List Digest)
  | [], err, sha256List => some (err, sha256List)
  | sb :: entries, err, sha256List =>
      if !sb.zipStatIndex then some (eUaErr, sha256List)
      else if isDirectory sb.name then hashEntries entries err sha256List
      else if isSkipped sb.name then hashEntries entries err sha256List
      else if !sb.zipFopenIndex then some (eUaErr, sha256List)
      else
        match readLoop sb.zipFread rwBuffSize fuel [] with
        | none => none
        | some read =>
            hashEntries entries (if read.2 then err else eUaErr)
              (sha256List ++ [ssl.sha256 (sb.name ++ read.1)])

/-- Sorted digests behind each other. -/
def digestText (sha256List : List Digest) : Bytes :=
  ((llSort sha256cmp sha256List).map Subtype.val).flatten

def combined (sha256List : List Digest) : Digest := ssl.sha256 (digestText sha256List)

/-- What follows the loop; a failing zip_close comes after the text has been written. -/
def finishDigest (za : ZipArchive) (hashed : Rc × List Digest) : Calculated :=
  let encoded : Calculated :=
    if hashed.1 ≠ eUaOk then ⟨hashed.1, none⟩
    else if za.base64Encode then ⟨eUaOk, some (ssl.base64 (combined ssl hashed.2))⟩
    else ⟨eUaErr, none⟩
  if za.zipClose then encoded else { encoded with err := eUaErr }

/-- calc_sha256_x; `none` is a loop that has not come to its end. -/
def calcSha256X : Option ZipArchive → Option Calculated
  | none => some ⟨eUaErr, none⟩
  | some za =>
      (hashEntries ssl rwBuffSize fuel za.entries eUaOk []).map (finishDigest ssl za)

end Calculation

section Contents

/-- An entry that is hashed. -/
def ZipEntry.isFile (sb : ZipEntry) : Bool := !isDirectory sb.name && !isSkipped sb.name

/-- The names and contents that the digest is about. -/
def ZipArchive.files (za : ZipArchive) : List (Bytes × Bytes) :=
  (za.entries.filter ZipEntry.isFile).map fun sb => (sb.name, sb.content)

/-- A read that succeeds fills the buffer unless it reaches the end of the entry. -/
def ZipEntry.Fills (sb : ZipEntry) : Prop :=
  ∀ pos n buf, sb.zipFread pos n = some buf → buf = (sb.content.drop pos).take n

def ZipArchive.Fills (za : ZipArchive) : Prop := ∀ sb ∈ za.entries, sb.Fills

/-- No call on the entry fails. -/
def ZipEntry.Works (sb : ZipEntry) : Prop :=
  sb.zipStatIndex ∧ sb.zipFopenIndex ∧ ∀ pos n, (sb.zipFread pos n).isSome

/-- No call on the archive fails. -/
def ZipArchive.Works (za : ZipArchive) : Prop :=
  (∀ sb ∈ za.entries, sb.Works) ∧ za.zipClose ∧ za.base64Encode

variable (ssl : Openssl)

def fileDigest (file : Bytes × Bytes) : Digest := ssl.sha256 (file.1 ++ file.2)

/-- The digests of all files in ascending order, behind each other. -/
def contentsText (files : List (Bytes × Bytes)) : Bytes :=
  ((files.map fun file => (fileDigest ssl file).val).insertionSort (· ≤ ·)).flatten

/-- The digest of names and contents. -/
def contentsDigest (files : List (Bytes × Bytes)) : DigestB64 :=
  ssl.base64 (ssl.sha256 (contentsText ssl files))

/-- From some number of reads on, the call returns, with this digest if it succeeds, and it
succeeds if no call on the archive fails. -/
def Computes (rwBuffSize : Nat) (za : ZipArchive) (digest : DigestB64) : Prop :=
  ∃ bound result,
    (∀ fuel, bound ≤ fuel → calcSha256X ssl rwBuffSize fuel (some za) = some result) ∧
    (result.err = eUaOk → result.obuff = some digest) ∧ (za.Works → result.err = eUaOk)

end Contents

section Reading

variable {rwBuffSize : Nat}

/-- What is read next continues what has been read. -/
theorem read_append {sb : ZipEntry} (hfills : sb.Fills) {got buf : Bytes}
    (hgot : got = sb.content.take got.length)
    (hread : sb.zipFread got.length rwBuffSize = some buf) :
    got ++ buf = sb.content.take (got.length + rwBuffSize) := by
  rw [List.take_add, ← hgot, hfills _ _ _ hread]

/-- The loop only ends without a failure when the whole content has been read. -/
theorem readLoop_whole {sb : ZipEntry} (hfills : sb.Fills) {fuel : Nat} {got : Bytes}
    (hgot : got = sb.content.take got.length) {read : Bytes × Bool}
    (h : readLoop sb.zipFread rwBuffSize fuel got = some read) (hok : read.2 = true) :
    read.1 = sb.content := by
  induction fuel generalizing got with
  | zero => cases h
  | succ fuel ih =>
      unfold readLoop at h
      cases hread : sb.zipFread got.length rwBuffSize with
      | none =>
          simp only [hread, Option.some.injEq] at h
          rw [← h] at hok
          cases hok
      | some buf =>
          have hnext := read_append hfills hgot hread
          simp only [hread] at h
          split at h
          · rename_i hfull
            apply ih _ h
            rw [List.length_append, hfull]
            exact hnext
          · rename_i hshort
            cases h
            rw [hnext]
            apply List.take_of_length_le
            have hlen := congrArg List.length (hfills _ _ _ hread)
            rw [List.length_take, List.length_drop] at hlen
            omega

/-- Each read that fills the buffer gets on, so the loop ends. -/
theorem readLoop_ends {sb : ZipEntry} (hfills : sb.Fills) (hsize : 0 < rwBuffSize) {fuel : Nat}
    {got : Bytes} (hgot : got = sb.content.take got.length)
    (hfuel : sb.content.length < got.length + fuel) :
    ∃ read, readLoop sb.zipFread rwBuffSize fuel got = some read ∧
      ((∀ pos n, (sb.zipFread pos n).isSome) → read.2 = true) := by
  induction fuel generalizing got with
  | zero =>
      have hlen := congrArg List.length hgot
      rw [List.length_take] at hlen
      omega
  | succ fuel ih =>
      unfold readLoop
      cases hread : sb.zipFread got.length rwBuffSize with
      | none =>
          refine ⟨(got, false), rfl, ?_⟩
          intro hworks
          have hsome := hworks got.length rwBuffSize
          rw [hread] at hsome
          cases hsome
      | some buf =>
          simp only
          split
          · rename_i hfull
            apply ih
            · rw [List.length_append, hfull]
              exact read_append hfills hgot hread
            · rw [List.length_append, hfull]
              omega
          · exact ⟨_, rfl, fun _ => rfl⟩

theorem readLoop_mono {zipFread : Nat → Nat → Option Bytes} {fuel fuel' : Nat}
    (hle : fuel ≤ fuel') {got : Bytes} {read : Bytes × Bool}
    (h : readLoop zipFread rwBuffSize fuel got = some read) :
    readLoop zipFread rwBuffSize fuel' got = some read := by
  induction fuel generalizing fuel' got with
  | zero => cases h
  | succ fuel ih =>
      obtain ⟨k, rfl⟩ : ∃ k, fuel' = k + 1 := ⟨fuel' - 1, by omega⟩
      unfold readLoop at h ⊢
      split <;> rename_i hread <;> simp only [hread] at h
      · exact h
      · split <;> rename_i hfull
        · rw [if_pos hfull] at h
          exact ih (by omega) h
        · rwa [if_neg hfull] at h

variable (ssl : Openssl)

/-- An entry that is not a file is passed over. -/
theorem hashEntries_skip {fuel : Nat} {sb : ZipEntry} (hstat : sb.zipStatIndex = true)
    (hfile : sb.isFile = false) (entries : List ZipEntry) (err : Rc) (list : List Digest) :
    hashEntries ssl rwBuffSize fuel (sb :: entries) err list =
      hashEntries ssl rwBuffSize fuel entries err list := by
  rw [hashEntries]
  simp only [hstat, Bool.not_true, Bool.false_eq_true, if_false]
  simp only [ZipEntry.isFile, Bool.and_eq_false_iff, Bool.not_eq_false'] at hfile
  rcases hfile with hdir | hskip
  · rw [if_pos hdir]
  · rw [if_pos hskip, ite_self]

theorem hashEntries_file {fuel : Nat} {sb : ZipEntry} (hstat : sb.zipStatIndex = true)
    (hfile : sb.isFile = true) (entries : List ZipEntry) (err : Rc) (list : List Digest) :
    hashEntries ssl rwBuffSize fuel (sb :: entries) err list =
      if !sb.zipFopenIndex then some (eUaErr, list)
      else
        (readLoop sb.zipFread rwBuffSize fuel []).bind fun read =>
          hashEntries ssl rwBuffSize fuel entries (if read.2 then err else eUaErr)
            (list ++ [ssl.sha256 (sb.name ++ read.1)]) := by
  simp only [ZipEntry.isFile, Bool.and_eq_true, Bool.not_eq_true'] at hfile
  rw [hashEntries]
  simp only [hstat, hfile.1, hfile.2, Bool.not_true, Bool.false_eq_true, if_false]
  cases readLoop sb.zipFread rwBuffSize fuel [] <;> rfl

/-- A success of the loop over the entries has digests of whole files only. -/
theorem hashEntries_ok {fuel : Nat} {entries : List ZipEntry}
    (hfills : ∀ sb ∈ entries, sb.Fills) {err : Rc} {list list' : List Digest}
    (h : hashEntries ssl rwBuffSize fuel entries err list = some (eUaOk, list')) :
    err = eUaOk ∧ list' = list ++ (entries.filter ZipEntry.isFile).map fun sb =>
      fileDigest ssl (sb.name, sb.content) := by
  induction entries generalizing err list with
  | nil =>
      cases h
      exact ⟨rfl, (List.append_nil _).symm⟩
  | cons sb entries ih =>
      have hfills' : ∀ e ∈ entries, e.Fills := fun e he => hfills e (List.mem_cons_of_mem _ he)
      cases hstat : sb.zipStatIndex with
      | false =>
          rw [hashEntries] at h
          simp only [hstat, Bool.not_false, if_true, Option.some.injEq, Prod.mk.injEq] at h
          exact absurd h.1 (by decide)
      | true =>
          cases hfile : sb.isFile with
          | false =>
              rw [hashEntries_skip ssl hstat hfile] at h
              rw [List.filter_cons_of_neg (by simp [hfile])]
              exact ih hfills' h
          | true =>
              rw [hashEntries_file ssl hstat hfile] at h
              split at h
              · simp only [Option.some.injEq, Prod.mk.injEq] at h
                exact absurd h.1 (by decide)
              · obtain ⟨read, hread, h⟩ := Option.bind_eq_some_iff.mp h
                obtain ⟨herr, hlist⟩ := ih hfills' h
                split at herr
                · rename_i hok
                  refine ⟨herr, ?_⟩
                  have hwhole := readLoop_whole (hfills sb List.mem_cons_self) rfl hread hok
                  rw [hlist, hwhole, List.filter_cons_of_pos hfile, List.map_cons,
                    List.append_assoc]
                  rfl
                · exact absurd herr (by decide)

theorem contents_bounded (entries : List ZipEntry) :
    ∃ bound, ∀ sb ∈ entries, sb.content.length < bound := by
  induction entries with
  | nil => exact ⟨0, by simp⟩
  | cons sb entries ih =>
      obtain ⟨bound, hbound⟩ := ih
      refine ⟨bound + sb.content.length + 1, ?_⟩
      intro e he
      rcases List.mem_cons.mp he with rfl | he
      · omega
      · have hlt := hbound e he
        omega

/-- The loop over the entries ends, and only a failing call makes it fail. -/
theorem hashEntries_ends {bound : Nat} {entries : List ZipEntry} (hsize : 0 < rwBuffSize)
    (hfills : ∀ sb ∈ entries, sb.Fills)
    (hbound : ∀ sb ∈ entries, sb.content.length < bound) (err : Rc) (list : List Digest) :
    ∃ hashed, (∀ fuel, bound ≤ fuel →
        hashEntries ssl rwBuffSize fuel entries err list = some hashed) ∧
      ((∀ sb ∈ entries, sb.Works) → hashed.1 = err) := by
  induction entries generalizing err list with
  | nil => exact ⟨(err, list), fun _ _ => rfl, fun _ => rfl⟩
  | cons sb entries ih =>
      have ih' := ih (fun e he => hfills e (List.mem_cons_of_mem _ he))
        (fun e he => hbound e (List.mem_cons_of_mem _ he))
      have hworks' : (∀ e ∈ sb :: entries, e.Works) → ∀ e ∈ entries, e.Works :=
        fun hworks e he => hworks e (List.mem_cons_of_mem _ he)
      cases hstat : sb.zipStatIndex with
      | false =>
          refine ⟨(eUaErr, list), ?_, ?_⟩
          · intro fuel _
            rw [hashEntries]
            simp [hstat]
          · intro hworks
            have hcall := (hworks sb List.mem_cons_self).1
            rw [hstat] at hcall
            cases hcall
      | true =>
          cases hfile : sb.isFile with
          | false =>
              obtain ⟨hashed, hruns, hok⟩ := ih' err list
              refine ⟨hashed, ?_, fun hworks => hok (hworks' hworks)⟩
              intro fuel hfuel
              rw [hashEntries_skip ssl hstat hfile]
              exact hruns fuel hfuel
          | true =>
              cases hopen : sb.zipFopenIndex with
              | false =>
                  refine ⟨(eUaErr, list), ?_, ?_⟩
                  · intro fuel _
                    rw [hashEntries_file ssl hstat hfile]
                    simp [hopen]
                  · intro hworks
                    have hcall := (hworks sb List.mem_cons_self).2.1
                    rw [hopen] at hcall
                    cases hcall
              | true =>
                  obtain ⟨read, hread, hreads⟩ := readLoop_ends
                    (hfills sb List.mem_cons_self) hsize
                    (show ([] : Bytes) = sb.content.take 0 from rfl)
                    (by simpa using hbound sb List.mem_cons_self)
                  obtain ⟨hashed, hruns, hok⟩ := ih' (if read.2 then err else eUaErr)
                    (list ++ [ssl.sha256 (sb.name ++ read.1)])
                  refine ⟨hashed, ?_, ?_⟩
                  · intro fuel hfuel
                    rw [hashEntries_file ssl hstat hfile, readLoop_mono hfuel hread]
                    simpa [hopen] using hruns fuel hfuel
                  · intro hworks
                    rw [hok (hworks' hworks), if_pos (hreads (hworks sb List.mem_cons_self).2.2)]

end Reading

section Order

theorem compare_isLE_iff (a b : Bytes) : (compare a b).isLE ↔ a ≤ b := by
  induction a generalizing b with
  | nil => cases b <;> simp
  | cons x a ih =>
    cases b with
    | nil => simp
    | cons y b =>
      have hrest := ih b
      rw [List.compare_eq_compareLex] at hrest ⊢
      rw [List.compareLex_cons_cons, List.cons_le_cons_iff, Ordering.isLE_then_iff_or, hrest,
        Std.compare_eq_lt, Std.compare_eq_eq_iff_eq]

/-- The comparison is the order of the bytes. -/
theorem sha256cmp_iff (a b : Digest) : sha256cmp a b ↔ a.val ≤ b.val := compare_isLE_iff a.val b.val

theorem sha256cmp_trans (a b c : Digest) (hab : sha256cmp a b) (hbc : sha256cmp b c) :
    sha256cmp a c := by
  rw [sha256cmp_iff] at hab hbc ⊢
  exact List.le_trans hab hbc

theorem sha256cmp_total (a b : Digest) : sha256cmp a b || sha256cmp b a := by
  rw [Bool.or_eq_true, sha256cmp_iff, sha256cmp_iff]
  exact List.le_total a.val b.val

theorem llSort_sha256cmp (list : List Digest) :
    (llSort sha256cmp list).map Subtype.val = (list.map Subtype.val).insertionSort (· ≤ ·) := by
  have hsorted : ((llSort sha256cmp list).map Subtype.val).Pairwise (· ≤ ·) := by
    rw [List.pairwise_map]
    exact (llSort_sorted sha256cmp_trans sha256cmp_total list).imp fun h => (sha256cmp_iff _ _).mp h
  have hperm : ((llSort sha256cmp list).map Subtype.val).Perm
      ((list.map Subtype.val).insertionSort (· ≤ ·)) :=
    ((llSort_perm sha256cmp list).map _).trans (List.perm_insertionSort _ _).symm
  exact hperm.eq_of_pairwise (fun a b _ _ => List.le_antisymm) hsorted
    (List.pairwise_insertionSort _ _)

variable (ssl : Openssl)

/-- What is hashed at the end of the call is the text of all digests in order. -/
theorem digestText_files (files : List (Bytes × Bytes)) :
    digestText (files.map (fileDigest ssl)) = contentsText ssl files := by
  rw [digestText, contentsText, llSort_sha256cmp, List.map_map]
  rfl

theorem combined_files (files : List (Bytes × Bytes)) :
    ssl.base64 (combined ssl (files.map (fileDigest ssl))) = contentsDigest ssl files := by
  rw [combined, digestText_files, contentsDigest]

theorem contentsText_of_perm {files files' : List (Bytes × Bytes)}
    (h : (files.map (fileDigest ssl)).Perm (files'.map (fileDigest ssl))) :
    contentsText ssl files = contentsText ssl files' := by
  have hsorted : llSort sha256cmp (files.map (fileDigest ssl)) =
      llSort sha256cmp (files'.map (fileDigest ssl)) := by
    refine llSort_eq_of_perm sha256cmp_trans sha256cmp_total (fun a b hab hba => ?_) h
    rw [sha256cmp_iff] at hab hba
    exact Subtype.ext (List.le_antisymm hab hba)
  rw [← digestText_files, ← digestText_files, digestText, digestText, hsorted]

theorem contentsDigest_of_perm {files files' : List (Bytes × Bytes)} (h : files.Perm files') :
    contentsDigest ssl files = contentsDigest ssl files' := by
  rw [contentsDigest, contentsText_of_perm ssl (h.map _), contentsDigest]

end Order

section Samples

/-- An entry of an archive that can be read without a failure. -/
def sampleEntry (name content : Bytes) : ZipEntry :=
  ⟨name, content, true, true, fun pos n => some ((content.drop pos).take n)⟩

def sampleArchive (entries : List ZipEntry) : ZipArchive := ⟨entries, true, true⟩

/-- A hash that tells short texts apart. -/
def sampleSha256 (m : Bytes) : Digest :=
  ⟨(m.length.toUInt8 :: m ++ List.replicate sha256DigestLength 0).take sha256DigestLength,
    by
      rw [List.length_take, List.length_append, List.length_replicate]
      omega⟩

/-- A text that says which package of the examples the digest belongs to. -/
def sampleBase64 (d : Digest) : DigestB64 :=
  if d.val[1]? = some 3 then
    ⟨"rQJcO0mCSBHW2bqPFGcvP7Xv1pNnOsd8kZLyTeAwUf0=", by decide, by decide +kernel⟩
  else ⟨"9hYsJ3uWm5lKxD2cEoBtVaR7gFqzN1iXpHwM6vTkSe8=", by decide, by decide +kernel⟩

def sampleSsl : Openssl := ⟨sampleSha256, sampleBase64⟩

def sampleFiles : List (Bytes × Bytes) := [(ascii "a", ascii "bc"), (ascii "x", [])]

def samplePackage (files : List (Bytes × Bytes)) : ZipArchive :=
  sampleArchive (files.map fun file => sampleEntry file.1 file.2)

theorem samplePackage_fills (files : List (Bytes × Bytes)) : (samplePackage files).Fills := by
  intro sb hsb
  obtain ⟨file, _, rfl⟩ := List.mem_map.mp hsb
  intro pos n buf hread
  exact (Option.some.inj hread).symm

def shuffledFiles : List (Bytes × Bytes) := (ascii "manifest.xml", [1]) :: sampleFiles.reverse

end Samples

section Results

variable (ssl : Openssl) {rwBuffSize rwBuffSize' : Nat}

/-- A success has the digest of all files, each read to its end. -/
theorem calcSha256X_ok {fuel : Nat} {za : ZipArchive} (hfills : za.Fills) {result : Calculated}
    (h : calcSha256X ssl rwBuffSize fuel (some za) = some result) (hok : result.err = eUaOk) :
    result.obuff = some (contentsDigest ssl za.files) := by
  rw [calcSha256X, Option.map_eq_some_iff] at h
  obtain ⟨hashed, hhashed, hresult⟩ := h
  subst hresult
  unfold finishDigest at hok ⊢
  cases hclose : za.zipClose with
  | false =>
      simp only [hclose, Bool.false_eq_true, if_false] at hok
      exact absurd hok (by decide)
  | true =>
      simp only [hclose, if_true] at hok ⊢
      split at hok
      · rename_i herr
        exact absurd hok herr
      · rename_i herr
        split at hok
        · rename_i hencode
          obtain ⟨err, list⟩ := hashed
          have herr' : err = eUaOk := not_not.mp herr
          subst herr'
          have hlist := (hashEntries_ok ssl hfills hhashed).2
          rw [if_neg herr, if_pos hencode, hlist, List.nil_append, ← combined_files,
            ZipArchive.files, List.map_map]
          rfl
        · exact absurd hok (by decide)

/-- The digest of an archive is that of its files. -/
theorem computes_contents (hsize : 0 < rwBuffSize) {za : ZipArchive} (hfills : za.Fills) :
    Computes ssl rwBuffSize za (contentsDigest ssl za.files) := by
  obtain ⟨bound, hbound⟩ := contents_bounded za.entries
  obtain ⟨hashed, hruns, hok⟩ := hashEntries_ends ssl hsize hfills hbound eUaOk []
  have hresult : ∀ fuel, bound ≤ fuel →
      calcSha256X ssl rwBuffSize fuel (some za) = some (finishDigest ssl za hashed) := by
    intro fuel hfuel
    rw [calcSha256X, hruns fuel hfuel, Option.map_some]
  refine ⟨bound, _, hresult, calcSha256X_ok ssl hfills (hresult bound (Nat.le_refl _)), ?_⟩
  intro hworks
  unfold finishDigest
  simp [hok hworks.1, hworks.2.1, hworks.2.2]

/-- Archives of the same names and contents have one digest, however they are ordered, whatever
else they have that is not hashed, and whatever the sizes of the buffers; ua_init never sets
a size of zero. -/
theorem same_contents_same_digest (hsize : 0 < rwBuffSize) (hsize' : 0 < rwBuffSize')
    {za za' : ZipArchive} (hfills : za.Fills) (hfills' : za'.Fills)
    (h : za.files.Perm za'.files) :
    ∃ digest, digest = contentsDigest ssl za.files ∧ Computes ssl rwBuffSize za digest ∧
      Computes ssl rwBuffSize' za' digest := by
  refine ⟨_, rfl, computes_contents ssl hsize hfills, ?_⟩
  rw [contentsDigest_of_perm ssl h]
  exact computes_contents ssl hsize' hfills'

theorem same_contents_same_digest_example :
    ∃ digest, digest = contentsDigest sampleSsl (samplePackage sampleFiles).files ∧
      Computes sampleSsl 2 (samplePackage sampleFiles) digest ∧
      Computes sampleSsl 16384 (samplePackage shuffledFiles) digest :=
  same_contents_same_digest sampleSsl (by decide) (by decide) (samplePackage_fills _)
    (samplePackage_fills _) (by decide +kernel)

end Results

section Separation

/-- A name and the content behind it, as they are hashed. -/
def joined (file : Bytes × Bytes) : Bytes := file.1 ++ file.2

variable (ssl : Openssl)

/-- All that is hashed for the files of one package. -/
def hashedTexts (files : List (Bytes × Bytes)) : List Bytes :=
  contentsText ssl files :: files.map joined

/-- No two of the texts hashed for two packages share a digest, nor the two results a text. -/
structure NoCollisions (files files' : List (Bytes × Bytes)) : Prop where
  sha256 : ∀ m ∈ hashedTexts ssl files, ∀ m' ∈ hashedTexts ssl files',
    ssl.sha256 m = ssl.sha256 m' → m = m'
  base64 : contentsDigest ssl files = contentsDigest ssl files' →
    ssl.sha256 (contentsText ssl files) = ssl.sha256 (contentsText ssl files')

/-- The call succeeds with this digest. -/
def Yields (rwBuffSize : Nat) (za : ZipArchive) (digest : DigestB64) : Prop :=
  ∃ fuel, calcSha256X ssl rwBuffSize fuel (some za) = some ⟨eUaOk, some digest⟩

/-- Digests all have one length, so they can be told apart behind each other. -/
theorem flatten_injective {list list' : List Digest}
    (h : (list.map Subtype.val).flatten = (list'.map Subtype.val).flatten) : list = list' := by
  induction list generalizing list' with
  | nil =>
      cases list' with
      | nil => rfl
      | cons d' list' =>
          have hpos : 0 < sha256DigestLength := by decide
          have hlen := congrArg List.length h
          rw [List.map_cons, List.flatten_cons, List.length_append, d'.property, List.map_nil,
            List.flatten_nil, List.length_nil] at hlen
          omega
  | cons d list ih =>
      cases list' with
      | nil =>
          have hpos : 0 < sha256DigestLength := by decide
          have hlen := congrArg List.length h
          rw [List.map_cons, List.flatten_cons, List.length_append, d.property, List.map_nil,
            List.flatten_nil, List.length_nil] at hlen
          omega
      | cons d' list' =>
          simp only [List.map_cons, List.flatten_cons] at h
          obtain ⟨hd, hrest⟩ := List.append_inj h (d.property.trans d'.property.symm)
          rw [Subtype.ext hd, ih hrest]

/-- A function that tells the elements of two lists apart does so for their arrangements. -/
theorem perm_of_map {α β : Type} {f : α → β} {l l' : List α}
    (hf : ∀ a ∈ l, ∀ a' ∈ l', f a = f a' → a = a') (h : (l.map f).Perm (l'.map f)) :
    l.Perm l' := by
  induction l generalizing l' with
  | nil =>
      have hnil : l' = [] := by simpa using h.nil_eq
      rw [hnil]
  | cons a l ih =>
      have hmem : f a ∈ l'.map f := h.mem_iff.mp (List.mem_map_of_mem List.mem_cons_self)
      obtain ⟨a', ha', heq⟩ := List.mem_map.mp hmem
      have haa' : a = a' := hf a List.mem_cons_self a' ha' heq.symm
      subst haa'
      obtain ⟨front, back, hsplit⟩ := List.append_of_mem ha'
      subst hsplit
      have hrest : (l.map f).Perm ((front ++ back).map f) := by
        rw [List.map_append]
        apply List.Perm.cons_inv (a := f a)
        calc f a :: l.map f
          _ |>.Perm ((front ++ a :: back).map f) := h
          _ = front.map f ++ f a :: back.map f := by rw [List.map_append, List.map_cons]
          _ |>.Perm (f a :: (front.map f ++ back.map f)) := List.perm_middle
      have hback : ∀ b ∈ l, ∀ b' ∈ front ++ back, f b = f b' → b = b' := by
        intro b hb b' hb'
        apply hf b (List.mem_cons_of_mem _ hb) b'
        rcases List.mem_append.mp hb' with hfront | hback
        · exact List.mem_append_left _ hfront
        · exact List.mem_append_right _ (List.mem_cons_of_mem _ hback)
      exact ((ih hback hrest).cons a).trans List.perm_middle.symm

variable {ssl}

/-- Without collisions the digest stands for the names joined to their contents. -/
theorem contentsDigest_eq_iff {files files' : List (Bytes × Bytes)}
    (h : NoCollisions ssl files files') :
    contentsDigest ssl files = contentsDigest ssl files' ↔
      (files.map joined).Perm (files'.map joined) := by
  have hmap : ∀ l : List (Bytes × Bytes),
      l.map (fileDigest ssl) = (l.map joined).map ssl.sha256 := by
    intro l
    rw [List.map_map]
    rfl
  constructor
  · intro heq
    have htext : contentsText ssl files = contentsText ssl files' :=
      h.sha256 _ List.mem_cons_self _ List.mem_cons_self (h.base64 heq)
    rw [← digestText_files, ← digestText_files] at htext
    have hsorted := flatten_injective htext
    have hperm : (files.map (fileDigest ssl)).Perm (files'.map (fileDigest ssl)) := by
      calc files.map (fileDigest ssl)
        _ |>.Perm (llSort sha256cmp (files.map (fileDigest ssl))) := (llSort_perm ..).symm
        _ = llSort sha256cmp (files'.map (fileDigest ssl)) := hsorted
        _ |>.Perm (files'.map (fileDigest ssl)) := llSort_perm ..
    rw [hmap, hmap] at hperm
    apply perm_of_map _ hperm
    intro m hm m' hm'
    exact h.sha256 m (List.mem_cons_of_mem _ hm) m' (List.mem_cons_of_mem _ hm')
  · intro hperm
    have hdigests : (files.map (fileDigest ssl)).Perm (files'.map (fileDigest ssl)) := by
      rw [hmap, hmap]
      exact hperm.map ssl.sha256
    rw [contentsDigest, contentsText_of_perm ssl hdigests, contentsDigest]

theorem Yields.digest {rwBuffSize : Nat} {za : ZipArchive} (hfills : za.Fills)
    {digest : DigestB64} (h : Yields ssl rwBuffSize za digest) :
    digest = contentsDigest ssl za.files := by
  obtain ⟨fuel, hrun⟩ := h
  exact Option.some.inj (calcSha256X_ok ssl hfills hrun rfl)

/-- Packages with one digest have the same files exactly if no other ones give the same texts
of names and contents joined. -/
theorem separated_iff {rwBuffSize rwBuffSize' : Nat} {za za' : ZipArchive} (hfills : za.Fills)
    (hfills' : za'.Fills) (h : NoCollisions ssl za.files za'.files) {digest digest' : DigestB64}
    (hza : Yields ssl rwBuffSize za digest) (hza' : Yields ssl rwBuffSize' za' digest') :
    (digest = digest' → za.files.Perm za'.files) ↔
      ((za.files.map joined).Perm (za'.files.map joined) → za.files.Perm za'.files) := by
  rw [hza.digest hfills, hza'.digest hfills', contentsDigest_eq_iff h]

/-- Where the name ends and the content begins is not hashed. -/
theorem joined_texts_collide :
    ¬ ∀ (ssl : Openssl) (rwBuffSize rwBuffSize' : Nat) (za za' : ZipArchive)
      (digest : DigestB64), za.Fills → za'.Fills → NoCollisions ssl za.files za'.files →
      Yields ssl rwBuffSize za digest → Yields ssl rwBuffSize' za' digest →
      za.files.Perm za'.files := by
  intro h
  have hperm := h sampleSsl 16384 16384 (samplePackage [(ascii "a", ascii "bc")])
    (samplePackage [(ascii "ab", ascii "c")]) (contentsDigest sampleSsl [(ascii "a", ascii "bc")])
    (samplePackage_fills _) (samplePackage_fills _) ⟨by decide +kernel, by decide +kernel⟩
    ⟨1, by decide +kernel⟩ ⟨1, by decide +kernel⟩
  exact absurd hperm (by decide +kernel)

theorem separated_iff_example :
    (contentsDigest sampleSsl sampleFiles = contentsDigest sampleSsl sampleFiles.reverse →
      (samplePackage sampleFiles).files.Perm (samplePackage sampleFiles.reverse).files) ↔
    (((samplePackage sampleFiles).files.map joined).Perm
        ((samplePackage sampleFiles.reverse).files.map joined) →
      (samplePackage sampleFiles).files.Perm (samplePackage sampleFiles.reverse).files) :=
  separated_iff (samplePackage_fills _) (samplePackage_fills _)
    (show NoCollisions sampleSsl _ _ from ⟨by decide +kernel, by decide +kernel⟩)
    (show Yields sampleSsl 2 _ _ from ⟨2, by decide +kernel⟩)
    (show Yields sampleSsl 16384 _ _ from ⟨1, by decide +kernel⟩)

end Separation

end EsyncUa.PackageDigests
