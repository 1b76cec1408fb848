import EsyncUa.BackupCleanup
import EsyncUa.FileCopies

/-!
`libzip_unzip` and where it writes. The name of an entry is joined to the destination as it
stands, so what lies below the destination depends on where the names lead; and the bytes of an
entry are copied until there are as many as the archive declares, whatever the decoder does.
-/
namespace EsyncUa.Extraction

open EsyncUa.JsonProperties EsyncUa.Checksums EsyncUa.FilePaths EsyncUa.BackupCleanup
open EsyncUa.FileCopies

/-- What zip_fread answers, call by call: `none` is an error, no bytes are the end of the entry,
and other bytes fit into the buffer. -/
structure Decoder (buff : BuffSize) where
  read : Nat → Option Bytes
  fits : ∀ i bytes, read i = some bytes → bytes.length ≤ buff.size
  ended : ∀ i, read i = some [] → read (i + 1) = some []

structure ZipEntry (buff : BuffSize) where
  name : String
  size : UInt64
  decoder : Decoder buff

/-- How mkdir ends. -/
inductive MkdirCall
  | done | exists | fails
  deriving DecidableEq

/-- How the calls of one run of libzip_unzip end; the first number is that of the entry. -/
structure UnzipCalls where
  zipOpen : Bool
  zipStatIndex : Nat → Bool
  zipFopenIndex : Nat → Bool
  isDirectory : Nat → Path → Bool
  mkdir : Nat → Path → MkdirCall
  openFile : Nat → Bool
  write : Nat → Nat → WriteCall
  zipClose : Bool

/-- The names of a path, without the empty ones between two slashes. -/
def pathNames (path : String) : List Component := (components path).filter (· ≠ [])

/-- The directories that a path goes through. -/
def ways (path : String) : List Path := (pathNames path).inits.map (List.foldl enter [])

/-- The files, and what has been created or truncated, newest first. -/
structure UnzipState where
  files : Files Bytes
  touched : List Path

/-- The path of an existing directory: mkdirp refuses every path that does not start at the root. -/
structure Destination where
  path : String
  absolute : path.toList.head? = some '/'

section Unzip

variable {buff : BuffSize} (fuel : Nat) (calls : UnzipCalls)

/-- stat of a path finds a directory, with directories all the way. -/
def statIsDir (i : Nat) (path : String) : Bool := (ways path).all (calls.isDirectory i)

/-- mkdirp below a directory, one name of the path after another. -/
def mkdirs (i : Nat) : Path → List Component → UnzipState → MkdirCall × UnzipState
  | _, [], s => (.done, s)
  | p, c :: cs, s =>
      if calls.isDirectory i (enter p c) then mkdirs i (enter p c) cs s
      else
        match calls.mkdir i (enter p c) with
        | .done => mkdirs i (enter p c) cs { s with touched := enter p c :: s.touched }
        | failed => (failed, s)

/-- mkdirp of an absolute path. -/
def mkdirp (i : Nat) (path : String) (s : UnzipState) : MkdirCall × UnzipState :=
  mkdirs calls i [] (pathNames path) s

/-- chkdirp: the directory of a file is there or is made. -/
def chkdirp (i : Nat) (path : String) (s : UnzipState) : MkdirCall × UnzipState :=
  if statIsDir calls i (dirName path) then (.done, s)
  else mkdirp calls i (dirName path) s

/-- The size an entry declares, as the long it is compared to. -/
def ZipEntry.declared (sb : ZipEntry buff) : Int := sb.size.toInt64.toInt

/-- The copying loop from a call of zip_fread on: its error, `none` if it has not come to its end,
and the bytes written. -/
def copyLoop (sb : ZipEntry buff) (write : Nat → WriteCall) :
    Nat → Nat → Bytes → Option Rc × Bytes
  | 0, _, out => (none, out)
  | fuel + 1, k, out =>
      if (out.length : Int) = sb.declared then (some eUaOk, out)
      else
        match sb.decoder.read k with
        | none => (some eUaErr, out)
        | some buf =>
            match write k with
            | .done => copyLoop sb write fuel (k + 1) (out ++ buf)
            | .fails taken => (some eUaErr, out ++ fwrite buf (.fails taken))

/-- The name of a directory ends in a slash. -/
def isDirectoryName (name : String) : Bool := name.toList.getLast? = some '/'

/-- An entry that is a directory: what ends the loop over the entries, or the entry's error. -/
def extractDirectory (i : Nat) (fpath : String) (s : UnzipState) :
    Except (Option Rc) Rc × UnzipState :=
  match mkdirp calls i fpath s with
  | (.fails, s) => (.error (some eUaSys), s)
  | (_, s) => (.ok eUaOk, s)

/-- The copy of an entry to the file at a path. -/
def copyEntry (i : Nat) (sb : ZipEntry buff) (fpath : Path) (s : UnzipState) :
    Except (Option Rc) Rc × UnzipState :=
  let copied := copyLoop sb (calls.write i) fuel 0 []
  ((match copied.1 with
    | none => .error none
    | some rc => .ok rc),
    ⟨write s.files fpath (some copied.2), fpath :: s.touched⟩)

/-- An entry that is a file. A failing copy does not end the loop over the entries. -/
def extractFile (i : Nat) (sb : ZipEntry buff) (fpath : String) (s : UnzipState) :
    Except (Option Rc) Rc × UnzipState :=
  if !calls.zipFopenIndex i then (.error (some eUaErr), s)
  else
    match chkdirp calls i fpath s with
    | (.done, s) =>
        if calls.openFile i && !calls.isDirectory i (resolve fpath) then
          copyEntry fuel calls i sb (resolve fpath) s
        else (.error (some eUaSys), s)
    | (_, s) => (.error (some eUaSys), s)

def extractEntry (dest : Destination) (i : Nat) (sb : ZipEntry buff) (s : UnzipState) :
    Except (Option Rc) Rc × UnzipState :=
  if !calls.zipStatIndex i then (.error (some eUaErr), s)
  else if isDirectoryName sb.name then extractDirectory calls i (join dest.path sb.name) s
  else extractFile fuel calls i sb (join dest.path sb.name) s

/-- The loop over the entries from the `i`-th on; `none` is a copy that has not come to its
end. -/
def extract (dest : Destination) :
    Nat → List (ZipEntry buff) → Rc → UnzipState → Option Rc × UnzipState
  | _, [], err, s => (some err, s)
  | i, sb :: entries, err, s =>
      match extractEntry fuel calls dest i sb s with
      | (.error ended, s) => (ended, s)
      | (.ok rc, s) => extract dest (i + 1) entries (if rc = eUaOk then err else rc) s

/-- libzip_unzip from files on; `none` is a run that has not come to its end. -/
def libzipUnzip (dest : Destination) (entries : List (ZipEntry buff)) (files : Files Bytes) :
    Option Rc × UnzipState :=
  if !calls.zipOpen then (some eUaErr, ⟨files, []⟩)
  else
    match extract fuel calls dest 0 entries eUaOk ⟨files, []⟩ with
    | (some rc, s) => (some (if calls.zipClose then rc else eUaErr), s)
    | (none, s) => (none, s)

end Unzip

section Paths

/-- The names in a text of a path. -/
def textNames (text : List Char) : List Component := (text.splitOn '/').filter (· ≠ [])

theorem textNames_slash (a b : List Char) :
    textNames (a ++ '/' :: b) = textNames a ++ textNames b := by
  unfold textNames
  rw [List.splitOn_append_cons_self, List.filter_append]

theorem textNames_name {name : List Char} (hne : name ≠ []) (hslash : '/' ∉ name) :
    textNames name = [name] := by
  have hnone : ∀ c ∈ name, (c == '/') = false := by
    intro c hc
    rw [beq_eq_false_iff_ne]
    exact fun heq => hslash (heq ▸ hc)
  unfold textNames List.splitOn
  rw [List.splitOnP_eq_singleton hnone]
  simp [hne]

/-- Slashes at the end of a text add no name; the text is given from its end. -/
theorem textNames_strip (text : List Char) :
    textNames (text.dropWhile (· = '/')).reverse = textNames text.reverse := by
  induction text with
  | nil => rfl
  | cons c text ih =>
      by_cases hc : c = '/'
      · subst hc
        rw [List.dropWhile_cons_of_pos (by decide), ih, List.reverse_cons, textNames_slash]
        exact (List.append_nil _).symm
      · rw [List.dropWhile_cons_of_neg (by simpa using hc)]

theorem pathNames_ofList (text : List Char) :
    pathNames (String.ofList text) = textNames text := by
  simp [pathNames, textNames, components]

/-- dirname takes back the last name of an absolute path. -/
theorem pathNames_dirName {path : String} (habsolute : path.toList.head? = some '/') :
    pathNames (dirName path) = (pathNames path).dropLast := by
  have hwords : pathNames path = textNames (path.toList.reverse.dropWhile (· = '/')).reverse := by
    rw [textNames_strip, List.reverse_reverse]
    rfl
  have hnonempty : path ≠ "" := by
    rintro rfl
    cases habsolute
  rw [hwords]
  unfold dirName
  cases hrest : path.toList.reverse.dropWhile (· = '/') with
  | nil =>
      rw [if_neg hnonempty]
      decide
  | cons c rest =>
      -- the last name, and the text before it, which ends in a slash
      have hslash : '/' ∈ c :: rest := by
        obtain ⟨front, hfront⟩ := List.head?_eq_some_iff.mp habsolute
        rw [hfront, List.reverse_cons, List.dropWhile_append] at hrest
        split at hrest
        · cases hrest
        · rw [← hrest]
          simp
      obtain ⟨name, up, hsplit, hname⟩ := List.eq_append_cons_of_mem hslash
      have hne : name ≠ [] := by
        rintro rfl
        have hc := List.head?_dropWhile_not (· = '/') path.toList.reverse
        rw [hrest, hsplit] at hc
        simp at hc
      have hwords : textNames (c :: rest).reverse = textNames up.reverse ++ [name.reverse] := by
        have hlast : textNames name.reverse = [name.reverse] :=
          textNames_name (by simpa using hne) (by simpa using hname)
        rw [hsplit, List.reverse_append, List.reverse_cons, List.append_assoc,
          List.singleton_append, textNames_slash, hlast]
      have hup : (c :: rest).dropWhile (· ≠ '/') = '/' :: up := by
        rw [hsplit, dropWhile_name_append hname, List.dropWhile_cons_of_neg (by decide)]
      have hstrip := textNames_strip up
      simp only
      rw [hwords, List.dropLast_concat, hup]
      simp only
      rw [List.dropWhile_cons_of_pos (by decide), ← hstrip]
      cases up.dropWhile (· = '/') with
      | nil => decide
      | cons d dir => exact pathNames_ofList _

theorem pathNames_join (a b : String) :
    pathNames (join a b) = pathNames a ++ pathNames b := by
  have hslash : ∀ a b : String, pathNames (a ++ "/" ++ b) = pathNames a ++ pathNames b := by
    intro a b
    unfold pathNames
    rw [components_append, List.filter_append]
  rcases join_cases a b with ⟨rfl, hab⟩ | ⟨front, rfl, hab⟩ | hab
  · rw [hab]
    simp [pathNames, components]
  · rw [hab, hslash, hslash]
    simp [pathNames, components]
  · rw [hab, hslash]

/-- Empty names do not change where a path leads. -/
theorem resolve_pathNames (path : String) : resolve path = (pathNames path).foldl enter [] := by
  unfold resolve resolveFrom pathNames
  induction components path using List.reverseRecOn with
  | nil => rfl
  | append_singleton cs c ih =>
      rw [List.foldl_append, List.filter_append, List.foldl_append, ih]
      by_cases hc : c = []
      · simp [hc, enter]
      · simp [hc]

theorem mem_ways {path : String} {p : Path} :
    p ∈ ways path ↔ ∃ front, front <+: pathNames path ∧ front.foldl enter [] = p := by
  simp [ways, List.mem_inits]

theorem root_mem_ways (path : String) : [] ∈ ways path :=
  mem_ways.mpr ⟨[], List.nil_prefix, rfl⟩

/-- A joined path goes through the first path, and on from where it leads. -/
theorem mem_ways_join {a b : String} {p : Path} :
    p ∈ ways (join a b) ↔
      p ∈ ways a ∨ ∃ front, front <+: pathNames b ∧ front.foldl enter (resolve a) = p := by
  rw [mem_ways, pathNames_join]
  constructor
  · rintro ⟨front, hfront, rfl⟩
    rcases List.prefix_or_prefix_of_prefix hfront (List.prefix_append _ _) with ha | ha
    · exact .inl (mem_ways.mpr ⟨front, ha, rfl⟩)
    · obtain ⟨rest, rfl⟩ := ha
      refine .inr ⟨rest, (List.prefix_append_right_inj _).mp hfront, ?_⟩
      rw [List.foldl_append, ← resolve_pathNames]
  · rintro (ha | ⟨front, hfront, rfl⟩)
    · obtain ⟨front, hfront, rfl⟩ := mem_ways.mp ha
      exact ⟨front, hfront.trans (List.prefix_append _ _), rfl⟩
    · refine ⟨pathNames a ++ front, (List.prefix_append_right_inj _).mpr hfront, ?_⟩
      rw [List.foldl_append, ← resolve_pathNames]

theorem ways_dirName {path : String} (habsolute : path.toList.head? = some '/') {p : Path} :
    p ∈ ways path ↔ p ∈ ways (dirName path) ∨ p = resolve path := by
  rw [mem_ways, mem_ways, pathNames_dirName habsolute, resolve_pathNames]
  constructor
  · rintro ⟨front, hfront, rfl⟩
    rcases List.eq_nil_or_concat (pathNames path) with hnil | ⟨names, name, hnames⟩
    · rw [hnil] at hfront ⊢
      exact .inl ⟨front, hfront, rfl⟩
    · rw [hnames, List.concat_eq_append] at hfront ⊢
      rw [List.dropLast_concat]
      rcases List.prefix_concat_iff.mp hfront with hwhole | hshort
      · exact .inr (by rw [hwhole])
      · exact .inl ⟨front, hshort, rfl⟩
  · rintro (⟨front, hfront, rfl⟩ | rfl)
    · exact ⟨front, hfront.trans (List.dropLast_prefix _), rfl⟩
    · exact ⟨_, List.prefix_rfl, rfl⟩

theorem join_absolute (dest : Destination) (name : String) :
    (join dest.path name).toList.head? = some '/' := by
  obtain ⟨rest, hrest⟩ := List.head?_eq_some_iff.mp dest.absolute
  unfold join
  split <;> simp [String.toList_append, hrest]

end Paths

section Inside

variable {buff : BuffSize} {calls : UnzipCalls} {dest : Destination}

/-- What has been created or truncated lies below the destination. -/
def Inside (dest : Destination) (s : UnzipState) : Prop :=
  ∀ p ∈ s.touched, resolve dest.path <+: p

/-- The destination is a directory throughout the run. -/
def IsThere (calls : UnzipCalls) (dest : Destination) : Prop :=
  ∀ i, ∀ p ∈ ways dest.path, calls.isDirectory i p = true

/-- Each name of an entry leads to a place below the destination, or to a directory on the way
to the destination, which is there. -/
def Stays (dest : Destination) (name : String) : Prop :=
  ∀ front, front <+: pathNames name →
    resolve dest.path <+: front.foldl enter (resolve dest.path) ∨
      front.foldl enter (resolve dest.path) ∈ ways dest.path

/-- A file whose path is a directory on the way to the destination, so that it is not opened. -/
def Blocked (dest : Destination) (name : String) : Prop :=
  isDirectoryName name = false ∧ resolve (join dest.path name) ∈ ways dest.path

/-- Every entry stays, up to one that ends the extraction in any case. -/
def AllStay (dest : Destination) : List String → Prop
  | [] => True
  | name :: names => Stays dest name ∧ (¬ Blocked dest name → AllStay dest names)

theorem stays_iff {name : String} :
    Stays dest name ↔
      ∀ p ∈ ways (join dest.path name), resolve dest.path <+: p ∨ p ∈ ways dest.path := by
  constructor
  · intro h p hp
    rcases mem_ways_join.mp hp with hway | ⟨front, hfront, rfl⟩
    · exact .inr hway
    · exact h front hfront
  · intro h front hfront
    exact h _ (mem_ways_join.mpr (.inr ⟨front, hfront, rfl⟩))

/-- mkdirp creates directories that the path goes through and that were not there. -/
theorem mkdirs_touched {Q : Path → Prop} {i : Nat} {p : Path} {cs : List Component}
    {s : UnzipState}
    (h : ∀ front, front <+: cs → calls.isDirectory i (front.foldl enter p) = false →
      Q (front.foldl enter p)) (hs : ∀ q ∈ s.touched, Q q) :
    ∀ q ∈ (mkdirs calls i p cs s).2.touched, Q q := by
  induction cs generalizing p s with
  | nil => exact hs
  | cons c cs ih =>
      have hnext : ∀ front, front <+: cs →
          calls.isDirectory i (front.foldl enter (enter p c)) = false →
            Q (front.foldl enter (enter p c)) := fun front hfront =>
        h (c :: front) (List.cons_prefix_cons.mpr ⟨rfl, hfront⟩)
      unfold mkdirs
      split
      · exact ih hnext hs
      · rename_i hmissing
        split
        · apply ih hnext
          intro q hq
          rcases List.mem_cons.mp hq with rfl | hq
          · exact hnext [] List.nil_prefix (by simpa using hmissing)
          · exact hs q hq
        · exact hs

theorem mkdirp_touched {Q : Path → Prop} {i : Nat} {path : String} {s : UnzipState}
    (h : ∀ p ∈ ways path, calls.isDirectory i p = false → Q p) (hs : ∀ q ∈ s.touched, Q q) :
    ∀ q ∈ (mkdirp calls i path s).2.touched, Q q :=
  mkdirs_touched (fun front hfront => h _ (mem_ways.mpr ⟨front, hfront, rfl⟩)) hs

theorem chkdirp_touched {Q : Path → Prop} {i : Nat} {path : String}
    (habsolute : path.toList.head? = some '/') {s : UnzipState}
    (h : ∀ p ∈ ways path, calls.isDirectory i p = false → Q p) (hs : ∀ q ∈ s.touched, Q q) :
    ∀ q ∈ (chkdirp calls i path s).2.touched, Q q := by
  unfold chkdirp
  split
  · exact hs
  · exact mkdirp_touched (fun p hp => h p ((ways_dirName habsolute).mpr (.inl hp))) hs

theorem extractDirectory_touched {Q : Path → Prop} {i : Nat} {fpath : String}
    {s : UnzipState} (h : ∀ p ∈ ways fpath, calls.isDirectory i p = false → Q p)
    (hs : ∀ q ∈ s.touched, Q q) : ∀ q ∈ (extractDirectory calls i fpath s).2.touched, Q q := by
  have hmade := mkdirp_touched h hs
  unfold extractDirectory
  split
  · rename_i hmkdir
    rw [hmkdir] at hmade
    exact hmade
  · rename_i hmkdir
    rw [hmkdir] at hmade
    exact hmade

theorem extractFile_touched {Q : Path → Prop} {fuel i : Nat} {sb : ZipEntry buff}
    {fpath : String} (habsolute : fpath.toList.head? = some '/') {s : UnzipState}
    (h : ∀ p ∈ ways fpath, calls.isDirectory i p = false → Q p)
    (hs : ∀ q ∈ s.touched, Q q) :
    ∀ q ∈ (extractFile fuel calls i sb fpath s).2.touched, Q q := by
  have hmade := chkdirp_touched habsolute h hs
  unfold extractFile
  split
  · exact hs
  · split
    · rename_i hchkdir
      rw [hchkdir] at hmade
      split
      · rename_i hopen
        simp only [Bool.and_eq_true, Bool.not_eq_true'] at hopen
        intro q hq
        rcases List.mem_cons.mp hq with rfl | hq
        · exact h _ ((ways_dirName habsolute).mpr (.inr rfl)) hopen.2
        · exact hmade q hq
      · exact hmade
    · rename_i hchkdir
      rw [hchkdir] at hmade
      exact hmade

/-- What an entry creates or truncates is a place its path goes through that is no directory
yet. -/
theorem extractEntry_touched {Q : Path → Prop} (fuel : Nat) {i : Nat} {sb : ZipEntry buff}
    {s : UnzipState}
    (h : ∀ p ∈ ways (join dest.path sb.name), calls.isDirectory i p = false → Q p)
    (hs : ∀ q ∈ s.touched, Q q) :
    ∀ q ∈ (extractEntry fuel calls dest i sb s).2.touched, Q q := by
  unfold extractEntry
  split
  · exact hs
  · split
    · exact extractDirectory_touched h hs
    · exact extractFile_touched (join_absolute dest _) h hs

/-- After an entry whose path is a directory on the way to the destination nothing follows. -/
theorem extractEntry_blocked (fuel i : Nat) {sb : ZipEntry buff} (s : UnzipState)
    (hthere : IsThere calls dest) (hblocked : Blocked dest sb.name) :
    ∃ ended, (extractEntry fuel calls dest i sb s).1 = .error ended := by
  unfold extractEntry
  split
  · exact ⟨_, rfl⟩
  · rw [hblocked.1, if_neg (by decide)]
    unfold extractFile
    split
    · exact ⟨_, rfl⟩
    · split
      · rw [hthere i _ hblocked.2, if_neg (by simp)]
        exact ⟨_, rfl⟩
      · exact ⟨_, rfl⟩

/-- Where the destination is there, entries that stay are extracted below it. -/
theorem extract_inside (fuel i : Nat) {entries : List (ZipEntry buff)} (err : Rc)
    {s : UnzipState} (hthere : IsThere calls dest)
    (hstay : AllStay dest (entries.map ZipEntry.name)) (hs : Inside dest s) :
    Inside dest (extract fuel calls dest i entries err s).2 := by
  induction entries generalizing i err s with
  | nil => exact hs
  | cons sb entries ih =>
      obtain ⟨hname, hrest⟩ := hstay
      have hnew : ∀ p ∈ ways (join dest.path sb.name), calls.isDirectory i p = false →
          resolve dest.path <+: p := by
        intro p hp hmissing
        rcases stays_iff.mp hname p hp with hinside | hway
        · exact hinside
        · rw [hthere i p hway] at hmissing
          cases hmissing
      have hentry := extractEntry_touched fuel hnew hs
      have hblocked : Blocked dest sb.name → _ := extractEntry_blocked fuel i s hthere
      unfold extract
      split
      · rename_i hend
        rw [hend] at hentry
        exact hentry
      · rename_i hgoes
        rw [hgoes] at hentry hblocked
        refine ih _ _ (hrest fun hb => ?_) hentry
        obtain ⟨ended, hended⟩ := hblocked hb
        cases hended

/-- What has been created or truncated stays in the list. -/
theorem mkdirs_grows (calls : UnzipCalls) (i : Nat) (p : Path) (cs : List Component)
    (s : UnzipState) :
    s.touched ⊆ (mkdirs calls i p cs s).2.touched := by
  induction cs generalizing p s with
  | nil => exact List.Subset.refl _
  | cons c cs ih =>
      unfold mkdirs
      split
      · exact ih _ s
      · split
        · exact List.Subset.trans (List.subset_cons_self (enter p c) _) (ih _ ⟨s.files, _⟩)
        · exact List.Subset.refl _

theorem chkdirp_grows (calls : UnzipCalls) (i : Nat) (path : String) (s : UnzipState) :
    s.touched ⊆ (chkdirp calls i path s).2.touched := by
  unfold chkdirp
  split
  · exact List.Subset.refl _
  · exact mkdirs_grows calls i _ _ s

theorem extractEntry_grows (calls : UnzipCalls) (dest : Destination) (fuel i : Nat)
    (sb : ZipEntry buff) (s : UnzipState) :
    s.touched ⊆ (extractEntry fuel calls dest i sb s).2.touched := by
  unfold extractEntry
  split
  · exact List.Subset.refl _
  · split
    · have hmade : s.touched ⊆ (mkdirp calls i (join dest.path sb.name) s).2.touched :=
        mkdirs_grows calls i _ _ s
      unfold extractDirectory
      split
      · rename_i hmkdir
        rw [hmkdir] at hmade
        exact hmade
      · rename_i hmkdir
        rw [hmkdir] at hmade
        exact hmade
    · have hmade := chkdirp_grows calls i (join dest.path sb.name) s
      unfold extractFile
      split
      · exact List.Subset.refl _
      · split
        · rename_i hchkdir
          rw [hchkdir] at hmade
          split
          · exact List.Subset.trans hmade (List.subset_cons_self _ _)
          · exact hmade
        · rename_i hchkdir
          rw [hchkdir] at hmade
          exact hmade

theorem extract_grows (fuel i : Nat) (entries : List (ZipEntry buff)) (err : Rc)
    (s : UnzipState) : s.touched ⊆ (extract fuel calls dest i entries err s).2.touched := by
  induction entries generalizing i err s with
  | nil => exact List.Subset.refl _
  | cons sb entries ih =>
      have hentry := extractEntry_grows calls dest fuel i sb s
      unfold extract
      split
      · rename_i hend
        rw [hend] at hentry
        exact hentry
      · rename_i hgoes
        rw [hgoes] at hentry
        exact List.Subset.trans hentry (ih _ _ _)

/-- The calls on a device that has no directories but those on the way to the destination,
where everything but writing succeeds. -/
def bareDevice (dest : Destination) : UnzipCalls where
  zipOpen := true
  zipStatIndex := fun _ => true
  zipFopenIndex := fun _ => true
  isDirectory := fun _ p => p ∈ ways dest.path
  mkdir := fun _ _ => .done
  openFile := fun _ => true
  write := fun _ _ => .fails 0
  zipClose := true

theorem bareDevice_isThere (dest : Destination) : IsThere (bareDevice dest) dest :=
  fun _ _ hp => decide_eq_true hp

/-- A beginning of a list is its head, or goes on in its tail. -/
theorem prefix_cons_cases {α : Type} {c : α} {cs front : List α} (h : front <+: c :: cs)
    (hne : front ≠ []) : front = [c] ∨ ∃ rest, front = c :: rest ∧ rest <+: cs ∧ rest ≠ [] := by
  obtain ⟨d, rest, rfl⟩ := List.exists_cons_of_ne_nil hne
  obtain ⟨rfl, hrest⟩ := List.cons_prefix_cons.mp h
  by_cases hnil : rest = []
  · exact .inl (by rw [hnil])
  · exact .inr ⟨rest, rfl, hrest, hnil⟩

/-- There every directory is made that is not on the way to the destination. -/
theorem mkdirs_bare (dest : Destination) (i : Nat) (p : Path) (cs : List Component)
    (s : UnzipState) :
    (mkdirs (bareDevice dest) i p cs s).1 = .done ∧
      ∀ front, front <+: cs → front ≠ [] → front.foldl enter p ∈ ways dest.path ∨
        front.foldl enter p ∈ (mkdirs (bareDevice dest) i p cs s).2.touched := by
  induction cs generalizing p s with
  | nil => exact ⟨rfl, fun front hfront hne => absurd (List.prefix_nil.mp hfront) hne⟩
  | cons c cs ih =>
      have hgrows := mkdirs_grows (bareDevice dest) i
      unfold mkdirs
      split
      · rename_i hway
        obtain ⟨hdone, hmade⟩ := ih (enter p c) s
        refine ⟨hdone, fun front hfront hne => ?_⟩
        rcases prefix_cons_cases hfront hne with rfl | ⟨rest, rfl, hrest, hnil⟩
        · exact .inl (of_decide_eq_true hway)
        · exact hmade rest hrest hnil
      · obtain ⟨hdone, hmade⟩ := ih (enter p c) { s with touched := enter p c :: s.touched }
        refine ⟨hdone, fun front hfront hne => ?_⟩
        rcases prefix_cons_cases hfront hne with rfl | ⟨rest, rfl, hrest, hnil⟩
        · exact .inr (hgrows _ _ _ List.mem_cons_self)
        · exact hmade rest hrest hnil

theorem mkdirp_bare (dest : Destination) (i : Nat) (path : String) (s : UnzipState) :
    (mkdirp (bareDevice dest) i path s).1 = .done ∧
      ∀ p ∈ ways path, p ∈ ways dest.path ∨
        p ∈ (mkdirp (bareDevice dest) i path s).2.touched := by
  obtain ⟨hdone, hmade⟩ := mkdirs_bare dest i [] (pathNames path) s
  refine ⟨hdone, fun p hp => ?_⟩
  obtain ⟨front, hfront, rfl⟩ := mem_ways.mp hp
  by_cases hnil : front = []
  · subst hnil
    exact .inl (root_mem_ways _)
  · exact hmade front hfront hnil

theorem chkdirp_bare (dest : Destination) (i : Nat) (path : String) (s : UnzipState) :
    (chkdirp (bareDevice dest) i path s).1 = .done ∧
      ∀ p ∈ ways (dirName path), p ∈ ways dest.path ∨
        p ∈ (chkdirp (bareDevice dest) i path s).2.touched := by
  unfold chkdirp
  split
  · rename_i hstat
    refine ⟨rfl, fun p hp => .inl ?_⟩
    exact of_decide_eq_true (List.all_eq_true.mp hstat p hp)
  · exact mkdirp_bare dest i _ s

/-- A copy ends at the first write that fails. -/
theorem copyLoop_bare (dest : Destination) (sb : ZipEntry buff) (i : Nat) :
    ∃ rc out, copyLoop sb ((bareDevice dest).write i) 1 0 [] = (some rc, out) := by
  unfold copyLoop
  split
  · exact ⟨_, _, rfl⟩
  · split
    · exact ⟨_, _, rfl⟩
    · exact ⟨_, _, rfl⟩

/-- An entry makes all that is missing there, and is followed by the next unless it cannot be
opened. -/
theorem extractEntry_bare (dest : Destination) (i : Nat) (sb : ZipEntry buff) (s : UnzipState) :
    (∀ p ∈ ways (join dest.path sb.name), p ∈ ways dest.path ∨
      p ∈ (extractEntry 1 (bareDevice dest) dest i sb s).2.touched) ∧
      (¬ Blocked dest sb.name →
        ∃ rc, (extractEntry 1 (bareDevice dest) dest i sb s).1 = .ok rc) := by
  unfold extractEntry
  rw [if_neg (by simp [bareDevice])]
  split
  · obtain ⟨hdone, hmade⟩ := mkdirp_bare dest i (join dest.path sb.name) s
    unfold extractDirectory
    split
    · rename_i hmkdir
      rw [hmkdir] at hdone
      cases hdone
    · rename_i hmkdir
      rw [hmkdir] at hmade
      exact ⟨hmade, fun _ => ⟨_, rfl⟩⟩
  · rename_i hfile
    obtain ⟨hdone, hmade⟩ := chkdirp_bare dest i (join dest.path sb.name) s
    unfold extractFile
    rw [if_neg (by simp [bareDevice])]
    split
    · rename_i s' hchkdir
      rw [hchkdir] at hmade
      by_cases hway : resolve (join dest.path sb.name) ∈ ways dest.path
      · rw [if_neg (by simp [bareDevice, hway])]
        refine ⟨fun p hp => ?_, fun hgoes => absurd ⟨by simpa using hfile, hway⟩ hgoes⟩
        rcases (ways_dirName (join_absolute dest _)).mp hp with hp | rfl
        · exact hmade p hp
        · exact .inl hway
      · rw [if_pos (by simp [bareDevice, hway])]
        obtain ⟨rc, out, hcopied⟩ := copyLoop_bare dest sb i
        refine ⟨fun p hp => ?_, fun _ => ⟨rc, by simp only [copyEntry, hcopied]⟩⟩
        rcases (ways_dirName (join_absolute dest _)).mp hp with hp | rfl
        · exact (hmade p hp).imp_right (List.mem_cons_of_mem _)
        · exact .inr List.mem_cons_self
    · rename_i hfails hchkdir
      rw [hchkdir] at hdone
      exact absurd hdone (by simpa using hfails)

/-- If what is extracted there lies below the destination, every entry stays. -/
theorem stays_of_inside (i : Nat) {entries : List (ZipEntry buff)} (err : Rc) (s : UnzipState)
    (h : Inside dest (extract 1 (bareDevice dest) dest i entries err s).2) :
    AllStay dest (entries.map ZipEntry.name) := by
  induction entries generalizing i err s with
  | nil => trivial
  | cons sb entries ih =>
      obtain ⟨hmade, hgoes⟩ := extractEntry_bare dest i sb s
      unfold extract at h
      split at h
      · rename_i hend
        rw [hend] at hmade hgoes
        refine ⟨stays_iff.mpr fun p hp => ?_, fun hopens => ?_⟩
        · exact (hmade p hp).symm.imp_left (h p)
        · obtain ⟨rc, hrc⟩ := hgoes hopens
          cases hrc
      · rename_i s' hgone
        rw [hgone] at hmade
        refine ⟨stays_iff.mpr fun p hp => ?_, fun _ => ih _ _ _ h⟩
        exact (hmade p hp).symm.imp_left fun hp' => h p (extract_grows _ _ _ _ _ hp')

end Inside

end EsyncUa.Extraction
