import EsyncUa.ArchiveWalks
import EsyncUa.ExtractedFiles
import Mathlib.Algebra.Ring.Nat

/-!
A directory that `libzip_zip` packs and `libzip_unzip` unpacks. The walk adds the directories
below the root as entries of their own, the files with the names that lead to them, and each name
once, so the files come out where they were, below the destination.
-/
namespace EsyncUa.ArchiveRoundTrips

open EsyncUa.JsonProperties EsyncUa.Checksums EsyncUa.FilePaths
open EsyncUa.ArchiveWalks EsyncUa.Extraction EsyncUa.ExtractedFiles
open EsyncUa.Components (baseName)
open EsyncUa.FileCopies (BuffSize defaultBuffSize WriteCall)

/-- An entry as it is added to an archive. -/
inductive Member
  | file (added : Added)
  | directory (name : String)
  deriving DecidableEq

def Member.name : Member → String
  | file added => added.name
  | directory name => name

def Member.added? : Member → Option Added
  | file added => some added
  | directory _ => none

section Pack

variable (calls : ZipCalls)

/-- libzip_archive_add_file, with the newest member of the archive first. -/
def packFile (path : String) (base : Option String) (za : List Member) : Rc × List Member :=
  let file := joinName (safeStr base) (baseName path)
  if ¬ calls.zipSourceFile path then (eUaErr, za)
  else if ¬ calls.zipFileAdd path then (eUaErr, za)
  else (eUaOk, .file ⟨file, path⟩ :: za)

/-- The loop of libzip_archive_add_dir, with the entries for the directories. -/
def packEntries (path : String) (base : Option String) :
    Option Nat → Listing → List Member → Rc × List Member
  | some 0, _, za => (eUaOk, za)
  | _, .nil, za => (eUaOk, za)
  | n, .file name _ rest, za =>
      let packed := packFile calls (joinName path name.text) base za
      if packed.1 ≠ eUaOk then packed
      else packEntries path base (n.map Nat.pred) rest packed.2
  | n, .dir name inside rest, za =>
      let filepath := joinName path name.text
      let basepath := joinName (safeStr base) name.text
      if isDots name then packEntries path base (n.map Nat.pred) rest za
      else if ¬ calls.zipAddDir basepath then (eUaErr, za)
      else
        let walked :=
          if ¬ calls.opendir filepath then (eUaErr, .directory basepath :: za)
          else packEntries filepath (some basepath) (calls.readdirFails filepath) inside
            (.directory basepath :: za)
        packEntries path base (n.map Nat.pred) rest walked.2

/-- libzip_archive_add_dir. -/
def packDir (path : String) (base : Option String) (entries : Listing) (za : List Member) :
    Rc × List Member :=
  if ¬ calls.opendir path then (eUaErr, za)
  else packEntries calls path base (calls.readdirFails path) entries za

/-- libzip_zip. -/
def pack (path : String) (target : Target) : Rc × List Member :=
  if ¬ calls.stat then (eUaSys, [])
  else
    match target with
    | .other => (eUaErr, [])
    | .file => close (packFile calls path none)
    | .dir entries => close (packDir calls path none entries)
where
  close (add : List Member → Rc × List Member) : Rc × List Member :=
    if ¬ calls.chkdirp then (eUaSys, [])
    else if ¬ calls.zipOpen then (eUaErr, [])
    else if ¬ calls.zipClose then (eUaErr, (add []).2)
    else add []

end Pack

section Purpose

/-- What a directory holds as readdir hands it out: each name once, and the dots are
directories. -/
def texts : Listing → List String
  | .nil => []
  | .file name _ rest => name.text :: texts rest
  | .dir name _ rest => name.text :: texts rest

def Proper : Listing → Prop
  | .nil => True
  | .file name _ rest => isDots name = false ∧ name.text ∉ texts rest ∧ Proper rest
  | .dir name inside rest =>
      (isDots name = false → Proper inside) ∧ name.text ∉ texts rest ∧ Proper rest

/-- The names that lead to the files at every depth. -/
def fileNames : Listing → List (List Name)
  | .nil => []
  | .file name _ rest => [name] :: fileNames rest
  | .dir name inside rest =>
      (if isDots name then [] else (fileNames inside).map (name :: ·)) ++ fileNames rest

/-- The names that lead to the directories at every depth. -/
def dirNames : Listing → List (List Name)
  | .nil => []
  | .file _ _ rest => dirNames rest
  | .dir name inside rest =>
      (if isDots name then [] else [name] :: (dirNames inside).map (name :: ·)) ++ dirNames rest

/-- The path that names lead to. -/
def place (names : List Name) : Path := names.map (·.text.toList)

/-- The files below a path are those of the listing, each of a size that an off_t takes. -/
structure Lists (files : Files Bytes) (root : Path) (entries : Listing) : Prop where
  proper : Proper entries
  there : ∀ q, (∃ names ∈ fileNames entries, place names = q) ↔ (files (root ++ q)).isSome
  sized : ∀ q bytes, files (root ++ q) = some bytes → bytes.length < 2 ^ 63

variable {buff : BuffSize}

/-- An entry of a closed archive as it is read: a file has the content that was at its path, and
the name of a directory gets a slash. -/
def ReadAs (files : Files Bytes) : Member → ZipEntry buff → Prop
  | .file added, sb =>
      sb.name = added.name ∧ ∃ bytes, files (resolve added.path) = some bytes ∧
        sb.size = UInt64.ofNat bytes.length ∧ Yields sb.decoder bytes
  | .directory name, sb => sb.name = name ++ "/"

/-- The entries of a closed archive in the order in which they were added, which is the order of
their indices. -/
def ReadsBack (files : Files Bytes) (za : List Member) (archive : List (ZipEntry buff)) : Prop :=
  List.Forall₂ (ReadAs files) za.reverse archive

/-- Every call of an extraction succeeds, and no directory is where a file goes. -/
structure Undisturbed (calls : UnzipCalls) (dest : Destination) (archive : List (ZipEntry buff)) :
    Prop where
  zipOpen : calls.zipOpen = true
  zipStatIndex : ∀ i, calls.zipStatIndex i = true
  zipFopenIndex : ∀ i, calls.zipFopenIndex i = true
  mkdir : ∀ i p, calls.mkdir i p = .done
  openFile : ∀ i, calls.openFile i = true
  write : ∀ i k, calls.write i k = .done
  zipClose : calls.zipClose = true
  vacant : ∀ i, ∀ sb ∈ archive, isDirectoryName sb.name = false →
    calls.isDirectory i (resolve (join dest.path sb.name)) = false

end Purpose

section Names

theorem joinName_eq_join (a b : String) : joinName a b = join a b := by
  rw [joinName_eq]
  unfold join
  cases hlast : a.toList.getLast? with
  | none => simp
  | some c =>
      by_cases hc : c = '/'
      · simp [hc]
      · simp [hc]

theorem components_name (name : Name) : components name.text = [name.text.toList] := by
  have hnone : ∀ c ∈ name.text.toList, (c == '/') = false := by
    intro c hc
    rw [beq_eq_false_iff_ne]
    exact fun heq => name.plain (heq ▸ hc)
  exact List.splitOnP_eq_singleton hnone

theorem components_relative (name : Name) (names : List Name) :
    components (relative (name :: names)) = place (name :: names) := by
  induction names generalizing name with
  | nil => rw [relative_singleton, components_name, place, List.map_singleton]
  | cons next names ih =>
      rw [relative_cons_cons, components_append, components_name, ih]
      rfl

theorem relative_plain_of_not_dots {names : List Name} (hne : names ≠ [])
    (hdots : ∀ name ∈ names, isDots name = false) : Plain (relative names) := by
  cases names with
  | nil => exact absurd rfl hne
  | cons name names =>
      intro c hc
      rw [components_relative] at hc
      obtain ⟨name', hmem, rfl⟩ := List.mem_map.mp hc
      have hname := hdots name' hmem
      simp only [isDots, Bool.or_eq_false_iff, decide_eq_false_iff_not] at hname
      refine ⟨name'.toList_ne_nil, fun h => hname.1 ?_, fun h => hname.2 ?_⟩
      · exact String.toList_inj.mp h
      · exact String.toList_inj.mp h

/-- Different names lead to different places. -/
theorem relative_inj {names names' : List Name} (hne : names ≠ []) (hne' : names' ≠ [])
    (h : relative names = relative names') : place names = place names' := by
  cases names with
  | nil => exact absurd rfl hne
  | cons name rest =>
      cases names' with
      | nil => exact absurd rfl hne'
      | cons name' rest' => rw [← components_relative, h, components_relative]

theorem resolve_relative (dest : String) {names : List Name} (hne : names ≠ [])
    (hdots : ∀ name ∈ names, isDots name = false) :
    resolve (join dest (relative names)) = resolve dest ++ place names := by
  rw [resolve_join_plain (relative_plain_of_not_dots hne hdots)]
  cases names with
  | nil => exact absurd rfl hne
  | cons name rest => rw [components_relative]

theorem resolve_name (path : String) {name : Name} (hdots : isDots name = false) :
    resolve (joinName path name.text) = resolve path ++ [name.text.toList] := by
  have hplain := resolve_relative path (List.cons_ne_nil name []) (by simpa using hdots)
  rw [relative_singleton] at hplain
  rw [joinName_eq_join, hplain]
  rfl

theorem relative_not_directory (name : Name) (names : List Name) :
    isDirectoryName (relative (name :: names)) = false := by
  obtain ⟨c, hlast, hc⟩ := relative_plain name names
  unfold isDirectoryName
  rw [hlast]
  simpa using hc

theorem directory_name (name : String) : isDirectoryName (name ++ "/") = true := by
  unfold isDirectoryName
  rw [String.toList_append, List.getLast?_append]
  rfl

end Names

section Walk

/-- The members for a directory in the order of the walk. -/
def members (dirs : List Name) (path : String) : Listing → List Member
  | .nil => []
  | .file name _ rest =>
      .file ⟨relative (dirs ++ [name]), joinName path name.text⟩ :: members dirs path rest
  | .dir name inside rest =>
      (if isDots name then []
        else .directory (relative (dirs ++ [name])) ::
          members (dirs ++ [name]) (joinName path name.text) inside) ++
        members dirs path rest

variable {calls : ZipCalls}

theorem packFile_of_fine {path : String} (hfine : ¬ FileFails calls path) (base : Option String)
    (za : List Member) :
    packFile calls path base za =
      (eUaOk, .file ⟨joinName (safeStr base) (baseName path), path⟩ :: za) := by
  simp only [FileFails, not_or, Bool.not_eq_false] at hfine
  simp [packFile, hfine.1, hfine.2]

section Equations

variable {path : String} {base : Option String} {n : Option Nat} (hn : n ≠ some 0) {name : Name}
variable {regular : Bool} {inside rest entries : Listing} {za : List Member}

theorem packEntries_failed : packEntries calls path base (some 0) entries za = (eUaOk, za) := by
  cases entries <;> rfl

theorem packEntries_nil : packEntries calls path base n .nil za = (eUaOk, za) := by
  rcases n with _ | _ | n <;> rfl

include hn

theorem packEntries_file : packEntries calls path base n (.file name regular rest) za =
    let packed := packFile calls (joinName path name.text) base za
    if packed.1 ≠ eUaOk then packed
    else packEntries calls path base (n.map Nat.pred) rest packed.2 := by
  rcases n with _ | _ | n
  · rfl
  · exact absurd rfl hn
  · rfl

theorem packEntries_dir : packEntries calls path base n (.dir name inside rest) za =
    if isDots name then packEntries calls path base (n.map Nat.pred) rest za
    else if ¬ calls.zipAddDir (joinName (safeStr base) name.text) then (eUaErr, za)
    else packEntries calls path base (n.map Nat.pred) rest
      (packDir calls (joinName path name.text) (some (joinName (safeStr base) name.text)) inside
        (.directory (joinName (safeStr base) name.text) :: za)).2 := by
  rcases n with _ | _ | n
  · rfl
  · exact absurd rfl hn
  · rfl

end Equations

section Added

variable (calls)

/-- What `add` returns for an archive of files `pack` returns for one with directories. -/
def SameFiles (add : List Added → Rc × List Added) (pack : List Member → Rc × List Member) :
    Prop :=
  ∀ za, add (za.filterMap Member.added?) =
    ((pack za).1, (pack za).2.filterMap Member.added?)

theorem packFile_added (path : String) (base : Option String) :
    SameFiles (libzipArchiveAddFile calls path base) (packFile calls path base) := by
  intro za
  unfold libzipArchiveAddFile packFile
  split
  · rfl
  · split
    · rfl
    · rfl

theorem packDir_added {path : String} {base : Option String} {entries : Listing}
    (h : SameFiles (addEntries calls path base (calls.readdirFails path) entries)
      (packEntries calls path base (calls.readdirFails path) entries)) :
    SameFiles (libzipArchiveAddDir calls path base entries) (packDir calls path base entries) := by
  intro za
  unfold libzipArchiveAddDir packDir
  split
  · rfl
  · exact h za

theorem packEntries_added (path : String) (base : Option String) (n : Option Nat)
    (entries : Listing) :
    SameFiles (addEntries calls path base n entries) (packEntries calls path base n entries) := by
  induction entries generalizing path base n with
  | nil =>
      intro za
      rw [addEntries_nil, packEntries_nil]
  | file name regular rest ih =>
      intro za
      by_cases hn : n = some 0
      · rw [hn, addEntries_failed, packEntries_failed]
      rw [addEntries_file hn, packEntries_file hn]
      simp only [packFile_added calls _ _ za]
      split
      · rfl
      · exact ih ..
  | dir name inside rest ihInside ih =>
      intro za
      by_cases hn : n = some 0
      · rw [hn, addEntries_failed, packEntries_failed]
      rw [addEntries_dir hn, packEntries_dir hn]
      split
      · exact ih ..
      · split
        · rfl
        · -- the entry for the directory is no file
          have hinside := packDir_added calls
            (ihInside (joinName path name.text) (some (joinName (safeStr base) name.text))
              (calls.readdirFails (joinName path name.text)))
            (.directory (joinName (safeStr base) name.text) :: za)
          change libzipArchiveAddDir calls _ _ inside (za.filterMap Member.added?) = _ at hinside
          rw [hinside]
          exact ih ..

/-- The files of the archive are those of libzip_zip without the directories. -/
theorem pack_added (path : String) (target : Target) :
    libzipZip calls path target =
      ((pack calls path target).1, (pack calls path target).2.filterMap Member.added?) := by
  have hclose : ∀ {add pack'}, SameFiles add pack' →
      libzipZip.close calls add =
        ((pack.close calls pack').1, (pack.close calls pack').2.filterMap Member.added?) := by
    intro add pack' h
    have hempty := h []
    unfold libzipZip.close pack.close
    split
    · rfl
    · split
      · rfl
      · split
        · exact congrArg (eUaErr, ·) (congrArg Prod.snd hempty)
        · exact hempty
  unfold libzipZip pack
  split
  · rfl
  · cases target with
    | other => rfl
    | file => exact hclose (packFile_added calls path none)
    | dir entries =>
        exact hclose (packDir_added calls (packEntries_added calls path none _ entries))

end Added

/-- Where no call fails the walk adds all members, one behind the other. -/
theorem packEntries_complete (dirs : List Name) (path : String) (base : Option String)
    (hbase : safeStr base = relative dirs) (n : Option Nat) (entries : Listing)
    (hfine : ¬ AnyFails calls path base n entries) (za : List Member) :
    packEntries calls path base n entries za =
      (eUaOk, (members dirs path entries).reverse ++ za) := by
  induction entries generalizing dirs path base n za with
  | nil =>
      rw [packEntries_nil]
      rfl
  | file name regular rest ih =>
      have hn : n ≠ some 0 := by
        rintro rfl
        exact hfine trivial
      rw [anyFails_file hn, not_or] at hfine
      rw [packEntries_file hn, packFile_of_fine hfine.1, baseName_join, hbase, ← relative_snoc]
      simp only [ne_eq, not_true_eq_false, if_false]
      rw [ih dirs path base hbase _ hfine.2, members, List.reverse_cons, List.append_assoc]
      rfl
  | dir name inside rest ihInside ih =>
      have hn : n ≠ some 0 := by
        rintro rfl
        exact hfine trivial
      rw [anyFails_dir hn, not_or] at hfine
      have hrest := ih dirs path base hbase _ hfine.2
      rw [packEntries_dir hn, members]
      cases hdots : isDots name with
      | true =>
          simp only [if_true, List.nil_append]
          exact hrest za
      | false =>
          have hown := hfine.1
          simp only [hdots, Bool.false_eq_true, not_false_eq_true, true_and, not_or,
            Bool.not_eq_false] at hown
          obtain ⟨hadd, hopen, hwalk⟩ := hown
          have hinside := ihInside (dirs ++ [name]) (joinName path name.text)
            (some (joinName (safeStr base) name.text)) (by rw [relative_snoc, ← hbase]; rfl) _ hwalk
          rw [hbase, ← relative_snoc] at hadd hinside
          simp only [Bool.false_eq_true, if_false, hbase, ← relative_snoc, hadd, not_true_eq_false,
            packDir, hopen, hinside, hrest]
          simp

/-- The archive that libzip_zip makes of a directory when no call fails. -/
theorem pack_complete {path : String} {entries : Listing}
    (hfine : ¬ Fails calls path (.dir entries)) :
    pack calls path (.dir entries) = (eUaOk, (members [] path entries).reverse) := by
  unfold Fails at hfine
  rw [not_or, not_frameFails_iff] at hfine
  obtain ⟨⟨⟨hstat, -⟩, hdir, hopen, hclose⟩, hfine⟩ := hfine
  simp only [not_or, Bool.not_eq_false] at hfine
  have hwalk := packEntries_complete [] path none rfl _ entries hfine.2 []
  simp [pack, pack.close, packDir, hstat, hdir, hopen, hclose, hfine.1, hwalk]

end Walk

section Places

/-- The names that lead to the entries at every depth. -/
def entryNames : Listing → List (List Name)
  | .nil => []
  | .file name _ rest => [name] :: entryNames rest
  | .dir name inside rest =>
      (if isDots name then [] else [name] :: (entryNames inside).map (name :: ·)) ++
        entryNames rest

theorem members_names (dirs : List Name) (path : String) (entries : Listing) :
    (members dirs path entries).map Member.name =
      (entryNames entries).map fun names => relative (dirs ++ names) := by
  induction entries generalizing dirs path with
  | nil => rfl
  | file name regular rest ih =>
      rw [members, entryNames, List.map_cons, List.map_cons, ih]
      rfl
  | dir name inside rest ihInside ih =>
      rw [members, entryNames, List.map_append, List.map_append, ih]
      congr 1
      split
      · rfl
      · rw [List.map_cons, List.map_cons, ihInside, List.map_map]
        simp [Member.name, Function.comp_def]

theorem entryNames_head {entries : Listing} {names : List Name} (h : names ∈ entryNames entries) :
    ∃ name rest, names = name :: rest ∧ name.text ∈ texts entries := by
  induction entries with
  | nil => cases h
  | file name regular rest ih =>
      rw [entryNames, List.mem_cons] at h
      rcases h with rfl | hrest
      · exact ⟨name, [], rfl, List.mem_cons_self⟩
      · obtain ⟨first, others, heq, hmem⟩ := ih hrest
        exact ⟨first, others, heq, List.mem_cons_of_mem _ hmem⟩
  | dir name inside rest _ ih =>
      rw [entryNames, List.mem_append] at h
      rcases h with hhere | hrest
      · refine ⟨name, names.tail, ?_, List.mem_cons_self⟩
        split at hhere
        · cases hhere
        · rcases List.mem_cons.mp hhere with rfl | hinside
          · rfl
          · obtain ⟨others, -, rfl⟩ := List.mem_map.mp hinside
            rfl
      · obtain ⟨first, others, heq, hmem⟩ := ih hrest
        exact ⟨first, others, heq, List.mem_cons_of_mem _ hmem⟩

theorem place_notMem {entries : Listing} {name : Name} (h : name.text ∉ texts entries)
    (names : List Name) : place (name :: names) ∉ (entryNames entries).map place := by
  intro hmem
  obtain ⟨names', hnames', heq⟩ := List.mem_map.mp hmem
  obtain ⟨first, others, rfl, hfirst⟩ := entryNames_head hnames'
  have htext : first.text = name.text := String.toList_inj.mp (List.cons.inj heq).1
  exact h (htext ▸ hfirst)

/-- No two entries have one place. -/
theorem nodup_places {entries : Listing} (h : Proper entries) :
    ((entryNames entries).map place).Nodup := by
  induction entries with
  | nil => exact List.nodup_nil
  | file name regular rest ih =>
      obtain ⟨-, hname, hrest⟩ := h
      rw [entryNames, List.map_cons, List.nodup_cons]
      exact ⟨place_notMem hname [], ih hrest⟩
  | dir name inside rest ihInside ih =>
      obtain ⟨hinside, hname, hrest⟩ := h
      rw [entryNames, List.map_append]
      cases hdots : isDots name with
      | true => simpa using ih hrest
      | false =>
          rw [if_neg Bool.false_ne_true, List.map_cons, List.map_map, List.nodup_append,
            List.nodup_cons]
          have hcons : (place ∘ (name :: ·)) = (name.text.toList :: ·) ∘ place := rfl
          refine ⟨⟨?_, ?_⟩, ih hrest, ?_⟩
          · intro hmem
            obtain ⟨names, hnames, heq⟩ := List.mem_map.mp hmem
            obtain ⟨first, others, rfl, -⟩ := entryNames_head hnames
            cases (List.cons.inj heq).2
          · rw [hcons, ← List.map_map]
            exact (ihInside (hinside hdots)).map fun _ _ heq => (List.cons.inj heq).2
          · intro p hp q hq heq
            subst heq
            rcases List.mem_cons.mp hp with rfl | hmem
            · exact place_notMem hname [] hq
            · obtain ⟨names, -, rfl⟩ := List.mem_map.mp hmem
              exact place_notMem hname names hq

/-- No two members of the archive have one name, so none is written over another. -/
theorem nodup_members {entries : Listing} (h : Proper entries) (path : String) :
    ((members [] path entries).map Member.name).Nodup := by
  rw [members_names]
  refine List.Nodup.map_on ?_ (nodup_places h).of_map
  intro names hnames names' hnames' heq
  obtain ⟨first, others, rfl, -⟩ := entryNames_head hnames
  obtain ⟨first', others', rfl, -⟩ := entryNames_head hnames'
  have hplace := relative_inj (List.cons_ne_nil _ _) (List.cons_ne_nil _ _) heq
  exact List.inj_on_of_nodup_map (nodup_places h) hnames hnames' hplace

theorem fileNames_plain {entries : Listing} (h : Proper entries) {names : List Name}
    (hnames : names ∈ fileNames entries) :
    names ≠ [] ∧ ∀ name ∈ names, isDots name = false := by
  induction entries generalizing names with
  | nil => cases hnames
  | file name regular rest ih =>
      rcases List.mem_cons.mp hnames with rfl | hrest
      · exact ⟨List.cons_ne_nil _ _, by simpa using h.1⟩
      · exact ih h.2.2 hrest
  | dir name inside rest ihInside ih =>
      rcases List.mem_append.mp hnames with hhere | hrest
      · split at hhere
        · cases hhere
        · rename_i hdots
          obtain ⟨others, hothers, rfl⟩ := List.mem_map.mp hhere
          have hname : isDots name = false := by simpa using hdots
          refine ⟨List.cons_ne_nil _ _, fun other hother => ?_⟩
          rcases List.mem_cons.mp hother with rfl | hmem
          · exact hname
          · exact (ihInside (h.1 hname) hothers).2 other hmem
      · exact ih h.2.2 hrest

/-- The path that names lead to from a path, as the walk joins them. -/
def joined (path : String) (names : List Name) : String :=
  names.foldl (fun p name => joinName p name.text) path

theorem resolve_joined (path : String) {names : List Name}
    (h : ∀ name ∈ names, isDots name = false) :
    resolve (joined path names) = resolve path ++ place names := by
  induction names generalizing path with
  | nil => exact (List.append_nil _).symm
  | cons name names ih =>
      have hrest := ih (joinName path name.text) fun n hn => h n (List.mem_cons_of_mem _ hn)
      rw [resolve_name path (h name List.mem_cons_self), List.append_assoc] at hrest
      exact hrest

/-- The files among the members are those that the names lead to. -/
theorem file_mem_members {dirs : List Name} {path : String} {entries : Listing} {added : Added} :
    .file added ∈ members dirs path entries ↔
      ∃ names ∈ fileNames entries, added = ⟨relative (dirs ++ names), joined path names⟩ := by
  induction entries generalizing dirs path with
  | nil => simp [members, fileNames]
  | file name regular rest ih =>
      simp only [members, fileNames, List.mem_cons, Member.file.injEq, ih, exists_eq_or_imp]
      rfl
  | dir name inside rest ihInside ih =>
      rw [members, fileNames, List.mem_append, ih]
      cases hdots : isDots name with
      | true => simp
      | false =>
          simp only [Bool.false_eq_true, if_false, List.mem_cons, reduceCtorEq, false_or, ihInside,
            List.mem_append, List.mem_map, or_and_right, exists_or, exists_exists_and_eq_and,
            List.append_assoc, List.singleton_append]
          rfl

/-- The directories among the members are all those below the root. -/
theorem directory_mem_members {dirs : List Name} {path : String} {entries : Listing}
    {text : String} :
    .directory text ∈ members dirs path entries ↔
      ∃ names ∈ dirNames entries, text = relative (dirs ++ names) := by
  induction entries generalizing dirs path with
  | nil => simp [members, dirNames]
  | file name regular rest ih =>
      rw [members, dirNames, List.mem_cons, ih]
      simp
  | dir name inside rest ihInside ih =>
      rw [members, dirNames, List.mem_append, ih]
      cases hdots : isDots name with
      | true => simp
      | false =>
          simp only [Bool.false_eq_true, if_false, List.mem_cons, Member.directory.injEq, ihInside,
            List.mem_append, List.mem_map, or_and_right, exists_or, exists_exists_and_eq_and,
            List.append_assoc, List.singleton_append, exists_eq_left]

/-- What is in the archive of a directory: the files and the directories at every depth, each
once. -/
structure Packed (root : String) (entries : Listing) (za : List Member) : Prop where
  files : ∀ added, .file added ∈ za ↔
    ∃ names ∈ fileNames entries, added = ⟨relative names, joined root names⟩
  directories : ∀ text, .directory text ∈ za ↔ ∃ names ∈ dirNames entries, text = relative names
  nodup : (za.map Member.name).Nodup

theorem packed_members {entries : Listing} (h : Proper entries) (root : String) :
    Packed root entries (members [] root entries).reverse where
  files added := by
    rw [List.mem_reverse, file_mem_members]
    rfl
  directories text := by
    rw [List.mem_reverse, directory_mem_members]
    rfl
  nodup := by
    rw [List.map_reverse, List.nodup_reverse]
    exact nodup_members h root

end Places

section Contents

variable {buff : BuffSize} {dest : Destination} {files : Files Bytes}

theorem lastAt_eq_some {p : Path} {entries : List (ZipEntry buff)} {sb : ZipEntry buff}
    (h : lastAt dest p entries = some sb) :
    sb ∈ entries ∧ isDirectoryName sb.name = false ∧ resolve (join dest.path sb.name) = p := by
  induction entries with
  | nil => cases h
  | cons first entries ih =>
      rw [lastAt, Option.or_eq_some_iff] at h
      rcases h with hlater | ⟨-, hhere⟩
      · obtain ⟨hmem, hfile⟩ := ih hlater
        exact ⟨List.mem_cons_of_mem _ hmem, hfile⟩
      · split at hhere
        · rename_i hfile
          cases hhere
          exact ⟨List.mem_cons_self, hfile⟩
        · cases hhere

theorem lastAt_eq_none {p : Path} {entries : List (ZipEntry buff)}
    (h : lastAt dest p entries = none) {sb : ZipEntry buff} (hsb : sb ∈ entries)
    (hfile : isDirectoryName sb.name = false) : resolve (join dest.path sb.name) ≠ p := by
  induction entries with
  | nil => cases hsb
  | cons first entries ih =>
      rw [lastAt, Option.or_eq_none_iff] at h
      rcases List.mem_cons.mp hsb with rfl | hlater
      · intro heq
        exact absurd h.2 (by simp [hfile, heq])
      · exact ih h.1 hlater

theorem yields_unique {d : Decoder buff} {bytes bytes' : Bytes} (h : Yields d bytes)
    (h' : Yields d bytes') : bytes = bytes' := by
  obtain ⟨n, hchunks, hend, rfl⟩ := h
  obtain ⟨n', hchunks', hend', rfl⟩ := h'
  have hle : ∀ {m k : Nat}, (∀ j < m, ∃ chunk, d.read j = some chunk ∧ chunk ≠ []) →
      (d.read k = none ∨ d.read k = some []) → m ≤ k := by
    intro m k hm hk
    by_contra hlt
    obtain ⟨chunk, hread, hne⟩ := hm k (Nat.lt_of_not_le hlt)
    rcases hk with hnone | hempty
    · rw [hread] at hnone
      cases hnone
    · rw [hread] at hempty
      exact hne (Option.some.inj hempty)
  rw [Nat.le_antisymm (hle hchunks hend') (hle hchunks' hend)]

theorem declared_of_size {sb : ZipEntry buff} {bytes : Bytes} (hbytes : bytes.length < 2 ^ 63)
    (h : sb.size = UInt64.ofNat bytes.length) : (bytes.length : Int) = sb.declared := by
  have hsigned : (UInt64.ofNat bytes.length).toInt64 = Int64.ofNat bytes.length := rfl
  unfold ZipEntry.declared
  rw [h, hsigned, Int64.toInt_ofNat_of_lt hbytes]

theorem exists_of_forall₂ {α β : Type} {R : α → β → Prop} {l : List α} {l' : List β}
    (h : List.Forall₂ R l l') {a : α} (ha : a ∈ l) : ∃ b ∈ l', R a b := by
  induction h with
  | nil => cases ha
  | cons hab _ ih =>
      rcases List.mem_cons.mp ha with rfl | hmem
      · exact ⟨_, List.mem_cons_self, hab⟩
      · obtain ⟨b, hb, hab'⟩ := ih hmem
        exact ⟨b, List.mem_cons_of_mem _ hb, hab'⟩

/-- A file of an archive that was made of a directory: where it goes, and what it holds. -/
structure FileOf (dest : Destination) (files : Files Bytes) (root q : Path) (sb : ZipEntry buff)
    (bytes : Bytes) : Prop where
  file : isDirectoryName sb.name = false
  goes : resolve (join dest.path sb.name) = resolve dest.path ++ q
  holds : files (root ++ q) = some bytes
  yields : Yields sb.decoder bytes
  size : (bytes.length : Int) = sb.declared

variable {root : String} {entries : Listing} {archive : List (ZipEntry buff)}

theorem fileOf_of_readAs (hlists : Lists files (resolve root) entries) {names : List Name}
    (hnames : names ∈ fileNames entries) {sb : ZipEntry buff}
    (hread : ReadAs files (.file ⟨relative names, joined root names⟩) sb) (dest : Destination) :
    ∃ bytes, FileOf dest files (resolve root) (place names) sb bytes := by
  obtain ⟨hname, bytes, hholds, hsize, hyields⟩ := hread
  obtain ⟨hne, hdots⟩ := fileNames_plain hlists.proper hnames
  rw [resolve_joined root hdots] at hholds
  refine ⟨bytes, ?_, ?_, hholds, hyields, declared_of_size (hlists.sized _ _ hholds) hsize⟩
  · obtain ⟨name, rest, rfl⟩ := List.exists_cons_of_ne_nil hne
    rw [hname]
    exact relative_not_directory name rest
  · rw [hname]
    exact resolve_relative dest.path hne hdots

/-- Every file of the archive is one of the directory. -/
theorem fileOf_of_mem (hlists : Lists files (resolve root) entries)
    (hread : List.Forall₂ (ReadAs files) (members [] root entries) archive) (dest : Destination)
    {sb : ZipEntry buff} (hsb : sb ∈ archive) (hfile : isDirectoryName sb.name = false) :
    ∃ q bytes, FileOf dest files (resolve root) q sb bytes := by
  obtain ⟨member, hmember, hreadAs⟩ := exists_of_forall₂ hread.flip hsb
  cases member with
  | directory name =>
      have hdirectory : isDirectoryName sb.name = true := by
        rw [show sb.name = name ++ "/" from hreadAs]
        exact directory_name name
      rw [hdirectory] at hfile
      cases hfile
  | file added =>
      obtain ⟨names, hnames, rfl⟩ := file_mem_members.mp hmember
      exact ⟨place names, fileOf_of_readAs hlists hnames hreadAs dest⟩

/-- Every file of the directory is one of the archive. -/
theorem mem_of_file (hlists : Lists files (resolve root) entries)
    (hread : List.Forall₂ (ReadAs files) (members [] root entries) archive) (dest : Destination)
    {q : Path} (hq : (files (resolve root ++ q)).isSome) :
    ∃ sb ∈ archive, ∃ bytes, FileOf dest files (resolve root) q sb bytes := by
  obtain ⟨names, hnames, rfl⟩ := (hlists.there q).mpr hq
  have hmember : .file ⟨relative names, joined root names⟩ ∈ members [] root entries :=
    file_mem_members.mpr ⟨names, hnames, rfl⟩
  obtain ⟨sb, hsb, hreadAs⟩ := exists_of_forall₂ hread hmember
  exact ⟨sb, hsb, fileOf_of_readAs hlists hnames hreadAs dest⟩

theorem FileOf.complete {q : Path} {sb : ZipEntry buff} {bytes : Bytes} {root : Path}
    (h : FileOf dest files root q sb bytes) : Complete sb := ⟨bytes, h.yields, h.size⟩

theorem stops_of_complete {sb : ZipEntry buff} (h : Complete sb) : ∃ n, StopsAt sb n := by
  obtain ⟨bytes, ⟨n, -, -, rfl⟩, hsize⟩ := h
  exact ⟨n, .inl hsize⟩

theorem not_early_of_complete {sb : ZipEntry buff} (h : Complete sb) : ¬ FailsEarly sb := by
  obtain ⟨bytes, ⟨n, hchunks, -, rfl⟩, hsize⟩ := h
  rintro ⟨k, hread, hearly⟩
  rcases Nat.lt_or_ge k n with hlt | hge
  · obtain ⟨chunk, hchunk, -⟩ := hchunks k hlt
    rw [hread] at hchunk
    cases hchunk
  · exact hearly n hge hsize

/-- The files of such an archive are complete, so it is sound. -/
theorem archive_complete (hlists : Lists files (resolve root) entries)
    (hread : List.Forall₂ (ReadAs files) (members [] root entries) archive) (dest : Destination)
    {sb : ZipEntry buff} (hsb : sb ∈ archive) (hfile : isDirectoryName sb.name = false) :
    Complete sb := by
  obtain ⟨q, bytes, hof⟩ := fileOf_of_mem hlists hread dest hsb hfile
  exact hof.complete

/-- A path of no entry is left alone by an extraction that succeeds. -/
theorem left_alone {calls : UnzipCalls} {fuel : Nat} {before : Files Bytes} {s' : UnzipState}
    (h : libzipUnzip fuel calls dest archive before = (some eUaOk, s')) {p : Path}
    (hp : lastAt dest p archive = none) : s'.files p = before p := by
  unfold libzipUnzip at h
  split at h
  · exact absurd (Option.some.inj (Prod.mk.inj h).1) eUaErr_ne_ok
  · split at h
    · rename_i rc s₁ hrun
      obtain ⟨hrc, rfl⟩ := Prod.mk.inj h
      have hok : rc = eUaOk := by
        split at hrc
        · exact Option.some.inj hrc
        · exact absurd (Option.some.inj hrc) eUaErr_ne_ok
      subst hok
      have hleft := (extract_ok hrun).2.2 p
      rwa [hp] at hleft
    · cases h

/-- What an extraction that succeeds leaves of such an archive. -/
theorem extracted_files (hlists : Lists files (resolve root) entries)
    (hread : List.Forall₂ (ReadAs files) (members [] root entries) archive) {calls : UnzipCalls}
    {fuel : Nat} {before : Files Bytes} {s' : UnzipState}
    (h : libzipUnzip fuel calls dest archive before = (some eUaOk, s')) :
    s'.files = unpack before (resolve dest.path) (treeAt files (resolve root)) := by
  have hsound : Sound dest archive :=
    ⟨fun sb hsb hfile => stops_of_complete (archive_complete hlists hread dest hsb hfile),
      .inr fun p sb hlast => archive_complete hlists hread dest (lastAt_eq_some hlast).1
        (lastAt_eq_some hlast).2.1⟩
  have hexact := exact_of_ok hsound h
  funext p
  cases hlast : lastAt dest p archive with
  | some sb =>
      obtain ⟨content, hcontent, hyields⟩ := hexact p sb hlast
      obtain ⟨hsb, hfile, hgoes⟩ := lastAt_eq_some hlast
      obtain ⟨q, bytes, hof⟩ := fileOf_of_mem hlists hread dest hsb hfile
      obtain rfl : p = resolve dest.path ++ q := hgoes.symm.trans hof.goes
      rw [hcontent, yields_unique hyields hof.yields]
      simp [unpack, treeAt, hof.holds]
  | none =>
      rw [left_alone h hlast]
      unfold unpack
      split
      · rename_i hbelow
        obtain ⟨q, rfl⟩ := hbelow
        rw [List.drop_left]
        cases hq : treeAt files (resolve root) q with
        | none => rfl
        | some bytes =>
            -- a file of the directory would have an entry
            obtain ⟨sb, hsb, bytes', hof⟩ := mem_of_file hlists hread dest
              (q := q) (by simpa [treeAt] using Option.isSome_of_eq_some hq)
            exact absurd hof.goes (lastAt_eq_none hlast hsb hof.file)
      · rfl

end Contents

section Success

variable {buff : BuffSize} {dest : Destination} {calls : UnzipCalls}

theorem mkdirs_done (hmkdir : ∀ i p, calls.mkdir i p = .done) (i : Nat) (p : Path)
    (cs : List Component) (s : UnzipState) : (mkdirs calls i p cs s).1 = .done := by
  induction cs generalizing p s with
  | nil => rfl
  | cons c cs ih =>
      unfold mkdirs
      split
      · exact ih _ _
      · rw [hmkdir]
        exact ih _ _

/-- The copy of a complete entry succeeds where no write fails. -/
theorem copyLoop_complete {sb : ZipEntry buff} (h : Complete sb) {n fuel : Nat}
    (hstop : StopsAt sb n) (hn : n < fuel) :
    (copyLoop sb (fun _ => .done) fuel 0 []).1 = some eUaOk := by
  obtain ⟨rc, out, hcopy⟩ := copyLoop_ends (fun _ => .done) hstop (Nat.zero_le n)
    (show n < fuel + 0 from hn)
  rw [yielded] at hcopy
  obtain ⟨m, -, hm, hbefore, hsize⟩ := stops_of_ends (k := 0) hcopy
  have hfirst := size_of_not_early (not_early_of_complete h) hm
    fun j hj => hbefore j (Nat.zero_le j) hj
  rw [hcopy]
  by_contra hne
  exact hsize (fun hrc => hne (congrArg some hrc)) hfirst

/-- An undisturbed extraction of an entry succeeds, if it is a directory or a complete file. -/
theorem extractEntry_undisturbed {archive : List (ZipEntry buff)}
    (hcalls : Undisturbed calls dest archive) {sb : ZipEntry buff} (hsb : sb ∈ archive) {fuel : Nat}
    (hfile : isDirectoryName sb.name = false →
      Complete sb ∧ ∃ n, StopsAt sb n ∧ n < fuel) (i : Nat) (s : UnzipState) :
    (extractEntry fuel calls dest i sb s).1 = .ok eUaOk := by
  have hmade := mkdirs_done hcalls.mkdir i []
  unfold extractEntry
  rw [if_neg (by simp [hcalls.zipStatIndex])]
  cases hname : isDirectoryName sb.name with
  | true =>
      have hdone : (mkdirp calls i (join dest.path sb.name) s).1 = .done := hmade _ s
      simp only [if_true, extractDirectory]
      split
      · rename_i hfails
        rw [hfails] at hdone
        cases hdone
      · rfl
  | false =>
      obtain ⟨hcomplete, n, hstop, hn⟩ := hfile hname
      have hdone : (chkdirp calls i (join dest.path sb.name) s).1 = .done := by
        unfold chkdirp
        split
        · rfl
        · exact hmade _ s
      have hwrite : calls.write i = fun _ => .done := funext (hcalls.write i)
      simp only [Bool.false_eq_true, if_false, extractFile, hcalls.zipFopenIndex, Bool.not_true]
      split
      · rw [hcalls.openFile, hcalls.vacant i sb hsb hname]
        simp only [Bool.not_false, Bool.and_self, if_true, copyEntry, hwrite,
          copyLoop_complete hcomplete hstop hn]
      · rename_i hother hchkdir
        rw [hchkdir] at hdone
        exact absurd hdone (by simpa using hother)

/-- An undisturbed extraction of complete files succeeds. -/
theorem extract_undisturbed {archive entries : List (ZipEntry buff)}
    (hcalls : Undisturbed calls dest archive) (hsub : entries ⊆ archive)
    {fuel : Nat} (hfile : ∀ sb ∈ archive, isDirectoryName sb.name = false →
      Complete sb ∧ ∃ n, StopsAt sb n ∧ n < fuel) (i : Nat) (s : UnzipState) :
    (extract fuel calls dest i entries eUaOk s).1 = some eUaOk := by
  induction entries generalizing i s with
  | nil => rfl
  | cons sb entries ih =>
      have hsb := hsub List.mem_cons_self
      have hentry := extractEntry_undisturbed hcalls hsb (hfile sb hsb) i s
      unfold extract
      split
      · rename_i ended s₁ hstep
        rw [hstep] at hentry
        cases hentry
      · rename_i rc s₁ hstep
        rw [hstep] at hentry
        cases hentry
        rw [if_pos rfl]
        exact ih (fun x hx => hsub (List.mem_cons_of_mem _ hx)) _ _

theorem libzipUnzip_undisturbed {archive : List (ZipEntry buff)}
    (hcalls : Undisturbed calls dest archive)
    (hcomplete : ∀ sb ∈ archive, isDirectoryName sb.name = false → Complete sb)
    (before : Files Bytes) :
    ∃ fuel s', libzipUnzip fuel calls dest archive before = (some eUaOk, s') := by
  obtain ⟨fuel, hfuel⟩ := exists_fuel fun sb hsb hfile => stops_of_complete (hcomplete sb hsb hfile)
  have hrun := extract_undisturbed hcalls (List.Subset.refl archive)
    (fun sb hsb hfile => ⟨hcomplete sb hsb hfile, hfuel sb hsb hfile⟩) 0 ⟨before, []⟩
  refine ⟨fuel, (extract fuel calls dest 0 archive eUaOk ⟨before, []⟩).2, ?_⟩
  unfold libzipUnzip
  rw [if_neg (by simp [hcalls.zipOpen])]
  split
  · rename_i rc s₁ hext
    rw [hext] at hrun
    cases hrun
    rw [if_pos hcalls.zipClose, hext]
  · rename_i s₁ hext
    rw [hext] at hrun
    cases hrun

end Success

section RoundTrip

variable {buff : BuffSize} {zipCalls : ZipCalls} {root : String} {entries : Listing}
variable {files : Files Bytes} {archive : List (ZipEntry buff)}

/-- A directory that libzip_zip packs without a failing call comes out of the archive as it was.
The archive has every file and every directory once; an extraction that reports success has put the
files of the directory below its destination and left every other file alone, whatever the answers
to its calls were; and an undisturbed extraction comes to its end and reports success. -/
theorem packed_and_unpacked (hfine : ¬ Fails zipCalls root (.dir entries))
    (hlists : Lists files (resolve root) entries)
    (hread : ReadsBack files (pack zipCalls root (.dir entries)).2 archive) (dest : Destination) :
    libzipZip zipCalls root (.dir entries) =
        (eUaOk, (pack zipCalls root (.dir entries)).2.filterMap Member.added?) ∧
      Packed root entries (pack zipCalls root (.dir entries)).2 ∧
      (∀ fuel calls before s',
        libzipUnzip fuel calls dest archive before = (some eUaOk, s') →
          s'.files = unpack before (resolve dest.path) (treeAt files (resolve root))) ∧
      ∀ calls, Undisturbed calls dest archive → ∀ before, ∃ fuel s',
        libzipUnzip fuel calls dest archive before = (some eUaOk, s') := by
  have hpack := pack_complete hfine
  rw [ReadsBack, hpack, List.reverse_reverse] at hread
  rw [pack_added, hpack]
  refine ⟨rfl, packed_members hlists.proper root,
    fun fuel calls before s' => extracted_files hlists hread, ?_⟩
  intro calls hcalls before
  exact libzipUnzip_undisturbed hcalls
    (fun sb hsb hfile => archive_complete hlists hread dest hsb hfile) before

/-- The calls of a run of libzip_zip in which nothing fails. -/
def nothingFails : ZipCalls where
  stat := true
  chkdirp := true
  zipOpen := true
  opendir := fun _ => true
  readdirFails := fun _ => none
  zipSourceFile := fun _ => true
  zipFileAdd := fun _ => true
  zipAddDir := fun _ => true
  zipClose := true

def nameB : Name := ⟨"b", by decide, by decide⟩

def nameDot : Name := ⟨".", by decide, by decide⟩

/-- The file "b", and the file "a" of the directory "a". -/
def sampleListing : Listing :=
  .dir nameDot .nil (.file nameB true (.dir nameA (.file nameA true .nil) .nil))

def sampleFiles : Files Bytes := fun p =>
  if p = [['d'], ['b']] then some [1, 2, 3]
  else if p = [['d'], ['a'], ['a']] then some [1, 2, 3]
  else none

/-- What is read of the archive of the directory. -/
def sampleArchive : List (ZipEntry defaultBuffSize) :=
  [⟨"b", 3, threeBytes⟩, ⟨"a/", 0, threeBytes⟩, ⟨"a/a", 3, threeBytes⟩]

theorem threeBytes_yields : Yields threeBytes [1, 2, 3] := by
  refine ⟨1, fun j hj => ⟨[1, 2, 3], ?_, by decide⟩, .inr rfl, rfl⟩
  obtain rfl : j = 0 := by omega
  rfl

theorem sampleListing_lists : Lists sampleFiles (resolve "/d") sampleListing where
  proper := by
    refine ⟨fun h => absurd h (by decide), by decide, by decide, by decide, ?_, by decide, trivial⟩
    exact fun _ => ⟨by decide, by decide, trivial⟩
  there := by
    intro q
    have hroot : resolve "/d" = [['d']] := by decide
    have hnames : fileNames sampleListing = [[nameB], [nameA, nameA]] := rfl
    rw [hroot, hnames]
    constructor
    · rintro ⟨names, hmem, rfl⟩
      rcases List.mem_cons.mp hmem with rfl | hmem
      · decide
      · obtain rfl := List.mem_singleton.mp hmem
        decide
    · intro h
      unfold sampleFiles at h
      split at h
      · rename_i heq
        exact ⟨[nameB], List.mem_cons_self, (List.cons.inj heq).2.symm⟩
      · split at h
        · rename_i heq
          exact ⟨[nameA, nameA], by simp, (List.cons.inj heq).2.symm⟩
        · cases h
  sized := by
    intro q bytes h
    unfold sampleFiles at h
    split at h
    · cases h
      decide
    · split at h
      · cases h
        decide
      · cases h

theorem nothingFails_fine : ¬ Fails nothingFails "/d" (.dir sampleListing) := by
  simp [Fails, FrameFails, AnyFails, FileFails, nothingFails, sampleListing]

theorem sampleArchive_readsBack :
    ReadsBack sampleFiles (pack nothingFails "/d" (.dir sampleListing)).2 sampleArchive := by
  have hpack : (pack nothingFails "/d" (.dir sampleListing)).2.reverse =
      [.file ⟨"b", "/d/b"⟩, .directory "a", .file ⟨"a/a", "/d/a/a"⟩] := by decide
  rw [ReadsBack, hpack]
  refine .cons ⟨rfl, [1, 2, 3], by decide, rfl, threeBytes_yields⟩ (.cons rfl (.cons ?_ .nil))
  exact ⟨rfl, [1, 2, 3], by decide, rfl, threeBytes_yields⟩

theorem allSucceed_undisturbed (dest : Destination) :
    Undisturbed allSucceed dest sampleArchive where
  zipOpen := rfl
  zipStatIndex _ := rfl
  zipFopenIndex _ := rfl
  mkdir _ _ := rfl
  openFile _ := rfl
  write _ _ := rfl
  zipClose := rfl
  vacant _ _ _ _ := rfl

theorem packed_and_unpacked_example :
    libzipZip nothingFails "/d" (.dir sampleListing) =
        (eUaOk, [⟨"a/a", "/d/a/a"⟩, ⟨"b", "/d/b"⟩]) ∧
      Packed "/d" sampleListing (pack nothingFails "/d" (.dir sampleListing)).2 ∧
      ∃ fuel s', libzipUnzip fuel allSucceed ⟨"/ca", by decide⟩ sampleArchive (fun _ => none) =
          (some eUaOk, s') ∧
        s'.files = unpack (fun _ => none) (resolve "/ca") (treeAt sampleFiles (resolve "/d")) := by
  obtain ⟨hzip, hpacked, hleaves, hends⟩ := packed_and_unpacked nothingFails_fine
    sampleListing_lists sampleArchive_readsBack ⟨"/ca", by decide⟩
  obtain ⟨fuel, s', hrun⟩ := hends allSucceed (allSucceed_undisturbed _) fun _ => none
  exact ⟨hzip.trans (by decide), hpacked, fuel, s', hrun, hleaves fuel allSucceed _ s' hrun⟩

end RoundTrip

end EsyncUa.ArchiveRoundTrips
