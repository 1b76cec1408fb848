import EsyncUa.Components
import Mathlib.Data.List.Basic

/-!
`libzip_zip`, which walks a directory and adds what it finds to an archive. The directory is a
tree of what readdir hands out, and each call may fail. What a nested call of the walk returns
is not looked at.
-/
namespace EsyncUa.ArchiveWalks

open EsyncUa.JsonProperties EsyncUa.Components

/-- The name of an entry of a directory. -/
structure Name where
  text : String
  nonempty : text ≠ ""
  plain : '/' ∉ text.toList

/-- The entries of a directory in the order of readdir; what is not a directory may be a regular
file. -/
inductive Listing
  | nil
  | file (name : Name) (regular : Bool) (rest : Listing)
  | dir (name : Name) (inside : Listing) (rest : Listing)

/-- What stat finds at the path that is to be zipped. -/
inductive Target
  | file
  | dir (entries : Listing)
  | other

/-- How the calls of one run of libzip_zip end; `readdirFails` has the number of the call for an
entry that fails. -/
structure ZipCalls where
  stat : Bool
  chkdirp : Bool
  zipOpen : Bool
  opendir : String → Bool
  readdirFails : String → Option Nat
  zipSourceFile : String → Bool
  zipFileAdd : String → Bool
  zipAddDir : String → Bool
  zipClose : Bool

/-- A file in the archive, with its name there and the path it was added from. -/
structure Added where
  name : String
  path : String
  deriving DecidableEq

/-- `JOIN(a, b)` with an `a` that is there. -/
def joinName (path name : String) : String := joinParts path [some name]

/-- `SAFE_STR`. -/
def safeStr (s : Option String) : String := s.getD ""

section Walk

variable (calls : ZipCalls)

/-- libzip_archive_add_file. -/
def libzipArchiveAddFile (path : String) (base : Option String) (za : List Added) :
    Rc × List Added :=
  let file := joinName (safeStr base) (baseName path)
  if ¬ calls.zipSourceFile path then (eUaErr, za)
  else if ¬ calls.zipFileAdd path then (eUaErr, za)
  else (eUaOk, ⟨file, path⟩ :: za)

def isDots (name : Name) : Bool := name.text = "." || name.text = ".."

/-- The loop of libzip_archive_add_dir over the entries that readdir still hands out. -/
def addEntries (path : String) (base : Option String) :
    Option Nat → Listing → List Added → Rc × List Added
  | some 0, _, za => (eUaOk, za)
  | _, .nil, za => (eUaOk, za)
  | n, .file name _ rest, za =>
      let added := libzipArchiveAddFile calls (joinName path name.text) base za
      if added.1 ≠ eUaOk then added
      else addEntries path base (n.map Nat.pred) rest added.2
  | n, .dir name inside rest, za =>
      let filepath := joinName path name.text
      let basepath := joinName (safeStr base) name.text
      if isDots name then addEntries path base (n.map Nat.pred) rest za
      else if ¬ calls.zipAddDir basepath then (eUaErr, za)
      else
        let walked :=
          if ¬ calls.opendir filepath then (eUaErr, za)
          else addEntries filepath (some basepath) (calls.readdirFails filepath) inside za
        addEntries path base (n.map Nat.pred) rest walked.2

/-- libzip_archive_add_dir. -/
def libzipArchiveAddDir (path : String) (base : Option String) (entries : Listing)
    (za : List Added) : Rc × List Added :=
  if ¬ calls.opendir path then (eUaErr, za)
  else addEntries calls path base (calls.readdirFails path) entries za

/-- libzip_zip; the archive is the one that zip_open created. -/
def libzipZip (path : String) (target : Target) : Rc × List Added :=
  if ¬ calls.stat then (eUaSys, [])
  else
    match target with
    | .other => (eUaErr, [])
    | .file => close (libzipArchiveAddFile calls path none)
    | .dir entries => close (libzipArchiveAddDir calls path none entries)
where
  /-- The part of libzip_zip from the preparation of the archive to its end. -/
  close (add : List Added → Rc × List Added) : Rc × List Added :=
    if ¬ calls.chkdirp then (eUaSys, [])
    else if ¬ calls.zipOpen then (eUaErr, [])
    else if ¬ calls.zipClose then (eUaErr, (add []).2)
    else add []

end Walk

section Purpose

/-- The path of an entry relative to the root. -/
def relative (names : List Name) : String := "/".intercalate (names.map Name.text)

/-- The regular files at every depth, with their paths relative to the root and their paths. -/
def regularFiles (dirs : List Name) (path : String) : Listing → List Added
  | .nil => []
  | .file name regular rest =>
      (if regular then [⟨relative (dirs ++ [name]), joinName path name.text⟩] else []) ++
        regularFiles dirs path rest
  | .dir name inside rest =>
      (if isDots name then []
        else regularFiles (dirs ++ [name]) (joinName path name.text) inside) ++
        regularFiles dirs path rest

/-- A file whose content or whose entry is refused. -/
def FileFails (calls : ZipCalls) (path : String) : Prop :=
  calls.zipSourceFile path = false ∨ calls.zipFileAdd path = false

/-- A call for an entry of the directory itself fails, among those that readdir hands out. -/
def OwnFails (calls : ZipCalls) (path : String) (base : Option String) :
    Option Nat → Listing → Prop
  | some 0, _ => False
  | _, .nil => False
  | n, .file name _ rest =>
      FileFails calls (joinName path name.text) ∨ OwnFails calls path base (n.map Nat.pred) rest
  | n, .dir name _ rest =>
      (¬ isDots name ∧ calls.zipAddDir (joinName (safeStr base) name.text) = false) ∨
        OwnFails calls path base (n.map Nat.pred) rest

/-- A call fails, at any depth. -/
def AnyFails (calls : ZipCalls) (path : String) (base : Option String) :
    Option Nat → Listing → Prop
  | some 0, _ => True
  | _, .nil => False
  | n, .file name _ rest =>
      FileFails calls (joinName path name.text) ∨ AnyFails calls path base (n.map Nat.pred) rest
  | n, .dir name inside rest =>
      let filepath := joinName path name.text
      let basepath := joinName (safeStr base) name.text
      (¬ isDots name ∧ (calls.zipAddDir basepath = false ∨ calls.opendir filepath = false ∨
        AnyFails calls filepath (some basepath) (calls.readdirFails filepath) inside)) ∨
        AnyFails calls path base (n.map Nat.pred) rest

/-- A call before the entries are added, or the one that closes the archive, fails; or the path
is neither a file nor a directory. -/
def FrameFails (calls : ZipCalls) (target : Target) : Prop :=
  calls.stat = false ∨ target = .other ∨ calls.chkdirp = false ∨ calls.zipOpen = false ∨
    calls.zipClose = false

/-- A call for the path itself or an entry of it fails. -/
def OuterFails (calls : ZipCalls) (path : String) (target : Target) : Prop :=
  FrameFails calls target ∨
    match target with
    | .other => False
    | .file => FileFails calls path
    | .dir entries =>
        calls.opendir path = false ∨ OwnFails calls path none (calls.readdirFails path) entries

/-- A call fails. -/
def Fails (calls : ZipCalls) (path : String) (target : Target) : Prop :=
  FrameFails calls target ∨
    match target with
    | .other => False
    | .file => FileFails calls path
    | .dir entries =>
        calls.opendir path = false ∨ AnyFails calls path none (calls.readdirFails path) entries

/-- What is to be in the archive. -/
def wanted (path : String) : Target → List Added
  | .other => []
  | .file => [⟨baseName path, path⟩]
  | .dir entries => regularFiles [] path entries

/-- libzip_zip succeeds only with every regular file in the archive, and a failure at any depth
makes it return an error. -/
def Zips (calls : ZipCalls) (path : String) (target : Target) : Prop :=
  ((libzipZip calls path target).1 = eUaOk →
      ∀ file ∈ wanted path target, file ∈ (libzipZip calls path target).2) ∧
    (Fails calls path target → (libzipZip calls path target).1 ≠ eUaOk)

end Purpose

section Names

theorem joinName_eq (path name : String) :
    joinName path name =
      path ++ (if path.toList.getLast?.all (· = '/') then "" else "/") ++ name := by
  simp [joinName, joinParts]

/-- A text that ends in something other than a slash. -/
def EndsPlain (s : String) : Prop := ∃ c, s.toList.getLast? = some c ∧ c ≠ '/'

theorem EndsPlain.append {s : String} (h : EndsPlain s) (before : String) :
    EndsPlain (before ++ s) := by
  obtain ⟨c, hlast, hc⟩ := h
  refine ⟨c, ?_, hc⟩
  rw [String.toList_append, List.getLast?_append, hlast, Option.some_or]

theorem Name.toList_ne_nil (name : Name) : name.text.toList ≠ [] :=
  fun h => name.nonempty (String.toList_eq_nil_iff.mp h)

theorem Name.endsPlain (name : Name) : EndsPlain name.text := by
  refine ⟨name.text.toList.getLast name.toList_ne_nil,
    List.getLast?_eq_getLast_of_ne_nil name.toList_ne_nil, fun h => ?_⟩
  exact name.plain (h ▸ List.getLast_mem name.toList_ne_nil)

theorem joinName_plain {path : String} (h : EndsPlain path) (name : String) :
    joinName path name = path ++ "/" ++ name := by
  obtain ⟨c, hlast, hc⟩ := h
  rw [joinName_eq, hlast]
  simp [hc]

/-- Behind a slash, or alone, a name is the last component. -/
theorem baseName_append (before : String) (hbefore : before.toList.getLast?.all (· = '/') = true)
    (name : Name) : baseName (before ++ name.text) = name.text := by
  obtain ⟨c, hlast, hc⟩ := name.endsPlain
  have hrev : name.text.toList.reverse = c :: name.text.toList.reverse.tail := by
    rw [← List.head?_reverse] at hlast
    exact (List.cons_head?_tail hlast).symm
  have hall : ∀ d ∈ name.text.toList.reverse, (d ≠ '/' : Bool) = true := by
    intro d hd
    rw [decide_eq_true_eq]
    rintro rfl
    exact name.plain (List.mem_reverse.mp hd)
  have htake : (name.text.toList.reverse ++ before.toList.reverse).takeWhile (· ≠ '/') =
      name.text.toList.reverse := by
    rw [List.takeWhile_append_of_pos hall]
    rw [← List.head?_reverse] at hbefore
    cases hback : before.toList.reverse with
    | nil => simp
    | cons d ds =>
        rw [hback] at hbefore
        have hd : d = '/' := by simpa using hbefore
        simp [hd]
  have hchars : (before ++ name.text).toList.reverse =
      c :: (name.text.toList.reverse.tail ++ before.toList.reverse) := by
    rw [String.toList_append, List.reverse_append, hrev]
    rfl
  have hdrop : ((before ++ name.text).toList.reverse).dropWhile (· = '/') =
      c :: (name.text.toList.reverse.tail ++ before.toList.reverse) := by
    rw [hchars, List.dropWhile_cons_of_neg (by simpa using hc)]
  rw [hrev, List.cons_append] at htake
  unfold baseName
  simp only [hdrop]
  rw [hchars]
  simp only [htake]
  rw [← hrev, List.reverse_reverse, String.ofList_toList]

/-- The last component of what was joined is the name. -/
theorem baseName_join (path : String) (name : Name) :
    baseName (joinName path name.text) = name.text := by
  rw [joinName_eq]
  apply baseName_append
  by_cases hslash : path.toList.getLast?.all (· = '/') = true
  · rwa [if_pos hslash, String.append_empty]
  · rw [if_neg hslash, String.toList_append, List.getLast?_append]
    rfl

theorem relative_cons_cons (d e : Name) (dirs : List Name) :
    relative (d :: e :: dirs) = d.text ++ "/" ++ relative (e :: dirs) :=
  String.intercalate_cons_cons

theorem relative_singleton (name : Name) : relative [name] = name.text :=
  String.intercalate_singleton

theorem relative_plain (d : Name) (dirs : List Name) : EndsPlain (relative (d :: dirs)) := by
  induction dirs generalizing d with
  | nil =>
      rw [relative_singleton]
      exact d.endsPlain
  | cons e dirs ih =>
      rw [relative_cons_cons]
      exact (ih e).append _

theorem relative_snoc (dirs : List Name) (name : Name) :
    relative (dirs ++ [name]) = joinName (relative dirs) name.text := by
  cases dirs with
  | nil =>
      rw [List.nil_append, relative_singleton]
      simp [joinName_eq, relative]
  | cons d dirs =>
      induction dirs generalizing d with
      | nil =>
          rw [joinName_plain (relative_plain d []), relative_singleton]
          exact (relative_cons_cons d name []).trans (by rw [relative_singleton])
      | cons e dirs ih =>
          have htail := ih e
          rw [joinName_plain (relative_plain e dirs)] at htail
          rw [joinName_plain (relative_plain d (e :: dirs)), relative_cons_cons]
          show relative (d :: e :: (dirs ++ [name])) = _
          rw [relative_cons_cons]
          show d.text ++ "/" ++ relative ((e :: dirs) ++ [name]) = _
          rw [htail]
          simp only [String.append_assoc]

end Names

section Walks

variable {calls : ZipCalls}

/-- Adding a file succeeds, and adds it, unless one of its calls fails. -/
theorem addFile_cases (calls : ZipCalls) (path : String) (base : Option String) (za : List Added) :
    (FileFails calls path ∧ libzipArchiveAddFile calls path base za = (eUaErr, za)) ∨
      (¬ FileFails calls path ∧ libzipArchiveAddFile calls path base za =
        (eUaOk, ⟨joinName (safeStr base) (baseName path), path⟩ :: za)) := by
  cases hsource : calls.zipSourceFile path with
  | false =>
      left
      exact ⟨.inl hsource, by simp [libzipArchiveAddFile, hsource]⟩
  | true =>
      cases hadd : calls.zipFileAdd path with
      | false =>
          left
          exact ⟨.inr hadd, by simp [libzipArchiveAddFile, hsource, hadd]⟩
      | true =>
          right
          refine ⟨?_, by simp [libzipArchiveAddFile, hsource, hadd]⟩
          rintro (hnot | hnot)
          · rw [hsource] at hnot
            cases hnot
          · rw [hadd] at hnot
            cases hnot

section Equations

variable {path : String} {base : Option String} {n : Option Nat} (hn : n ≠ some 0) {name : Name}
variable {regular : Bool} {inside rest entries : Listing} {za : List Added}

theorem addEntries_failed : addEntries calls path base (some 0) entries za = (eUaOk, za) := by
  cases entries <;> rfl

theorem addEntries_nil : addEntries calls path base n .nil za = (eUaOk, za) := by
  rcases n with _ | _ | n <;> rfl

include hn

theorem addEntries_file : addEntries calls path base n (.file name regular rest) za =
    let added := libzipArchiveAddFile calls (joinName path name.text) base za
    if added.1 ≠ eUaOk then added
    else addEntries calls path base (n.map Nat.pred) rest added.2 := by
  rcases n with _ | _ | n
  · rfl
  · exact absurd rfl hn
  · rfl

theorem addEntries_dir : addEntries calls path base n (.dir name inside rest) za =
    if isDots name then addEntries calls path base (n.map Nat.pred) rest za
    else if ¬ calls.zipAddDir (joinName (safeStr base) name.text) then (eUaErr, za)
    else addEntries calls path base (n.map Nat.pred) rest
      (libzipArchiveAddDir calls (joinName path name.text)
        (some (joinName (safeStr base) name.text)) inside za).2 := by
  rcases n with _ | _ | n
  · rfl
  · exact absurd rfl hn
  · rfl

theorem ownFails_file : OwnFails calls path base n (.file name regular rest) ↔
    FileFails calls (joinName path name.text) ∨ OwnFails calls path base (n.map Nat.pred) rest := by
  rcases n with _ | _ | n
  · rfl
  · exact absurd rfl hn
  · rfl

theorem ownFails_dir : OwnFails calls path base n (.dir name inside rest) ↔
    (¬ isDots name ∧ calls.zipAddDir (joinName (safeStr base) name.text) = false) ∨
      OwnFails calls path base (n.map Nat.pred) rest := by
  rcases n with _ | _ | n
  · rfl
  · exact absurd rfl hn
  · rfl

theorem anyFails_file : AnyFails calls path base n (.file name regular rest) ↔
    FileFails calls (joinName path name.text) ∨ AnyFails calls path base (n.map Nat.pred) rest := by
  rcases n with _ | _ | n
  · rfl
  · exact absurd rfl hn
  · rfl

theorem anyFails_dir : AnyFails calls path base n (.dir name inside rest) ↔
    (¬ isDots name ∧ (calls.zipAddDir (joinName (safeStr base) name.text) = false ∨
      calls.opendir (joinName path name.text) = false ∨
      AnyFails calls (joinName path name.text) (some (joinName (safeStr base) name.text))
        (calls.readdirFails (joinName path name.text)) inside)) ∨
      AnyFails calls path base (n.map Nat.pred) rest := by
  rcases n with _ | _ | n
  · rfl
  · exact absurd rfl hn
  · rfl

end Equations

theorem not_ownFails_failed (path : String) (base : Option String) (entries : Listing) :
    ¬ OwnFails calls path base (some 0) entries := by
  cases entries <;> exact id

/-- The loop succeeds unless a call for an entry of its own directory fails. -/
theorem addEntries_ok_iff (path : String) (base : Option String) (n : Option Nat)
    (entries : Listing) (za : List Added) :
    (addEntries calls path base n entries za).1 = eUaOk ↔ ¬ OwnFails calls path base n entries := by
  induction entries generalizing n za with
  | nil =>
      rw [addEntries_nil]
      rcases n with _ | _ | n <;> exact ⟨fun _ => id, fun _ => rfl⟩
  | file name regular rest ih =>
      by_cases hn : n = some 0
      · rw [hn, addEntries_failed]
        exact ⟨fun _ => not_ownFails_failed path base _, fun _ => rfl⟩
      rw [addEntries_file hn, ownFails_file hn]
      rcases addFile_cases calls (joinName path name.text) base za with
        ⟨hfails, heq⟩ | ⟨hfine, heq⟩
      · simp [heq, hfails]
      · simp [heq, hfine, ih]
  | dir name inside rest _ ih =>
      by_cases hn : n = some 0
      · rw [hn, addEntries_failed]
        exact ⟨fun _ => not_ownFails_failed path base _, fun _ => rfl⟩
      rw [addEntries_dir hn, ownFails_dir hn]
      by_cases hdots : isDots name = true
      · simp [hdots, ih]
      · cases hadd : calls.zipAddDir (joinName (safeStr base) name.text) with
        | false => simp [hdots]
        | true => simp [hdots, ih]

/-- What is in the archive stays there. -/
theorem addEntries_subset (path : String) (base : Option String) (n : Option Nat)
    (entries : Listing) (za : List Added) : za ⊆ (addEntries calls path base n entries za).2 := by
  induction entries generalizing path base n za with
  | nil =>
      rw [addEntries_nil]
      exact List.Subset.refl za
  | file name regular rest ih =>
      by_cases hn : n = some 0
      · rw [hn, addEntries_failed]
        exact List.Subset.refl za
      rw [addEntries_file hn]
      rcases addFile_cases calls (joinName path name.text) base za with
        ⟨-, heq⟩ | ⟨-, heq⟩
      · simp [heq]
      · simp only [heq, ne_eq, not_true_eq_false, if_false]
        exact List.Subset.trans (List.subset_cons_self _ _) (ih ..)
  | dir name inside rest ihInside ih =>
      by_cases hn : n = some 0
      · rw [hn, addEntries_failed]
        exact List.Subset.refl za
      rw [addEntries_dir hn]
      split
      · exact ih ..
      · split
        · exact List.Subset.refl za
        · refine List.Subset.trans ?_ (ih ..)
          unfold libzipArchiveAddDir
          split
          · exact List.Subset.refl za
          · exact ihInside ..

/-- Where no call fails every regular file is added. -/
theorem addEntries_complete (dirs : List Name) (path : String) (base : Option String)
    (hbase : safeStr base = relative dirs) (n : Option Nat) (entries : Listing)
    (hfine : ¬ AnyFails calls path base n entries) (za : List Added) :
    ∀ file ∈ regularFiles dirs path entries,
      file ∈ (addEntries calls path base n entries za).2 := by
  induction entries generalizing dirs path base n za with
  | nil =>
      intro file hfile
      cases hfile
  | file name regular rest ih =>
      have hn : n ≠ some 0 := by
        rintro rfl
        exact hfine trivial
      rw [anyFails_file hn] at hfine
      have hrest := ih dirs path base hbase _ (fun h => hfine (.inr h))
      rcases addFile_cases calls (joinName path name.text) base za with
        ⟨hfails, -⟩ | ⟨-, heq⟩
      · exact absurd (.inl hfails) hfine
      rw [addEntries_file hn]
      simp only [heq, ne_eq, not_true_eq_false, if_false]
      intro file hfile
      rcases List.mem_append.mp hfile with hhere | hlater
      · have hfile : file = ⟨joinName (safeStr base) (baseName (joinName path name.text)),
            joinName path name.text⟩ := by
          rw [baseName_join, hbase, ← relative_snoc]
          cases regular with
          | false => cases hhere
          | true => exact List.mem_singleton.mp hhere
        exact addEntries_subset _ _ _ _ _ (hfile ▸ List.mem_cons_self)
      · exact hrest _ file hlater
  | dir name inside rest ihInside ih =>
      have hn : n ≠ some 0 := by
        rintro rfl
        exact hfine trivial
      rw [anyFails_dir hn] at hfine
      have hrest := ih dirs path base hbase _ (fun h => hfine (.inr h))
      rw [addEntries_dir hn]
      intro file hfile
      rcases List.mem_append.mp hfile with hhere | hlater
      · by_cases hdots : isDots name = true
        · rw [if_pos hdots] at hhere
          cases hhere
        · rw [if_neg hdots] at hhere
          have hadd : calls.zipAddDir (joinName (safeStr base) name.text) = true := by
            by_contra hadd
            exact hfine (.inl ⟨hdots, .inl (Bool.not_eq_true _ ▸ hadd)⟩)
          have hopen : calls.opendir (joinName path name.text) = true := by
            by_contra hopen
            exact hfine (.inl ⟨hdots, .inr (.inl (Bool.not_eq_true _ ▸ hopen))⟩)
          have hinside := ihInside (dirs ++ [name]) (joinName path name.text)
            (some (joinName (safeStr base) name.text)) (by rw [relative_snoc, ← hbase]; rfl) _
            (fun h => hfine (.inl ⟨hdots, .inr (.inr h)⟩)) za file hhere
          rw [if_neg hdots, if_neg (not_not_intro hadd), libzipArchiveAddDir,
            if_neg (not_not_intro hopen)]
          exact addEntries_subset _ _ _ _ _ hinside
      · split
        · exact hrest _ file hlater
        · rename_i hdots
          split
          · rename_i hadd
            rw [Bool.not_eq_true] at hadd
            exact absurd (.inl ⟨hdots, .inl hadd⟩) hfine
          · exact hrest _ file hlater

theorem sys_ne_ok : eUaSys ≠ eUaOk := by decide

/-- The archive is closed in the end, whatever was added. -/
theorem close_ok_iff (add : List Added → Rc × List Added) :
    (libzipZip.close calls add).1 = eUaOk ↔
      (calls.chkdirp = true ∧ calls.zipOpen = true ∧ calls.zipClose = true) ∧
        (add []).1 = eUaOk := by
  unfold libzipZip.close
  cases calls.chkdirp <;> cases calls.zipOpen <;> cases calls.zipClose <;>
    simp [sys_ne_ok]

theorem close_added (add : List Added → Rc × List Added) (hdir : calls.chkdirp = true)
    (hopen : calls.zipOpen = true) : (libzipZip.close calls add).2 = (add []).2 := by
  unfold libzipZip.close
  cases calls.zipClose <;> simp [hdir, hopen]

theorem not_frameFails_iff (target : Target) :
    ¬ FrameFails calls target ↔ (calls.stat = true ∧ target ≠ .other) ∧
      (calls.chkdirp = true ∧ calls.zipOpen = true ∧ calls.zipClose = true) := by
  unfold FrameFails
  simp only [not_or, Bool.not_eq_false]
  exact ⟨fun ⟨a, b, c, d, e⟩ => ⟨⟨a, b⟩, c, d, e⟩, fun ⟨⟨a, b⟩, c, d, e⟩ => ⟨a, b, c, d, e⟩⟩

theorem addDir_ok_iff (path : String) (base : Option String) (entries : Listing)
    (za : List Added) :
    (libzipArchiveAddDir calls path base entries za).1 = eUaOk ↔
      ¬ (calls.opendir path = false ∨
        OwnFails calls path base (calls.readdirFails path) entries) := by
  unfold libzipArchiveAddDir
  cases hopen : calls.opendir path with
  | false => simp
  | true => simp [addEntries_ok_iff]

theorem addFile_ok_iff (path : String) (base : Option String) (za : List Added) :
    (libzipArchiveAddFile calls path base za).1 = eUaOk ↔ ¬ FileFails calls path := by
  rcases addFile_cases calls path base za with ⟨hfails, heq⟩ | ⟨hfine, heq⟩
  · simp [heq, hfails]
  · simp [heq, hfine]

/-- libzip_zip succeeds unless a call for the path itself or an entry of it fails. -/
theorem libzipZip_ok_iff (path : String) (target : Target) :
    (libzipZip calls path target).1 = eUaOk ↔ ¬ OuterFails calls path target := by
  unfold OuterFails libzipZip
  rw [not_or, not_frameFails_iff]
  cases hstat : calls.stat with
  | false => simp [sys_ne_ok]
  | true =>
      cases target with
      | other => simp
      | file => simp [close_ok_iff, addFile_ok_iff]
      | dir entries => simp [close_ok_iff, addDir_ok_iff]

/-- Where no call fails every regular file is in the archive. -/
theorem libzipZip_complete (path : String) (target : Target) (hfine : ¬ Fails calls path target) :
    ∀ file ∈ wanted path target, file ∈ (libzipZip calls path target).2 := by
  unfold Fails at hfine
  rw [not_or, not_frameFails_iff] at hfine
  obtain ⟨⟨⟨hstat, -⟩, hdir, hopen, -⟩, hfine⟩ := hfine
  intro file hfile
  unfold libzipZip
  rw [if_neg (not_not_intro hstat)]
  cases target with
  | other => cases hfile
  | file =>
      rcases addFile_cases calls path none [] with ⟨hfails, -⟩ | ⟨-, heq⟩
      · exact absurd hfails hfine
      · rw [close_added _ hdir hopen, heq]
        have hname : joinName (safeStr none) (baseName path) = baseName path := by
          simp [joinName_eq, safeStr]
        rw [hname]
        exact hfile
  | dir entries =>
      rw [close_added _ hdir hopen, libzipArchiveAddDir]
      have hthere : calls.opendir path = true := by
        by_contra hthere
        exact hfine (.inl (Bool.not_eq_true _ ▸ hthere))
      rw [if_neg (not_not_intro hthere)]
      exact addEntries_complete [] path none rfl _ entries (fun h => hfine (.inr h)) [] file hfile

/-- A directory in which the one directory below cannot be opened. -/
def closedInside : ZipCalls where
  stat := true
  chkdirp := true
  zipOpen := true
  opendir := fun path => path = "/d"
  readdirFails := fun _ => none
  zipSourceFile := fun _ => true
  zipFileAdd := fun _ => true
  zipAddDir := fun _ => true
  zipClose := true

def nameA : Name := ⟨"a", by decide, by decide⟩

end Walks

end EsyncUa.ArchiveWalks
