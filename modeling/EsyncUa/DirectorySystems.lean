import Mathlib.Data.List.Infix

/-!
Directories that are found and made by the texts of their paths. Slashes separate names, and as
many as one likes; a new directory is empty. What `stat` and `mkdir` do besides is left open.
Making the missing directories of some paths, one after the other, ends well exactly if all of
them are directories afterwards.
-/
namespace EsyncUa.DirectorySystems

abbrev Text := List UInt8

abbrev Name := List UInt8

def slash : UInt8 := 47

/-- The names of a path. -/
def names (path : Text) : List Name := (path.splitOn slash).filter (· ≠ [])

/-- Neither the directory itself nor the one it is in. -/
def Plain (name : Name) : Prop := name ≠ [46] ∧ name ≠ [46, 46]

/-- The paths to the directories on the way, from the shortest to the longest. -/
def prefixesFrom (front : List Name) : List Name → List (List Name)
  | [] => []
  | name :: rest => (front ++ [name]) :: prefixesFrom (front ++ [name]) rest

def prefixes (path : Text) : List (List Name) := prefixesFrom [] (names path)

/-- What `stat` says of the path with some names, and what `mkdir` makes of a tree; `none` is a
failure, which leaves the tree as it is. -/
structure DirectorySystem (Tree : Type) where
  isDirectory : Tree → List Name → Bool
  mkdir : Nat → Tree → Text → Option Tree
  root : ∀ tree, isDirectory tree [] = true
  parent : ∀ tree path name, isDirectory tree (path ++ [name]) = true →
    isDirectory tree path = true
  mkdir_makes : ∀ mode tree path tree', mkdir mode tree path = some tree' →
    isDirectory tree' (names path) = true
  mkdir_keeps : ∀ mode tree path tree', mkdir mode tree path = some tree' →
    ∀ other, isDirectory tree other = true → isDirectory tree' other = true
  mkdir_empty : ∀ mode tree path tree', mkdir mode tree path = some tree' →
    ∀ name, Plain name → isDirectory tree' (names path ++ [name]) = false

/-- What making directories returns, the paths that were given to `mkdir`, in this order, and the
tree afterwards. -/
structure Outcome (Tree : Type) where
  rc : Int
  attempts : List Text
  tree : Tree

/-- An outcome after some other attempts. -/
def Outcome.after {Tree : Type} (attempts : List Text) (out : Outcome Tree) : Outcome Tree :=
  { out with attempts := attempts ++ out.attempts }

section Names

@[simp] theorem names_nil : names [] = [] := rfl

theorem names_append_slash (front rest : Text) :
    names (front ++ slash :: rest) = names front ++ names rest := by
  unfold names
  rw [List.splitOn_append_cons_self, List.filter_append]

theorem names_of_noSlash {name : Text} (hname : name ≠ []) (h : slash ∉ name) :
    names name = [name] := by
  unfold names
  rw [List.splitOn_eq_singleton h]
  simp [hname]

theorem names_slashes_append (count : Nat) (rest : Text) :
    names (List.replicate count slash ++ rest) = names rest := by
  induction count with
  | zero => rfl
  | succ count ih =>
    rw [List.replicate_succ, List.cons_append, ← List.nil_append (slash :: _),
      names_append_slash, ih]
    rfl

theorem names_append_slashes (path : Text) (count : Nat) :
    names (path ++ List.replicate count slash) = names path := by
  cases count with
  | zero => rw [List.replicate_zero, List.append_nil]
  | succ count =>
    have hslashes := names_slashes_append count []
    rw [List.append_nil] at hslashes
    rw [List.replicate_succ, names_append_slash, hslashes, names_nil, List.append_nil]

end Names

section Prefixes

theorem mem_prefixesFrom {front path : List Name} {p : List Name} :
    p ∈ prefixesFrom front path ↔ ∃ q, q ≠ [] ∧ q <+: path ∧ p = front ++ q := by
  induction path generalizing front with
  | nil =>
    constructor
    · exact fun h => absurd h (by simp [prefixesFrom])
    · rintro ⟨q, hne, hq, -⟩
      exact absurd (List.prefix_nil.mp hq) hne
  | cons name rest ih =>
    rw [prefixesFrom, List.mem_cons, ih]
    constructor
    · rintro (rfl | ⟨q, -, hq, rfl⟩)
      · exact ⟨[name], by simp, List.prefix_append [name] rest, rfl⟩
      · exact ⟨name :: q, by simp, (List.prefix_cons_inj name).mpr hq, by simp⟩
    · rintro ⟨q, hne, hq, rfl⟩
      cases q with
      | nil => exact absurd rfl hne
      | cons first q =>
        obtain ⟨rfl, hrest⟩ := List.cons_prefix_cons.mp hq
        by_cases hnil : q = []
        · exact .inl (by rw [hnil])
        · exact .inr ⟨q, hnil, hrest, by simp⟩

theorem mem_prefixes {path : Text} {p : List Name} :
    p ∈ prefixes path ↔ p ≠ [] ∧ p <+: names path := by
  rw [prefixes, mem_prefixesFrom]
  simp

/-- Each of the paths has more names than the ones before. -/
theorem prefixesFrom_increasing (front path : List Name) :
    (prefixesFrom front path).Pairwise fun p q => p.length < q.length := by
  induction path generalizing front with
  | nil => exact .nil
  | cons name rest ih =>
    refine .cons ?_ (ih (front ++ [name]))
    intro p hp
    obtain ⟨q, hne, -, rfl⟩ := mem_prefixesFrom.mp hp
    have hpos := List.length_pos_iff.mpr hne
    simp only [List.length_append]
    omega

end Prefixes

namespace DirectorySystem

variable {Tree : Type} (system : DirectorySystem Tree) (mode : Nat)

/-- A directory is left alone, anything else is given to `mkdir`. -/
def make (path : Text) (tree : Tree) : Outcome Tree :=
  if system.isDirectory tree (names path) then ⟨0, [], tree⟩
  else
    match system.mkdir mode tree path with
    | some tree => ⟨0, [path], tree⟩
    | none => ⟨-1, [path], tree⟩

/-- One path after the other, up to the first that cannot be made. -/
def makeAll : List Text → Tree → Outcome Tree
  | [], tree => ⟨0, [], tree⟩
  | path :: rest, tree =>
      let out := system.make mode path tree
      if out.rc ≠ 0 then out else (makeAll rest out.tree).after out.attempts

theorem make_cases (path : Text) (tree : Tree) :
    system.isDirectory tree (names path) = true ∧ system.make mode path tree = ⟨0, [], tree⟩ ∨
      system.isDirectory tree (names path) = false ∧
        ((∃ tree', system.mkdir mode tree path = some tree' ∧
            system.make mode path tree = ⟨0, [path], tree'⟩) ∨
          system.make mode path tree = ⟨-1, [path], tree⟩) := by
  unfold make
  split
  · rename_i hdirectory
    exact .inl ⟨hdirectory, rfl⟩
  · rename_i hmissing
    refine .inr ⟨Bool.eq_false_iff.mpr hmissing, ?_⟩
    cases hmkdir : system.mkdir mode tree path with
    | none => exact .inr rfl
    | some tree' => exact .inl ⟨tree', rfl, rfl⟩

theorem make_keeps {path : Text} {tree : Tree} {other : List Name}
    (h : system.isDirectory tree other = true) :
    system.isDirectory (system.make mode path tree).tree other = true := by
  rcases system.make_cases mode path tree with
    ⟨-, hmake⟩ | ⟨-, ⟨tree', hmkdir, hmake⟩ | hmake⟩
  · rwa [hmake]
  · rw [hmake]
    exact system.mkdir_keeps mode tree path tree' hmkdir other h
  · rwa [hmake]

theorem make_rc_eq_zero_iff (path : Text) (tree : Tree) :
    (system.make mode path tree).rc = 0 ↔
      system.isDirectory (system.make mode path tree).tree (names path) = true := by
  rcases system.make_cases mode path tree with
    ⟨hdirectory, hmake⟩ | ⟨hmissing, ⟨tree', hmkdir, hmake⟩ | hmake⟩
  · simp [hmake, hdirectory]
  · simp [hmake, system.mkdir_makes mode tree path tree' hmkdir]
  · simp [hmake, hmissing]

theorem make_attempts_sublist (path : Text) (tree : Tree) :
    (system.make mode path tree).attempts.Sublist [path] := by
  rcases system.make_cases mode path tree with
    ⟨-, hmake⟩ | ⟨-, ⟨tree', -, hmake⟩ | hmake⟩
  · rw [hmake]
    exact List.nil_sublist _
  · rw [hmake]
  · rw [hmake]

variable {system mode}

theorem makeAll_cons (path : Text) (rest : List Text) (tree : Tree) :
    system.makeAll mode (path :: rest) tree =
      if (system.make mode path tree).rc ≠ 0 then system.make mode path tree
      else (system.makeAll mode rest (system.make mode path tree).tree).after
        (system.make mode path tree).attempts := rfl

theorem makeAll_keeps {paths : List Text} {tree : Tree} {other : List Name}
    (h : system.isDirectory tree other = true) :
    system.isDirectory (system.makeAll mode paths tree).tree other = true := by
  induction paths generalizing tree with
  | nil => exact h
  | cons path rest ih =>
    rw [makeAll_cons]
    split
    · exact system.make_keeps mode h
    · exact ih (system.make_keeps mode h)

/-- All is made exactly if every path leads to a directory afterwards. -/
theorem makeAll_rc_eq_zero_iff (paths : List Text) (tree : Tree) :
    (system.makeAll mode paths tree).rc = 0 ↔ ∀ path ∈ paths,
      system.isDirectory (system.makeAll mode paths tree).tree (names path) = true := by
  induction paths generalizing tree with
  | nil => exact ⟨fun _ => by simp, fun _ => rfl⟩
  | cons path rest ih =>
    have hmade := system.make_rc_eq_zero_iff mode path tree
    rw [makeAll_cons]
    by_cases hrc : (system.make mode path tree).rc = 0
    · rw [if_neg (not_not_intro hrc), List.forall_mem_cons]
      have hfirst : system.isDirectory (system.makeAll mode rest
          (system.make mode path tree).tree).tree (names path) = true :=
        makeAll_keeps (hmade.mp hrc)
      exact (ih _).trans ⟨fun h => ⟨hfirst, h⟩, And.right⟩
    · rw [if_pos hrc]
      refine ⟨fun h => absurd h hrc, fun h => ?_⟩
      exact absurd (hmade.mpr (h path List.mem_cons_self)) hrc

/-- The paths are attempted in their order. -/
theorem makeAll_attempts_sublist (paths : List Text) (tree : Tree) :
    (system.makeAll mode paths tree).attempts.Sublist paths := by
  induction paths generalizing tree with
  | nil => exact .slnil
  | cons path rest ih =>
    have hfirst := system.make_attempts_sublist mode path tree
    rw [makeAll_cons]
    split
    · exact hfirst.trans (List.singleton_sublist.mpr List.mem_cons_self)
    · exact hfirst.append (ih _)

/-- A path is attempted exactly if all before it were made and it is missing then. -/
theorem mem_attempts_iff {front rest : List Text} {path : Text} {tree : Tree}
    (hfresh : path ∉ front ++ rest) :
    path ∈ (system.makeAll mode (front ++ path :: rest) tree).attempts ↔
      (system.makeAll mode front tree).rc = 0 ∧
        system.isDirectory (system.makeAll mode front tree).tree (names path) = false := by
  induction front generalizing tree with
  | nil =>
    have hrest : path ∉ (system.makeAll mode rest (system.make mode path tree).tree).attempts :=
      fun h => hfresh ((makeAll_attempts_sublist rest _).subset h)
    rw [List.nil_append, makeAll_cons]
    rcases system.make_cases mode path tree with
      ⟨hdirectory, hmake⟩ | ⟨hmissing, ⟨tree', -, hmake⟩ | hmake⟩
    · rw [hmake] at hrest ⊢
      simp [makeAll, Outcome.after, hrest, hdirectory]
    · rw [hmake]
      simp [makeAll, Outcome.after, hmissing]
    · rw [hmake]
      simp [makeAll, hmissing]
  | cons first front ih =>
    have hne : path ≠ first := fun h => hfresh (by simp [h])
    have hattempts : path ∉ (system.make mode first tree).attempts := by
      intro hmem
      have hsingle := (system.make_attempts_sublist mode first tree).subset hmem
      exact hne (List.mem_singleton.mp hsingle)
    rw [List.cons_append, makeAll_cons, makeAll_cons]
    by_cases hrc : (system.make mode first tree).rc = 0
    · rw [if_neg (not_not_intro hrc), if_neg (not_not_intro hrc)]
      simp only [Outcome.after, List.mem_append, hattempts, false_or]
      exact ih fun h => hfresh (List.mem_cons_of_mem first h)
    · rw [if_pos hrc, if_pos hrc]
      exact ⟨fun h => absurd h hattempts, fun h => absurd h.1 hrc⟩

/-- After a failure the last attempt has made no directory, and those before it have. -/
theorem makeAll_failed {paths : List Text} {tree : Tree}
    (hrc : (system.makeAll mode paths tree).rc ≠ 0) :
    ∃ made last, (system.makeAll mode paths tree).attempts = made ++ [last] ∧
      system.isDirectory (system.makeAll mode paths tree).tree (names last) = false ∧
      ∀ path ∈ made,
        system.isDirectory (system.makeAll mode paths tree).tree (names path) = true := by
  induction paths generalizing tree with
  | nil => exact absurd rfl hrc
  | cons first rest ih =>
    have hfirst := system.make_rc_eq_zero_iff mode first tree
    rw [makeAll_cons] at hrc ⊢
    by_cases hmake : (system.make mode first tree).rc = 0
    · rw [if_neg (not_not_intro hmake)] at hrc ⊢
      obtain ⟨made, last, hattempts, hlast, hmade⟩ := ih hrc
      refine ⟨(system.make mode first tree).attempts ++ made, last, ?_, hlast, ?_⟩
      · rw [Outcome.after, hattempts, List.append_assoc]
      · intro path hpath
        rcases List.mem_append.mp hpath with hpath | hpath
        · have hsame : path = first := by
            have hsingle := (system.make_attempts_sublist mode first tree).subset hpath
            exact List.mem_singleton.mp hsingle
          rw [hsame]
          exact makeAll_keeps (hfirst.mp hmake)
        · exact hmade path hpath
    · rw [if_pos hmake]
      rcases system.make_cases mode first tree with
        ⟨-, hout⟩ | ⟨hmissing, ⟨tree', -, hout⟩ | hout⟩
      · exact absurd (by rw [hout]) hmake
      · exact absurd (by rw [hout]) hmake
      · rw [hout]
        exact ⟨[], first, rfl, hmissing, by simp⟩

/-- The directories on the way to a directory. -/
theorem parents {tree : Tree} {front rest : List Name}
    (h : system.isDirectory tree (front ++ rest) = true) :
    system.isDirectory tree front = true := by
  induction rest using List.reverseRecOn with
  | nil => rwa [List.append_nil] at h
  | append_singleton rest name ih =>
    rw [← List.append_assoc] at h
    exact ih (system.parent tree (front ++ rest) name h)

/-- Without a directory there are none further on the way. -/
theorem missing_of_mem_prefixesFrom {tree : Tree} {front path p : List Name}
    (hfront : system.isDirectory tree front = false) (hp : p ∈ prefixesFrom front path) :
    system.isDirectory tree p = false := by
  obtain ⟨rest, -, -, rfl⟩ := mem_prefixesFrom.mp hp
  rw [Bool.eq_false_iff] at hfront ⊢
  exact fun hdirectory => hfront (parents hdirectory)

/-- From the first missing directory of a plain way on all are attempted, up to a failure. -/
theorem attempts_of_missing {paths : List Text} {tree : Tree} {front path : List Name}
    (hpaths : paths.map names = prefixesFrom front path) (hplain : ∀ name ∈ path, Plain name)
    (hnext : ∀ name ∈ path.head?, system.isDirectory tree (front ++ [name]) = false) :
    (system.makeAll mode paths tree).attempts <+: paths ∧
      ((system.makeAll mode paths tree).rc = 0 →
        (system.makeAll mode paths tree).attempts = paths) := by
  induction path generalizing paths tree front with
  | nil =>
    rw [prefixesFrom, List.map_eq_nil_iff] at hpaths
    subst hpaths
    exact ⟨List.nil_prefix, fun _ => rfl⟩
  | cons name rest ih =>
    rw [prefixesFrom, List.map_eq_cons_iff] at hpaths
    obtain ⟨first, paths, rfl, hfirst, hpaths⟩ := hpaths
    obtain ⟨-, hrest⟩ := List.forall_mem_cons.mp hplain
    rw [makeAll_cons]
    rcases system.make_cases mode first tree with
      ⟨hdirectory, -⟩ | ⟨-, ⟨tree', hmkdir, hmake⟩ | hmake⟩
    · rw [hfirst, hnext name rfl] at hdirectory
      cases hdirectory
    · have hnext' : ∀ next ∈ rest.head?,
          system.isDirectory tree' ((front ++ [name]) ++ [next]) = false := by
        intro next hnext
        rw [← hfirst]
        exact system.mkdir_empty mode tree first tree' hmkdir next
          (hrest next (List.mem_of_mem_head? hnext))
      obtain ⟨hinitial, hall⟩ := ih hpaths hrest hnext'
      rw [hmake, if_neg (not_not_intro rfl)]
      refine ⟨(List.prefix_append_right_inj [first]).mpr hinitial, fun hrc => ?_⟩
      exact congrArg (first :: ·) (hall hrc)
    · have hfails : (-1 : Int) ≠ 0 := by decide
      rw [hmake, if_pos hfails]
      exact ⟨List.prefix_append [first] paths, fun hrc => absurd hrc hfails⟩

/-- On a plain way the missing directories are attempted, up to a failure. -/
theorem attempts_of_plain {paths : List Text} {tree : Tree} {front path : List Name}
    (hpaths : paths.map names = prefixesFrom front path) (hplain : ∀ name ∈ path, Plain name) :
    (system.makeAll mode paths tree).attempts <+:
        paths.filter (fun p => !system.isDirectory tree (names p)) ∧
      ((system.makeAll mode paths tree).rc = 0 → (system.makeAll mode paths tree).attempts =
        paths.filter (fun p => !system.isDirectory tree (names p))) := by
  induction path generalizing paths front with
  | nil =>
    rw [prefixesFrom, List.map_eq_nil_iff] at hpaths
    subst hpaths
    exact ⟨List.nil_prefix, fun _ => rfl⟩
  | cons name rest ih =>
    by_cases hname : system.isDirectory tree (front ++ [name]) = true
    · rw [prefixesFrom, List.map_eq_cons_iff] at hpaths
      obtain ⟨first, paths, rfl, hfirst, hpaths⟩ := hpaths
      obtain ⟨-, hrest⟩ := List.forall_mem_cons.mp hplain
      have hdirectory : system.isDirectory tree (names first) = true := by rw [hfirst, hname]
      have hmake : system.make mode first tree = ⟨0, [], tree⟩ := if_pos hdirectory
      rw [makeAll_cons, hmake, if_neg (not_not_intro rfl),
        List.filter_cons_of_neg (by rw [hdirectory]; decide)]
      exact ih hpaths hrest
    · have hmissing : system.isDirectory tree (front ++ [name]) = false :=
        Bool.eq_false_iff.mpr hname
      have hall : paths.filter (fun p => !system.isDirectory tree (names p)) = paths := by
        apply List.filter_eq_self.mpr
        intro p hp
        have hmem : names p ∈ prefixesFrom front (name :: rest) :=
          hpaths ▸ List.mem_map_of_mem hp
        rw [prefixesFrom, List.mem_cons] at hmem
        rcases hmem with hfirst | hlater
        · rw [hfirst, hmissing]
          rfl
        · rw [missing_of_mem_prefixesFrom hmissing hlater]
          rfl
      rw [hall]
      refine attempts_of_missing hpaths hplain fun next hnext => ?_
      rw [← Option.some.inj hnext, hmissing]

end DirectorySystem

/-- The directories and the other files below a root, without links. -/
structure DirectoryTree where
  directories : List (List Name)
  files : List (List Name)
  writable : List Name → Bool
  closed : ∀ path name, path ++ [name] ∈ directories → path = [] ∨ path ∈ directories

namespace DirectoryTree

variable (tree : DirectoryTree)

theorem closed_cons {path : List Name} (hpath : path = [] ∨ path ∈ tree.directories) (new : Name) :
    ∀ front name, front ++ [name] ∈ (path ++ [new]) :: tree.directories →
      front = [] ∨ front ∈ (path ++ [new]) :: tree.directories := by
  intro front name hmem
  rcases List.mem_cons.mp hmem with hnew | hold
  · rw [(List.append_inj_left' hnew rfl : front = path)]
    exact hpath.imp_right (List.mem_cons_of_mem _)
  · exact (tree.closed front name hold).imp_right (List.mem_cons_of_mem _)

def enter (path : List Name) (name : Name) : Option (List Name) :=
  if name = [46] then some path
  else if name = [46, 46] then some path.dropLast
  else if path ++ [name] ∈ tree.directories then some (path ++ [name])
  else none

/-- The directory that some names lead to. -/
def walk (path : List Name) : Option (List Name) := path.foldlM tree.enter []

/-- A new directory in one that may be written. -/
def addDirectory (path : List Name) (name : Name) : Option DirectoryTree :=
  if path ++ [name] ∈ tree.directories ∨ path ++ [name] ∈ tree.files ∨ !tree.writable path then none
  else if hpath : path = [] ∨ path ∈ tree.directories then
    some { tree with
      directories := (path ++ [name]) :: tree.directories
      closed := tree.closed_cons hpath name }
  else none

def mkdir (path : Text) : Option DirectoryTree :=
  match (names path).getLast? with
  | none => none
  | some name =>
      if name = [46] ∨ name = [46, 46] then none
      else (tree.walk (names path).dropLast).bind fun parent => tree.addDirectory parent name

variable {tree} {tree' : DirectoryTree}

theorem walk_append (path : List Name) (name : Name) :
    tree.walk (path ++ [name]) = (tree.walk path).bind fun front => tree.enter front name := by
  unfold walk
  rw [List.foldlM_append]
  cases path.foldlM tree.enter [] <;> simp

theorem enter_of_subset (hsubset : tree.directories ⊆ tree'.directories) {path out : List Name}
    {name : Name} (h : tree.enter path name = some out) : tree'.enter path name = some out := by
  unfold enter at h ⊢
  by_cases hdot : name = [46]
  · rwa [if_pos hdot] at h ⊢
  by_cases hdots : name = [46, 46]
  · rwa [if_neg hdot, if_pos hdots] at h ⊢
  rw [if_neg hdot, if_neg hdots] at h ⊢
  split at h
  · rename_i hmem
    rwa [if_pos (hsubset hmem)]
  · cases h

theorem walk_of_subset (hsubset : tree.directories ⊆ tree'.directories) {path out : List Name}
    (h : tree.walk path = some out) : tree'.walk path = some out := by
  induction path using List.reverseRecOn generalizing out with
  | nil => exact h
  | append_singleton path name ih =>
    rw [walk_append, Option.bind_eq_some_iff] at h ⊢
    obtain ⟨front, hfront, henter⟩ := h
    exact ⟨front, ih hfront, enter_of_subset hsubset henter⟩

/-- What a successful `mkdir` does. -/
theorem mkdir_eq_some {path : Text} (h : tree.mkdir path = some tree') :
    ∃ front name parent, names path = front ++ [name] ∧ Plain name ∧
      tree.walk front = some parent ∧ parent ++ [name] ∉ tree.directories ∧
      (parent = [] ∨ parent ∈ tree.directories) ∧
      tree'.directories = (parent ++ [name]) :: tree.directories := by
  unfold mkdir at h
  split at h
  · cases h
  · rename_i name hlast
    split at h
    · cases h
    · rename_i hplain
      obtain ⟨parent, hwalk, hadd⟩ := Option.bind_eq_some_iff.mp h
      unfold addDirectory at hadd
      split at hadd
      · cases hadd
      · rename_i hnew
        split at hadd
        · rename_i hparent
          cases hadd
          exact ⟨(names path).dropLast, name, parent,
            (List.dropLast_append_getLast? name hlast).symm, not_or.mp hplain, hwalk,
            fun hmem => hnew (.inl hmem), hparent, rfl⟩
        · cases hadd

theorem walk_mkdir {path : Text} (h : tree.mkdir path = some tree') :
    ∃ out, tree'.walk (names path) = some out ∧ out ≠ [] ∧ out ∉ tree.directories ∧
      tree'.directories = out :: tree.directories := by
  obtain ⟨front, name, parent, hnames, hplain, hwalk, hnew, -, hdirectories⟩ := mkdir_eq_some h
  refine ⟨parent ++ [name], ?_, by simp, hnew, hdirectories⟩
  have hsubset : tree.directories ⊆ tree'.directories := by
    rw [hdirectories]
    exact List.subset_cons_self _ _
  have hmem : parent ++ [name] ∈ tree'.directories := by
    rw [hdirectories]
    exact List.mem_cons_self
  rw [hnames, walk_append, walk_of_subset hsubset hwalk, Option.bind_some, enter,
    if_neg hplain.1, if_neg hplain.2, if_pos hmem]

theorem walk_below_new {path : Text} (h : tree.mkdir path = some tree') {name : Name}
    (hplain : Plain name) : tree'.walk (names path ++ [name]) = none := by
  obtain ⟨out, hwalk, hne, hnew, hdirectories⟩ := walk_mkdir h
  have hbelow : out ++ [name] ∉ tree'.directories := by
    rw [hdirectories, List.mem_cons]
    rintro (hsame | hold)
    · have hlength := congrArg List.length hsame
      simp at hlength
    · rcases tree.closed out name hold with hroot | hmem
      · exact hne hroot
      · exact hnew hmem
  rw [walk_append, hwalk, Option.bind_some, enter, if_neg hplain.1, if_neg hplain.2,
    if_neg hbelow]

/-- Such trees are directory systems. -/
def system : DirectorySystem DirectoryTree where
  isDirectory tree path := (tree.walk path).isSome
  mkdir _ tree path := tree.mkdir path
  root _ := rfl
  parent tree path name h := by
    rw [walk_append, Option.isSome_bind] at h
    cases hwalk : tree.walk path with
    | none => simp [hwalk] at h
    | some out => rfl
  mkdir_makes _ tree path tree' h := by
    obtain ⟨out, hwalk, -⟩ := walk_mkdir h
    rw [hwalk]
    rfl
  mkdir_keeps _ tree path tree' h other hother := by
    obtain ⟨out, -, -, -, hdirectories⟩ := walk_mkdir h
    obtain ⟨found, hfound⟩ := Option.isSome_iff_exists.mp hother
    have hsubset : tree.directories ⊆ tree'.directories := by
      rw [hdirectories]
      exact List.subset_cons_self _ _
    rw [walk_of_subset hsubset hfound]
    rfl
  mkdir_empty _ tree path tree' h name hplain := by
    rw [walk_below_new h hplain]
    rfl

end DirectoryTree

end EsyncUa.DirectorySystems
