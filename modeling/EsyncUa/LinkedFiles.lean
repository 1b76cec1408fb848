import EsyncUa.FilePaths

/-!
Files and symbolic links at paths. A text is walked one component after another, and where a
link is found the walk goes on with the link's own text. Opening a path follows its last
component as well; an entry is removed where the path names it, link or not.
-/
namespace EsyncUa.LinkedFiles

open FilePaths

inductive Entry (β : Type)
  | file (content : β)
  | link (target : String)

/-- The files and links of a disk; a directory holds nothing of its own. -/
abbrev Tree (β : Type) := Files (Entry β)

section Walk

variable {β : Type} (tree : Tree β)

def fileAt (p : Path) : Option β :=
  match tree p with
  | some (.file content) => some content
  | _ => none

def linkAt (p : Path) : Option String :=
  match tree p with
  | some (.link target) => some target
  | _ => none

/-- A component that names an entry of the directory it is looked up in. -/
def Named (c : Component) : Prop := c ≠ [] ∧ c ≠ ['.'] ∧ c ≠ ['.', '.']

instance (c : Component) : Decidable (Named c) := inferInstanceAs (Decidable (_ ∧ _))

/-- Where a link goes on from: the root if its text is absolute. -/
def origin (here : Path) (target : String) : Path :=
  if target.toList.head? = some '/' then [] else here

/-- The walk up to the first link, after which it goes on with `again`. -/
def walkTo (again : Path → List Component → Option Path) :
    Path → List Component → Option Path
  | here, [] => some here
  | here, c :: rest =>
      if Named c then
        match linkAt tree (here ++ [c]) with
        | some target => again (origin here target) (components target ++ rest)
        | none => walkTo again (here ++ [c]) rest
      else walkTo again (enter here c) rest

/-- The walk with a number of links that it may follow. -/
def walk : Nat → Path → List Component → Option Path
  | 0 => walkTo tree fun _ _ => none
  | n + 1 => walkTo tree (walk n)

def maxLinks : Nat := 40

/-- The place that opening a path leads to. -/
def place (path : String) : Option Path := walk tree maxLinks [] (components path)

/-- The entry that a path names in its directory. -/
def spot (path : String) : Option Path :=
  (walk tree maxLinks [] (components path).dropLast).map
    fun here => enter here ((components path).getLastD [])

/-- The content that reading a path gives. -/
def content (path : String) : Option β := (place tree path).bind (fileAt tree)

/-- Where writing or removing at a path has its effect. -/
def leads (path : String) : List Path := (place tree path).toList ++ (spot tree path).toList

/-- The path leads nowhere into the directory. -/
def Outside (dir : Path) (path : String) : Prop := ∀ q ∈ leads tree path, ¬ dir <+: q

/-- The path leads nowhere into the directory and to nothing above it. -/
def Beside (dir : Path) (path : String) : Prop :=
  ∀ q ∈ leads tree path, ¬ dir <+: q ∧ ¬ q <+: dir

instance (dir : Path) (path : String) : Decidable (Outside tree dir path) :=
  inferInstanceAs (Decidable (∀ q ∈ leads tree path, ¬ dir <+: q))

instance (dir : Path) (path : String) : Decidable (Beside tree dir path) :=
  inferInstanceAs (Decidable (∀ q ∈ leads tree path, ¬ dir <+: q ∧ ¬ q <+: dir))

/-- A file is written at the place a path leads to. -/
def store (path : String) (content : Option β) : Tree β :=
  match place tree path with
  | some p => write tree p (content.map .file)
  | none => tree

/-- The entry that a path names is removed. -/
def unlink (path : String) : Tree β :=
  match spot tree path with
  | some p => write tree p none
  | none => tree

/-- The directory that a path leads to is emptied, and the entry of that name removed; a
directory that is not there counts as an empty one. -/
def removeDir (path : String) : Tree β :=
  match place tree path with
  | some p => if (fileAt tree p).isSome then tree else removeTree (unlink tree path) p
  | none => tree

end Walk

variable {β : Type} {tree : Tree β}

theorem linkAt_of_none {p : Path} (h : tree p = none) : linkAt tree p = none := by rw [linkAt, h]

theorem linkAt_congr {tree' : Tree β} {p : Path} (h : tree' p = tree p) :
    linkAt tree' p = linkAt tree p := by rw [linkAt, linkAt, h]

theorem fileAt_congr {tree' : Tree β} {p : Path} (h : tree' p = tree p) :
    fileAt tree' p = fileAt tree p := by rw [fileAt, fileAt, h]

theorem walkTo_special {again : Path → List Component → Option Path} {here : Path}
    {c : Component} {rest : List Component} (h : ¬ Named c) :
    walkTo tree again here (c :: rest) = walkTo tree again (enter here c) rest := by
  rw [walkTo, if_neg h]

theorem walkTo_link {again : Path → List Component → Option Path} {here : Path} {c : Component}
    {rest : List Component} {target : String} (hc : Named c)
    (h : linkAt tree (here ++ [c]) = some target) :
    walkTo tree again here (c :: rest) =
      again (origin here target) (components target ++ rest) := by
  rw [walkTo, if_pos hc, h]

theorem walkTo_plain {again : Path → List Component → Option Path} {here : Path} {c : Component}
    {rest : List Component} (hc : Named c) (h : linkAt tree (here ++ [c]) = none) :
    walkTo tree again here (c :: rest) = walkTo tree again (here ++ [c]) rest := by
  rw [walkTo, if_pos hc, h]

/-- No link lies on the way that named components take from a place. -/
def Unlinked (tree : Tree β) (dir : Path) : Prop := ∀ q, dir <+: q → linkAt tree q = none

theorem Unlinked.congr {tree' : Tree β} {dir : Path} (h : Unlinked tree dir)
    (hsame : ∀ q, dir <+: q → tree' q = tree q) : Unlinked tree' dir :=
  fun q hq => (linkAt_congr (hsame q hq)).trans (h q hq)

theorem walkTo_unlinked (again : Path → List Component → Option Path) {dir here : Path}
    {cs : List Component} (h : Unlinked tree dir) (hhere : dir <+: here)
    (hcs : ∀ c ∈ cs, Named c) : walkTo tree again here cs = some (here ++ cs) := by
  induction cs generalizing here with
  | nil => simp [walkTo]
  | cons c cs ih =>
      have hnext : dir <+: here ++ [c] := hhere.trans (List.prefix_append _ _)
      rw [walkTo_plain (hcs c List.mem_cons_self) (h _ hnext),
        ih hnext fun c' hc' => hcs c' (List.mem_cons_of_mem _ hc')]
      simp

/-- A walk goes on from the place it has come to. -/
theorem walk_append {n : Nat} {here dir : Path} {cs names : List Component}
    (hwalk : walk tree n here cs = some dir) (h : Unlinked tree dir)
    (hnames : ∀ c ∈ names, Named c) : walk tree n here (cs ++ names) = some (dir ++ names) := by
  have hgo : ∀ {again : Path → List Component → Option Path},
      (∀ {here : Path} {cs : List Component}, again here cs = some dir →
        again here (cs ++ names) = some (dir ++ names)) →
      ∀ {here : Path} {cs : List Component}, walkTo tree again here cs = some dir →
        walkTo tree again here (cs ++ names) = some (dir ++ names) := by
    intro again hagain here cs hwalk
    induction cs generalizing here with
    | nil =>
        obtain rfl : here = dir := Option.some.inj hwalk
        exact walkTo_unlinked again h (List.prefix_refl _) hnames
    | cons c cs ih =>
        rw [List.cons_append]
        by_cases hc : Named c
        · cases hlink : linkAt tree (here ++ [c]) with
          | none =>
              rw [walkTo_plain hc hlink] at hwalk ⊢
              exact ih hwalk
          | some target =>
              rw [walkTo_link hc hlink] at hwalk ⊢
              rw [← List.append_assoc]
              exact hagain hwalk
        · rw [walkTo_special hc] at hwalk ⊢
          exact ih hwalk
  induction n generalizing here cs with
  | zero => exact hgo (fun hnone => by cases hnone) hwalk
  | succ n ih => exact hgo ih hwalk

/-- An empty component at the end, as of a slash there, leads nowhere else. -/
theorem walk_append_empty (n : Nat) (here : Path) (cs : List Component) :
    walk tree n here (cs ++ [[]]) = walk tree n here cs := by
  have hgo : ∀ {again : Path → List Component → Option Path},
      (∀ (here : Path) (cs : List Component), again here (cs ++ [[]]) = again here cs) →
      ∀ (here : Path) (cs : List Component),
        walkTo tree again here (cs ++ [[]]) = walkTo tree again here cs := by
    intro again hagain here cs
    induction cs generalizing here with
    | nil => rw [List.nil_append, walkTo_special (by decide)]; rfl
    | cons c cs ih =>
        rw [List.cons_append]
        by_cases hc : Named c
        · cases hlink : linkAt tree (here ++ [c]) with
          | none => rw [walkTo_plain hc hlink, walkTo_plain hc hlink, ih]
          | some target =>
              rw [walkTo_link hc hlink, walkTo_link hc hlink, ← List.append_assoc, hagain]
        · rw [walkTo_special hc, walkTo_special hc, ih]
  induction n generalizing here cs with
  | zero => exact hgo (fun _ _ => rfl) here cs
  | succ n ih => exact hgo ih here cs

/-- What is before the components of a name that is joined to a path leads where the path does. -/
theorem components_join (tree : Tree β) (a b : String) :
    ∃ front, components (join a b) = front ++ components b ∧
      ∀ n, walk tree n [] front = walk tree n [] (components a) := by
  rcases join_cases a b with ⟨rfl, hab⟩ | ⟨front, rfl, hab⟩ | hab
  · refine ⟨[], by rw [hab, List.nil_append], fun n => ?_⟩
    exact (walk_append_empty n [] []).symm
  · refine ⟨components front, by rw [hab, components_append], fun n => ?_⟩
    rw [components_append]
    exact (walk_append_empty n [] _).symm
  · exact ⟨components a, by rw [hab, components_append], fun _ => rfl⟩

/-- A file below a directory without links is where its name says. -/
theorem place_join {a b : String} {dir : Path} (ha : place tree a = some dir)
    (h : Unlinked tree dir) (hb : Plain b) :
    place tree (join a b) = some (dir ++ components b) := by
  obtain ⟨front, hcomponents, hfront⟩ := components_join tree a b
  rw [place, hcomponents]
  exact walk_append ((hfront _).trans ha) h hb

theorem spot_join {a b : String} {dir : Path} (ha : place tree a = some dir)
    (h : Unlinked tree dir) (hb : Plain b) :
    spot tree (join a b) = some (dir ++ components b) := by
  obtain ⟨front, hcomponents, hfront⟩ := components_join tree a b
  obtain ⟨names, last, hlast⟩ : ∃ names last, components b = names ++ [last] := by
    obtain ⟨names, last, hlast, -⟩ := components_append_text b (t := "") (by decide)
    exact ⟨names, last, hlast⟩
  have hnamed : ∀ c ∈ names ++ [last], Named c := fun c hc => hb c (by rw [hlast]; exact hc)
  have hwalk : walk tree maxLinks [] (front ++ names) = some (dir ++ names) :=
    walk_append ((hfront _).trans ha) h fun c hc => hnamed c (List.mem_append_left _ hc)
  have hsplit : components (join a b) = (front ++ names) ++ [last] := by
    rw [hcomponents, hlast, List.append_assoc]
  have hlastNamed := hnamed last (List.mem_append_right _ (List.mem_singleton_self _))
  rw [spot, hsplit, List.dropLast_concat, hwalk, Option.map_some, List.getLastD_concat]
  simp [enter, hlastNamed.1, hlastNamed.2.1, hlastNamed.2.2, hlast]

/-- Where a path leads without links. -/
theorem walkTo_without_links (again : Path → List Component → Option Path) (here : Path)
    (cs : List Component) (h : Unlinked tree []) :
    walkTo tree again here cs = some (cs.foldl enter here) := by
  induction cs generalizing here with
  | nil => rfl
  | cons c cs ih =>
      by_cases hc : Named c
      · have hstep : enter here c = here ++ [c] := by
          simp [enter, hc.1, hc.2.1, hc.2.2]
        rw [walkTo_plain hc (h _ List.nil_prefix), ih, List.foldl_cons, hstep]
      · rw [walkTo_special hc, ih, List.foldl_cons]

theorem place_without_links (h : Unlinked tree []) (path : String) :
    place tree path = some (resolve path) := walkTo_without_links _ _ _ h

section Changes

variable {path : String} {dir p q : Path}

theorem mem_leads :
    q ∈ leads tree path ↔ place tree path = some q ∨ spot tree path = some q := by
  simp [leads]

theorem Outside.place_ne (h : Outside tree dir path) (hq : dir <+: q) :
    place tree path ≠ some q := fun hplace => h q (mem_leads.mpr (.inl hplace)) hq

theorem Outside.spot_ne (h : Outside tree dir path) (hq : dir <+: q) :
    spot tree path ≠ some q := fun hspot => h q (mem_leads.mpr (.inr hspot)) hq

theorem Beside.outside (h : Beside tree dir path) : Outside tree dir path :=
  fun q hq => (h q hq).1

/-- Nothing in the directory is below a place beside it. -/
theorem Beside.not_below (h : Beside tree dir path) (hplace : place tree path = some p)
    (hq : dir <+: q) : ¬ p <+: q := by
  intro hp
  obtain ⟨hout, habove⟩ := h p (mem_leads.mpr (.inl hplace))
  rcases List.prefix_or_prefix_of_prefix hp hq with hle | hle
  · exact habove hle
  · exact hout hle

theorem store_other (h : place tree path ≠ some q) (content : Option β) :
    store tree path content q = tree q := by
  unfold store
  cases hplace : place tree path with
  | none => rfl
  | some p =>
      rw [hplace] at h
      exact write_other (fun heq => h (congrArg some heq.symm)) _

theorem store_self (h : place tree path = some p) (content : Option β) :
    store tree path content p = content.map .file := by
  rw [store, h]
  exact write_self _ _ _

theorem unlink_other (h : spot tree path ≠ some q) : unlink tree path q = tree q := by
  unfold unlink
  cases hspot : spot tree path with
  | none => rfl
  | some p =>
      rw [hspot] at h
      exact write_other (fun heq => h (congrArg some heq.symm)) _

theorem unlink_self (h : spot tree path = some p) : unlink tree path p = none := by
  rw [unlink, h]
  exact write_self _ _ _

theorem removeDir_beside (h : Beside tree dir path) (hq : dir <+: q) :
    removeDir tree path q = tree q := by
  unfold removeDir
  cases hfound : place tree path with
  | none => rfl
  | some p =>
      dsimp only
      split
      · rfl
      · rw [removeTree_other (h.not_below hfound hq), unlink_other (h.outside.spot_ne hq)]

theorem removeDir_self (hplace : place tree path = some p) (hfile : fileAt tree p = none)
    (hq : p <+: q) : removeDir tree path q = none := by
  rw [removeDir, hplace]
  dsimp only
  rw [if_neg (by simp [hfile])]
  exact if_pos hq

end Changes

end EsyncUa.LinkedFiles
