import EsyncUa.CStrings
import EsyncUa.DirectorySystems

/-!
`mkdirp` of `misc.c`. A copy of the path is cut at the last slash of each run of slashes and
restored before the next one, and what is left in front of the cut is made a directory. A slash
at the end is found when nothing follows it.
-/
namespace EsyncUa.DirectoryCreation

open CStrings DirectorySystems

/-- `while (*(aux+1) == '/') aux++`. -/
def skipSlashes (dpath : Text) (aux : Nat) : Nat :=
  aux + ((dpath.drop (aux + 1)).takeWhile (· = slash)).length

/-- `strchr` from a position on; the characters searched are those before the terminator. -/
def strchr (dpath : Text) (aux : Nat) (c : UInt8) : Option Nat :=
  let found := aux + ((dpath.drop aux).takeWhile fun b => b ≠ c ∧ b ≠ 0).length
  if dpath[found]? = some c then some found else none

/-- The string at the beginning of a memory. -/
def text (dpath : Text) : Text := (CString.ofMemory dpath).bytes

section Mkdirp

variable {Tree : Type} (system : DirectorySystem Tree) (umask : Nat)

/-- The loop of `mkdirp`; `none` is a character outside of the copy, or a loop without end. -/
def mkdirpLoop : Nat → Text → Nat → Tree → Option (Outcome Tree)
  | 0, _, _, _ => none
  | fuel + 1, dpath, aux, tree =>
      let dpath := dpath.set aux slash
      match dpath[aux + 1]? with
      | none => none
      | some c =>
          if c = 0 then some ⟨0, [], tree⟩
          else
            match strchr dpath (aux + 1) slash with
            | none => some (system.make umask (text dpath) tree)
            | some next =>
                let aux := skipSlashes dpath next
                let dpath := dpath.set aux 0
                let out := system.make umask (text dpath) tree
                if out.rc ≠ 0 then some out
                else (mkdirpLoop fuel dpath aux out.tree).map (Outcome.after out.attempts)

/-- `mkdirp`, on a copy of the path. -/
def mkdirp (path : CString) (tree : Tree) (fuel : Nat) : Option (Outcome Tree) :=
  let dpath := path.memory
  if dpath[0]? ≠ some slash then some ⟨1, [], tree⟩
  else
    let aux := skipSlashes dpath 0
    match dpath[aux + 1]? with
    | none => none
    | some c => if c = 0 then some ⟨0, [], tree⟩ else mkdirpLoop system umask fuel dpath aux tree

end Mkdirp

section Cursor

theorem takeWhile_cut {p : UInt8 → Bool} {front : Text} (hfront : ∀ b ∈ front, p b = true)
    {c : UInt8} (hc : ¬ p c = true) (rest : Text) : (front ++ c :: rest).takeWhile p = front := by
  rw [List.takeWhile_append_of_pos hfront, List.takeWhile_cons_of_neg hc, List.append_nil]

/-- The slashes that a text begins with. -/
theorem slashes_split (t : Text) :
    ∃ count rest, t = List.replicate count slash ++ rest ∧ rest.head? ≠ some slash := by
  induction t with
  | nil => exact ⟨0, [], rfl, nofun⟩
  | cons c t ih =>
    by_cases hc : c = slash
    · obtain ⟨count, rest, rfl, hrest⟩ := ih
      exact ⟨count + 1, rest, by rw [hc]; rfl, hrest⟩
    · exact ⟨0, c :: t, rfl, by simpa using hc⟩

theorem slash_replicate (count : Nat) (rest : Text) :
    slash :: (List.replicate count slash ++ rest) =
      List.replicate count slash ++ slash :: rest := by
  rw [← List.cons_append, ← List.replicate_succ, List.replicate_succ', List.append_assoc]
  rfl

/-- The name that a text begins with, and the slashes behind it, if there are any. -/
theorem name_split {t : Text} (hne : t ≠ []) (hhead : t.head? ≠ some slash) :
    slash ∉ t ∨ ∃ name count rest, t = name ++ slash :: (List.replicate count slash ++ rest) ∧
      name ≠ [] ∧ slash ∉ name ∧ rest.head? ≠ some slash := by
  by_cases hslash : slash ∈ t
  · obtain ⟨name, rest, rfl, hname⟩ := List.eq_append_cons_of_mem hslash
    obtain ⟨count, rest, rfl, hrest⟩ := slashes_split rest
    refine .inr ⟨name, count, rest, rfl, ?_, hname, hrest⟩
    rintro rfl
    exact hhead rfl
  · exact .inl hslash

/-- Behind a text comes its end or another character, which is no slash. -/
theorem head_of_rest {rest : Text} (hrest : rest.head? ≠ some slash) :
    ∃ c more, rest ++ [0] = c :: more ∧ c ≠ slash := by
  cases rest with
  | nil => exact ⟨0, [], rfl, by decide⟩
  | cons c rest => exact ⟨c, rest ++ [0], rfl, by simpa using hrest⟩

theorem skipSlashes_eq (front : Text) (b : UInt8) {rest : Text} (count : Nat)
    (hrest : rest.head? ≠ some slash) :
    skipSlashes (front ++ b :: (List.replicate count slash ++ (rest ++ [0]))) front.length =
      front.length + count := by
  obtain ⟨c, more, hmore, hc⟩ := head_of_rest hrest
  have hdrop : (front ++ b :: (List.replicate count slash ++ (rest ++ [0]))).drop
      (front.length + 1) = List.replicate count slash ++ c :: more := by
    rw [List.drop_length_add_append, hmore]
    rfl
  have hslashes : (List.replicate count slash ++ c :: more).takeWhile (· = slash) =
      List.replicate count slash :=
    takeWhile_cut (fun b hb => decide_eq_true (List.eq_of_mem_replicate hb))
      (by simpa using hc) more
  rw [skipSlashes, hdrop, hslashes, List.length_replicate]

/-- The search stops behind a name: at a slash, or at the terminator. -/
theorem strchr_eq (front : Text) {name : Text} (hslash : slash ∉ name) (hzero : 0 ∉ name)
    {c : UInt8} (hc : c = slash ∨ c = 0) (rest : Text) :
    strchr (front ++ (name ++ c :: rest)) front.length slash =
      if c = slash then some (front.length + name.length) else none := by
  have hname : (name ++ c :: rest).takeWhile (fun b => b ≠ slash ∧ b ≠ 0) = name := by
    refine takeWhile_cut (fun b hb => ?_) ?_ rest
    · exact decide_eq_true ⟨fun h => hslash (h ▸ hb), fun h => hzero (h ▸ hb)⟩
    · rcases hc with rfl | rfl <;> decide
  have hat : (front ++ (name ++ c :: rest))[front.length + name.length]? = some c := by
    rw [← List.append_assoc, ← List.length_append, List.getElem?_append_right (le_refl _)]
    simp
  unfold strchr
  rw [List.drop_left, hname]
  simp only [hat, Option.some.injEq]

theorem text_cut {front : Text} (hzero : 0 ∉ front) (rest : Text) :
    text (front ++ 0 :: rest) = front := by
  have hfront : ∀ b ∈ front, decide (b ≠ 0) = true := by
    intro b hb
    exact decide_eq_true fun h => hzero (h ▸ hb)
  exact takeWhile_cut hfront (by decide) rest

theorem set_at (front : Text) (b c : UInt8) (rest : Text) :
    (front ++ b :: rest).set front.length c = front ++ c :: rest := by
  rw [List.set_append_right _ _ (le_refl _), Nat.sub_self]
  rfl

theorem getElem?_behind (front : Text) (b : UInt8) (rest : Text) :
    (front ++ b :: rest)[front.length + 1]? = rest.head? := by
  rw [List.getElem?_append_right (by omega), Nat.add_sub_cancel_left, List.getElem?_cons_succ,
    List.head?_eq_getElem?]

end Cursor

section Loop

variable {Tree : Type} {system : DirectorySystem Tree} {umask : Nat}

theorem makeAll_singleton (path : Text) (tree : Tree) :
    system.makeAll umask [path] tree = system.make umask path tree := by
  rcases system.make_cases umask path tree with ⟨-, hmake⟩ | ⟨-, ⟨tree', -, hmake⟩ | hmake⟩
  all_goals
    rw [DirectorySystem.makeAll_cons, hmake]
    rfl

/-- The cursor stands on a slash, maybe cut off, and nothing is left of the path. -/
theorem mkdirpLoop_at_end (front : Text) (b : UInt8) (tree : Tree) (fuel : Nat) :
    mkdirpLoop system umask (fuel + 1) (front ++ [b, 0]) front.length tree =
      some ⟨0, [], tree⟩ := by
  have hbehind := getElem?_behind front slash [0]
  rw [mkdirpLoop, set_at]
  simp only [hbehind, List.head?_cons]
  rfl

/-- What stands behind the cursor if the path goes on with a name. -/
theorem behind_name (front : Text) {name : Text} (hne : name ≠ []) (hzero : 0 ∉ name)
    (rest : Text) :
    ∃ c, (front ++ slash :: (name ++ rest))[front.length + 1]? = some c ∧ c ≠ 0 := by
  cases name with
  | nil => exact absurd rfl hne
  | cons c name =>
    refine ⟨c, getElem?_behind front slash (c :: name ++ rest), ?_⟩
    rintro rfl
    exact hzero List.mem_cons_self

/-- Only a name is left. -/
theorem mkdirpLoop_last {front name : Text} (hzero : 0 ∉ front ++ slash :: name) (hne : name ≠ [])
    (hslash : slash ∉ name) (b : UInt8) (tree : Tree) (fuel : Nat) :
    mkdirpLoop system umask (fuel + 1) (front ++ b :: (name ++ [0])) front.length tree =
      some (system.make umask (front ++ slash :: name) tree) := by
  have hzeroName : 0 ∉ name := fun h => hzero (by simp [h])
  obtain ⟨c, hbehind, hc⟩ := behind_name front hne hzeroName [0]
  have hfind : strchr (front ++ slash :: (name ++ [0])) (front.length + 1) slash = none := by
    have hsearch := strchr_eq (front ++ [slash]) hslash hzeroName (.inr rfl) []
    rw [if_neg (by decide), List.append_assoc, List.length_append] at hsearch
    exact hsearch
  have htext : text (front ++ slash :: (name ++ [0])) = front ++ slash :: name := by
    rw [← List.cons_append, ← List.append_assoc]
    exact text_cut hzero []
  rw [mkdirpLoop, set_at]
  simp only [hbehind, if_neg hc, hfind, htext]

/-- A name is left, then some slashes and the rest of the path. -/
theorem mkdirpLoop_next {front name rest : Text} {count : Nat}
    (hzero : 0 ∉ front ++ slash :: (name ++ slash :: (List.replicate count slash ++ rest)))
    (hne : name ≠ []) (hslash : slash ∉ name) (hrest : rest.head? ≠ some slash) (b : UInt8)
    (tree : Tree) (fuel : Nat) {cut : Text} {out : Outcome Tree}
    (hcut : cut = front ++ slash :: (name ++ List.replicate count slash))
    (hout : system.make umask cut tree = out) :
    mkdirpLoop system umask (fuel + 1)
        (front ++ b :: (name ++ slash :: (List.replicate count slash ++ (rest ++ [0]))))
        front.length tree =
      if out.rc ≠ 0 then some out
      else (mkdirpLoop system umask fuel (cut ++ 0 :: (rest ++ [0])) cut.length out.tree).map
        (Outcome.after out.attempts) := by
  have hzeroName : 0 ∉ name := fun h => hzero (by simp [h])
  have hzeroCut : 0 ∉ cut := by
    rw [hcut]
    intro h
    apply hzero
    simp only [List.mem_append, List.mem_cons] at h ⊢
    tauto
  obtain ⟨c, hbehind, hc⟩ := behind_name front hne hzeroName
    (slash :: (List.replicate count slash ++ (rest ++ [0])))
  have hfind : strchr (front ++ slash :: (name ++ slash ::
      (List.replicate count slash ++ (rest ++ [0])))) (front.length + 1) slash =
        some (front ++ slash :: name).length := by
    have hsearch := strchr_eq (front ++ [slash]) hslash hzeroName (.inl rfl)
      (List.replicate count slash ++ (rest ++ [0]))
    rw [if_pos rfl, List.append_assoc, List.length_append] at hsearch
    refine hsearch.trans (congrArg some ?_)
    simp only [List.length_append, List.length_cons, List.length_nil]
    omega
  have hmemory : front ++ slash :: (name ++ slash ::
      (List.replicate count slash ++ (rest ++ [0]))) =
        (front ++ slash :: name) ++ slash :: (List.replicate count slash ++ (rest ++ [0])) := by
    simp
  have hskip := skipSlashes_eq (front ++ slash :: name) slash count hrest
  have hlength : (front ++ slash :: name).length + count = cut.length := by
    rw [hcut]
    simp only [List.length_append, List.length_cons, List.length_replicate]
    omega
  have hrun : (front ++ slash :: name) ++ slash :: (List.replicate count slash ++ (rest ++ [0])) =
      cut ++ slash :: (rest ++ [0]) := by
    rw [hcut, slash_replicate]
    simp
  rw [mkdirpLoop, set_at]
  simp only [hbehind, if_neg hc, hfind]
  rw [hmemory, hskip, hlength, hrun, set_at, text_cut hzeroCut, hout]

/-- The loop makes the directories whose names end in the rest of the path, one after the other. -/
theorem mkdirpLoop_eq (system : DirectorySystem Tree) (umask : Nat) {front rest : Text}
    (hzero : 0 ∉ front ++ slash :: rest) (hhead : rest.head? ≠ some slash) :
    ∃ cuts, cuts.map names = prefixesFrom (names front) (names rest) ∧
      (∀ cut ∈ cuts, cut <+: front ++ slash :: rest) ∧
      ∀ fuel b (tree : Tree), rest.length < fuel →
        mkdirpLoop system umask fuel (front ++ b :: (rest ++ [0])) front.length tree =
          some (system.makeAll umask cuts tree) := by
  induction hlength : rest.length using Nat.strong_induction_on generalizing front rest with
  | h length ih =>
    by_cases hne : rest = []
    · subst hne
      refine ⟨[], rfl, by simp, fun fuel b tree hfuel => ?_⟩
      obtain ⟨fuel, rfl⟩ := Nat.exists_eq_add_of_lt hfuel
      exact mkdirpLoop_at_end front b tree _
    · rcases name_split hne hhead with hslash | ⟨name, count, rest, rfl, hname, hslash, hrest⟩
      · refine ⟨[front ++ slash :: rest], ?_, by simp, fun fuel b tree hfuel => ?_⟩
        · rw [names_of_noSlash hne hslash, List.map_singleton, names_append_slash,
            names_of_noSlash hne hslash]
          rfl
        · obtain ⟨fuel, rfl⟩ := Nat.exists_eq_add_of_lt hfuel
          rw [makeAll_singleton]
          exact mkdirpLoop_last hzero hne hslash b tree _
      · have hshorter : rest.length < length := by
          rw [← hlength]
          simp only [List.length_append, List.length_cons, List.length_replicate]
          omega
        have hsplit : front ++ slash :: (name ++ slash :: (List.replicate count slash ++ rest)) =
            (front ++ slash :: (name ++ List.replicate count slash)) ++ slash :: rest := by
          rw [slash_replicate]
          simp
        generalize hcut : front ++ slash :: (name ++ List.replicate count slash) = cut at hsplit
        have hnames : names cut = names front ++ [name] := by
          rw [← hcut, names_append_slash, names_append_slashes, names_of_noSlash hname hslash]
        have hzero' := hzero
        rw [hsplit] at hzero'
        obtain ⟨cuts, hcuts, hfronts, hloop⟩ := ih rest.length hshorter hzero' hrest rfl
        refine ⟨cut :: cuts, ?_, ?_, fun fuel b tree hfuel => ?_⟩
        · rw [List.map_cons, hcuts, hnames, names_append_slash, names_slashes_append,
            names_of_noSlash hname hslash]
          rfl
        · rw [hsplit]
          exact List.forall_mem_cons.mpr ⟨List.prefix_append cut _, hfronts⟩
        · obtain ⟨fuel, rfl⟩ := Nat.exists_eq_add_of_lt hfuel
          rw [List.append_assoc, List.cons_append, List.append_assoc,
            mkdirpLoop_next hzero hname hslash hrest b tree _ hcut.symm rfl,
            hloop _ _ _ (by omega), DirectorySystem.makeAll_cons]
          split
          · rfl
          · rfl

end Loop

section Results

variable {Tree : Type} (system : DirectorySystem Tree) (umask : Nat)

/-- The path is cut behind each of its names, and the fronts are made directories in this order. -/
theorem mkdirp_eq {path : CString} (habsolute : path.bytes.head? = some slash) :
    ∃ cuts, cuts.map names = prefixes path.bytes ∧ (∀ cut ∈ cuts, cut <+: path.bytes) ∧
      ∀ fuel tree, path.strlen < fuel →
        mkdirp system umask path tree fuel = some (system.makeAll umask cuts tree) := by
  obtain ⟨bytes, hzero⟩ := path
  obtain ⟨t, rfl⟩ : ∃ t, bytes = slash :: t := by
    cases bytes with
    | nil => cases habsolute
    | cons c t => exact ⟨t, by rw [Option.some.inj habsolute]⟩
  obtain ⟨count, rest, rfl, hrest⟩ := slashes_split t
  have hbytes := slash_replicate count rest
  have hslashes := names_slashes_append count []
  rw [List.append_nil] at hslashes
  rw [hbytes] at hzero
  obtain ⟨cuts, hcuts, hfronts, hloop⟩ := mkdirpLoop_eq system umask hzero hrest
  refine ⟨cuts, ?_, ?_, ?_⟩
  · rw [hcuts, hslashes, names_nil]
    simp only [hbytes, prefixes]
    rw [names_append_slash, hslashes]
    rfl
  · simpa only [hbytes] using hfronts
  · intro fuel tree hfuel
    have hskip : skipSlashes (slash :: (List.replicate count slash ++ rest) ++ [0]) 0 = count := by
      rw [List.cons_append, List.append_assoc]
      exact (skipSlashes_eq [] slash count hrest).trans (Nat.zero_add count)
    have hbehind : (slash :: (List.replicate count slash ++ rest) ++ [0])[count + 1]? =
        (rest ++ [0]).head? := by
      have hlast := getElem?_behind (List.replicate count slash) slash (rest ++ [0])
      rw [List.length_replicate] at hlast
      rw [hbytes, List.append_assoc]
      exact hlast
    have hfirst : (slash :: (List.replicate count slash ++ rest) ++ [0])[0]? = some slash := rfl
    unfold mkdirp CString.memory
    simp only [hfirst, ne_eq, not_true_eq_false, if_false, hskip, hbehind]
    cases rest with
    | nil =>
      obtain rfl : cuts = [] := List.map_eq_nil_iff.mp hcuts
      rfl
    | cons c rest =>
      have hc : c ≠ 0 := by
        rintro rfl
        exact hzero (by simp)
      have hlong : (c :: rest).length < fuel := by
        simp only [CString.strlen, List.length_cons, List.length_append] at hfuel ⊢
        omega
      have hrun := hloop fuel slash tree hlong
      rw [List.length_replicate] at hrun
      simp only [List.cons_append, List.head?_cons, if_neg hc]
      rw [← hrun, ← List.cons_append, hbytes, List.append_assoc]
      rfl

/-- `mkdirp` attempts to create the directories on the way of an absolute path. -/
structure Creates (path : CString) (tree : Tree) (out : Outcome Tree) : Prop where
  /-- From the shortest to the longest, exactly those that are missing when they are reached. -/
  attempts : ∃ cuts, cuts.map names = prefixes path.bytes ∧ (∀ cut ∈ cuts, cut <+: path.bytes) ∧
    out.attempts.Sublist cuts ∧ ∀ front cut rest, cuts = front ++ cut :: rest →
      (cut ∈ out.attempts ↔ (system.makeAll umask front tree).rc = 0 ∧
        system.isDirectory (system.makeAll umask front tree).tree (names cut) = false)
  /-- On a plain way exactly those that are missing before the call, up to a failure. -/
  plain : (∀ name ∈ names path.bytes, Plain name) →
    out.attempts.map names <+:
        (prefixes path.bytes).filter (fun p => !system.isDirectory tree p) ∧
      (out.rc = 0 → out.attempts.map names =
        (prefixes path.bytes).filter (fun p => !system.isDirectory tree p))
  /-- A failure is the last attempt, and the only one that has made no directory. -/
  failure : out.rc ≠ 0 → ∃ made last, out.attempts = made ++ [last] ∧
    system.isDirectory out.tree (names last) = false ∧
      ∀ cut ∈ made, system.isDirectory out.tree (names cut) = true
  returns : out.rc = 0 ↔
    ∀ p, p <+: names path.bytes → system.isDirectory out.tree p = true

theorem creates_makeAll {path : CString} (tree : Tree) {cuts : List Text}
    (hcuts : cuts.map names = prefixes path.bytes) (hfronts : ∀ cut ∈ cuts, cut <+: path.bytes) :
    Creates system umask path tree (system.makeAll umask cuts tree) where
  attempts := by
    refine ⟨cuts, hcuts, hfronts, DirectorySystem.makeAll_attempts_sublist cuts tree, ?_⟩
    rintro front cut rest rfl
    refine DirectorySystem.mem_attempts_iff fun hmem => ?_
    have hincreasing := prefixesFrom_increasing [] (names path.bytes)
    rw [← prefixes, ← hcuts, List.pairwise_map, List.pairwise_append, List.pairwise_cons]
      at hincreasing
    obtain ⟨-, ⟨hlater, -⟩, hbefore⟩ := hincreasing
    rcases List.mem_append.mp hmem with hfront | hrest
    · exact absurd (hbefore cut hfront cut List.mem_cons_self) (lt_irrefl _)
    · exact absurd (hlater cut hrest) (lt_irrefl _)
  plain := by
    intro hplain
    have hmissing : (prefixes path.bytes).filter (fun p => !system.isDirectory tree p) =
        (cuts.filter fun cut => !system.isDirectory tree (names cut)).map names := by
      rw [← hcuts, List.filter_map]
      rfl
    rw [hmissing]
    exact ⟨(DirectorySystem.attempts_of_plain hcuts hplain).1.map names,
      fun hrc => congrArg (List.map names) ((DirectorySystem.attempts_of_plain hcuts hplain).2 hrc)⟩
  failure := DirectorySystem.makeAll_failed
  returns := by
    rw [DirectorySystem.makeAll_rc_eq_zero_iff]
    constructor
    · intro h p hp
      by_cases hroot : p = []
      · rw [hroot]
        exact system.root _
      · have hmem : p ∈ cuts.map names := hcuts ▸ mem_prefixes.mpr ⟨hroot, hp⟩
        obtain ⟨cut, hcut, rfl⟩ := List.mem_map.mp hmem
        exact h cut hcut
    · intro h cut hcut
      have hmem : names cut ∈ prefixes path.bytes := hcuts ▸ List.mem_map_of_mem hcut
      exact h _ (mem_prefixes.mp hmem).2

/-- On an absolute path `mkdirp` ends, and makes what is missing. -/
theorem mkdirp_creates (path : CString) (habsolute : path.bytes.head? = some slash) (tree : Tree) :
    ∃ out, (∀ fuel, path.strlen < fuel → mkdirp system umask path tree fuel = some out) ∧
      Creates system umask path tree out := by
  obtain ⟨cuts, hcuts, hfronts, hrun⟩ := mkdirp_eq system umask habsolute
  exact ⟨system.makeAll umask cuts tree, fun fuel hfuel => hrun fuel tree hfuel,
    creates_makeAll system umask tree hcuts hfronts⟩

/-- `chkdirp`, of which `f_dirname` has found the directory. -/
def chkdirp (dir : CString) (tree : Tree) (fuel : Nat) : Option (Outcome Tree) :=
  if system.isDirectory tree (names dir.bytes) then some ⟨0, [], tree⟩
  else mkdirp system 0o755 dir tree fuel

/-- `chkdirp` succeeds exactly if the directory is there afterwards, with all on the way to it. -/
theorem chkdirp_returns {dir : CString} (habsolute : dir.bytes.head? = some slash) (tree : Tree) :
    ∃ out, (∀ fuel, dir.strlen < fuel → chkdirp system dir tree fuel = some out) ∧
      (out.rc = 0 ↔ ∀ p, p <+: names dir.bytes → system.isDirectory out.tree p = true) := by
  by_cases hdirectory : system.isDirectory tree (names dir.bytes) = true
  · refine ⟨⟨0, [], tree⟩, fun fuel _ => if_pos hdirectory, fun _ p hp => ?_, fun _ => rfl⟩
    obtain ⟨rest, hrest⟩ := hp
    rw [← hrest] at hdirectory
    exact DirectorySystem.parents hdirectory
  · obtain ⟨cuts, hcuts, hfronts, hrun⟩ := mkdirp_eq system 0o755 habsolute
    refine ⟨system.makeAll 0o755 cuts tree, fun fuel hfuel => ?_,
      (creates_makeAll system 0o755 tree hcuts hfronts).returns⟩
    exact (if_neg hdirectory).trans (hrun fuel tree hfuel)

/-- A root with a file `f` in it. -/
def sampleTree : DirectoryTree where
  directories := []
  files := [[[102]]]
  writable _ := true
  closed _ _ h := absurd h List.not_mem_nil

/-- "/f/a". -/
def pathBelowFile : CString := ⟨[47, 102, 47, 97], by decide⟩

/-- "//a//b/". -/
def pathWithSlashes : CString := ⟨[47, 47, 97, 47, 47, 98, 47], by decide⟩

example : (mkdirp DirectoryTree.system 0o755 pathWithSlashes sampleTree 8).map
    (fun out => (out.rc, out.attempts)) =
      some (0, [[47, 47, 97, 47], [47, 47, 97, 47, 47, 98]]) := by decide

theorem mkdirp_creates_with_slashes :
    ∃ out, (∀ fuel, pathWithSlashes.strlen < fuel →
        mkdirp DirectoryTree.system 0o755 pathWithSlashes sampleTree fuel = some out) ∧
      Creates DirectoryTree.system 0o755 pathWithSlashes sampleTree out :=
  mkdirp_creates DirectoryTree.system 0o755 pathWithSlashes rfl sampleTree

/-- Two directories are missing below a file, and the second is not attempted after the failure
for the first. -/
theorem stops_at_file :
    ¬ ∀ (path : CString) (tree : DirectoryTree) (fuel : Nat) (out : Outcome DirectoryTree),
      path.bytes.head? = some slash → mkdirp DirectoryTree.system 0o755 path tree fuel = some out →
        out.attempts.map names =
          (prefixes path.bytes).filter fun p => !DirectoryTree.system.isDirectory tree p := by
  intro hclaim
  have hstops := hclaim pathBelowFile sampleTree 5 _ rfl rfl
  exact absurd hstops (by decide)

end Results

end EsyncUa.DirectoryCreation
