import Mathlib.Data.List.Infix
import Mathlib.Logic.Function.Basic

/-!
File paths as texts, and the files they lead to.
A text resolves to the components left when empty ones and dots are dropped and a double dot
takes back the component before it. A plain name adds its components to those of any
directory, so different plain names lead to different files below it.
-/
namespace EsyncUa.FilePaths

abbrev Component := List Char

abbrev Path := List Component

def components (s : String) : List Component := s.toList.splitOn '/'

def enter (p : Path) (c : Component) : Path :=
  if c = [] ∨ c = ['.'] then p else if c = ['.', '.'] then p.dropLast else p ++ [c]

def resolveFrom (p : Path) (s : String) : Path := (components s).foldl enter p

def resolve (s : String) : Path := resolveFrom [] s

/-- One directory after another, with a slash where the first does not end in one. -/
def join (a b : String) : String :=
  if a.toList.getLast?.getD '/' = '/' then a ++ b else a ++ "/" ++ b

def Plain (s : String) : Prop := ∀ c ∈ components s, c ≠ [] ∧ c ≠ ['.'] ∧ c ≠ ['.', '.']

instance (s : String) : Decidable (Plain s) := inferInstanceAs (Decidable (∀ c ∈ _, _))

theorem components_append (a b : String) :
    components (a ++ "/" ++ b) = components a ++ components b := by
  have hslash : "/".toList = ['/'] := by decide
  simp only [components, String.toList_append, hslash, List.append_assoc, List.singleton_append]
  exact List.splitOn_append_cons_self _ _

/-- What comes before the second path: nothing, a slash that ends the first, or a new one. -/
theorem join_cases (a b : String) :
    a = "" ∧ join a b = b ∨
      (∃ front, a = front ++ "/" ++ "" ∧ join a b = front ++ "/" ++ b) ∨
      join a b = a ++ "/" ++ b := by
  unfold join
  split
  · rename_i hend
    rcases List.eq_nil_or_concat a.toList with hnil | ⟨front, c, hfront⟩
    · have ha : a = "" := String.toList_inj.mp hnil
      exact .inl ⟨ha, by simp [ha]⟩
    · have hc : c = '/' := by simpa [hfront] using hend
      have ha : a = String.ofList front ++ "/" ++ "" := by
        apply String.toList_inj.mp
        simpa [hc] using hfront
      exact .inr (.inl ⟨String.ofList front, ha, by simp [ha]⟩)
  · exact .inr (.inr rfl)

theorem resolve_join (a b : String) : resolve (join a b) = resolveFrom (resolve a) b := by
  rcases join_cases a b with ⟨rfl, hab⟩ | ⟨front, rfl, hab⟩ | hab
  · rw [hab]
    simp [resolve, resolveFrom, components, enter]
  · -- the slash that ends `a` leaves an empty component, which is dropped
    rw [hab]
    unfold resolve resolveFrom
    rw [components_append, components_append, List.foldl_append, List.foldl_append]
    simp [components, enter]
  · rw [hab]
    unfold resolve resolveFrom
    rw [components_append, List.foldl_append]

theorem resolveFrom_plain {s : String} (h : Plain s) (p : Path) :
    resolveFrom p s = p ++ components s := by
  unfold resolveFrom
  have hall : ∀ cs : List Component, (∀ c ∈ cs, c ≠ [] ∧ c ≠ ['.'] ∧ c ≠ ['.', '.']) →
      ∀ p : Path, cs.foldl enter p = p ++ cs := by
    intro cs
    induction cs with
    | nil => simp
    | cons c cs ih =>
        intro hcs p
        obtain ⟨hempty, hdot, hdots⟩ := hcs c List.mem_cons_self
        rw [List.foldl_cons, ih (fun c' hc' => hcs c' (List.mem_cons_of_mem _ hc'))]
        simp [enter, hempty, hdot, hdots]
  exact hall _ h p

theorem resolve_join_plain {s : String} (h : Plain s) (a : String) :
    resolve (join a s) = resolve a ++ components s := by
  rw [resolve_join, resolveFrom_plain h]

/-- Without a double dot a text never leaves the directory it starts from. -/
theorem resolveFrom_within {s : String} (h : ['.', '.'] ∉ components s) (p : Path) :
    resolveFrom p s = p ++ resolveFrom [] s := by
  unfold resolveFrom
  have hall : ∀ cs : List Component, ['.', '.'] ∉ cs →
      ∀ p : Path, cs.foldl enter p = p ++ cs.foldl enter [] := by
    intro cs
    induction cs with
    | nil => simp
    | cons c cs ih =>
        intro hcs p
        simp only [List.mem_cons, not_or] at hcs
        have hstep : enter p c = p ++ enter [] c := by
          unfold enter
          rw [if_neg (Ne.symm hcs.1), if_neg (Ne.symm hcs.1)]
          split <;> simp
        rw [List.foldl_cons, List.foldl_cons, ih hcs.2 (enter p c), ih hcs.2 (enter [] c), hstep,
          List.append_assoc]
  exact hall _ h p

theorem components_injective {s t : String} (h : components s = components t) : s = t := by
  apply String.toList_inj.mp
  have hs : ['/'].intercalate (components s) = s.toList := List.intercalate_splitOn '/'
  have ht : ['/'].intercalate (components t) = t.toList := List.intercalate_splitOn '/'
  rw [← hs, ← ht, h]

/-- A text without a slash is added to the last component. -/
theorem components_append_text (s : String) {t : String} (ht : '/' ∉ t.toList) :
    ∃ front last, components s = front ++ [last] ∧
      components (s ++ t) = front ++ [last ++ t.toList] := by
  unfold components
  rw [String.toList_append]
  induction s.toList with
  | nil =>
      refine ⟨[], [], by simp, ?_⟩
      have hnone : ∀ c ∈ t.toList, (c == '/') = false := by
        intro c hc
        rw [beq_eq_false_iff_ne]
        exact fun heq => ht (heq ▸ hc)
      exact List.splitOnP_eq_singleton hnone
  | cons c cs ih =>
      obtain ⟨front, last, hcs, hct⟩ := ih
      simp only [List.splitOn] at hcs hct ⊢
      rw [List.cons_append, List.splitOnP_cons_eq_if_modifyHead,
        List.splitOnP_cons_eq_if_modifyHead, hcs, hct]
      by_cases hc : (c == '/') = true
      · exact ⟨[] :: front, last, by simp [hc], by simp [hc]⟩
      · cases front with
        | nil => exact ⟨[], c :: last, by simp [hc], by simp [hc]⟩
        | cons f fs => exact ⟨(c :: f) :: fs, last, by simp [hc], by simp [hc]⟩

/-- What is joined to one path always comes after the same text. -/
theorem join_toList (a : String) : ∃ front, ∀ b, (join a b).toList = front ++ b.toList := by
  by_cases hend : a.toList.getLast?.getD '/' = '/'
  · exact ⟨a.toList, fun b => by rw [join, if_pos hend, String.toList_append]⟩
  · refine ⟨a.toList ++ ['/'], fun b => ?_⟩
    rw [join, if_neg hend, String.toList_append, String.toList_append]
    rfl

theorem prefix_join (a b : String) : a.toList <+: (join a b).toList := by
  unfold join
  split
  · rw [String.toList_append]
    exact List.prefix_append _ _
  · rw [String.toList_append, String.toList_append, List.append_assoc]
    exact List.prefix_append _ _

/-- Names with different first letters below one path stay different texts. -/
theorem join_ne {a b c s t : String} (hs : (join a b).toList <+: s.toList)
    (ht : (join a c).toList <+: t.toList) (hb : b ≠ "") (hc : c ≠ "")
    (hne : b.toList.head? ≠ c.toList.head?) : s ≠ t := by
  rintro rfl
  obtain ⟨front, hfront⟩ := join_toList a
  rw [hfront] at hs ht
  obtain ⟨x, xs, hx⟩ := List.exists_cons_of_ne_nil (fun h => hb (String.toList_eq_nil_iff.mp h))
  obtain ⟨y, ys, hy⟩ := List.exists_cons_of_ne_nil (fun h => hc (String.toList_eq_nil_iff.mp h))
  rw [hx] at hs hne
  rw [hy] at ht hne
  have hlead := List.prefix_or_prefix_of_prefix hs ht
  simp only [List.prefix_append_right_inj, List.cons_prefix_cons] at hlead
  apply hne
  rcases hlead with ⟨heq, -⟩ | ⟨heq, -⟩
  · rw [heq]
    rfl
  · rw [heq]
    rfl

theorem join_append (a b c : String) : join a b ++ c = join a (b ++ c) := by
  unfold join
  split <;> simp only [String.append_assoc]

section Files

/-- What is stored at each path; a directory stores nothing of its own. -/
abbrev Files (β : Type) := Path → Option β

variable {β : Type}

def write (files : Files β) (p : Path) (content : Option β) : Files β :=
  Function.update files p content

def removeTree (files : Files β) (dir : Path) : Files β :=
  fun q => if dir <+: q then none else files q

/-- The files below `dir` become those of `tree`. -/
def replaceTree (files : Files β) (dir : Path) (tree : Files β) : Files β :=
  fun q => if dir <+: q then tree (q.drop dir.length) else files q

/-- The files of `tree` are put below `dir`, over what is there. -/
def unpack (files : Files β) (dir : Path) (tree : Files β) : Files β :=
  fun q => if dir <+: q then (tree (q.drop dir.length)).or (files q) else files q

/-- The files below `dir`, by their paths inside it. -/
def treeAt (files : Files β) (dir : Path) : Files β := fun q => files (dir ++ q)

@[simp] theorem write_self (files : Files β) (p : Path) (content : Option β) :
    write files p content p = content := Function.update_self ..

theorem write_other {files : Files β} {p q : Path} (h : q ≠ p) (content : Option β) :
    write files p content q = files q := Function.update_of_ne h ..

theorem removeTree_other {files : Files β} {dir q : Path} (h : ¬ dir <+: q) :
    removeTree files dir q = files q := if_neg h

theorem replaceTree_other {files : Files β} {dir q : Path} (h : ¬ dir <+: q) (tree : Files β) :
    replaceTree files dir tree q = files q := if_neg h

theorem unpack_other {files : Files β} {dir q : Path} (h : ¬ dir <+: q) (tree : Files β) :
    unpack files dir tree q = files q := if_neg h

/-- Two directories of one parent hold no path in common. -/
theorem disjoint_of_ne {parent : Path} {c c' : Component} (h : c ≠ c') {q : Path}
    (hc : parent ++ [c] <+: q) : ¬ parent ++ [c'] <+: q := by
  intro hc'
  obtain ⟨t, ht⟩ := hc
  obtain ⟨t', ht'⟩ := hc'
  have heq : c :: t = c' :: t' := by
    have hjoined : parent ++ (c :: t) = parent ++ (c' :: t') := by simpa using ht.trans ht'.symm
    exact List.append_cancel_left hjoined
  exact h (List.cons.inj heq).1

end Files

end EsyncUa.FilePaths
