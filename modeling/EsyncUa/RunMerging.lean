import Mathlib.Data.List.Sort

/-!
The merge sort of linked lists that goes from short runs to long ones. One pass merges each
run of a size with the one after it; the size is doubled until one merge was enough.
The result has the elements of the list in order, so it does not depend on the order they
had before.
-/
namespace EsyncUa.RunMerging

variable {α : Type} (le : α → α → Bool)

/-- The run that starts with `p` is merged with another, given how the rest of it is merged. -/
def mergeFrom (p : α) (ps : List α) (rest : List α → List α) : List α → List α
  | [] => p :: ps
  | q :: qs => if le p q then p :: rest (q :: qs) else q :: mergeFrom p ps rest qs

def mergeRuns : List α → List α → List α
  | [], qs => qs
  | p :: ps, qs => mergeFrom le p ps (mergeRuns ps) qs

/-- The list after one pass over runs of `insize` elements, and how many merges it took. A
list of `fuel` elements has no more runs than that. -/
def mergePass (insize : Nat) : Nat → List α → List α × Nat
  | 0, l => (l, 0)
  | _ + 1, [] => ([], 0)
  | fuel + 1, p :: l =>
      let q := (p :: l).drop insize
      let rest := mergePass insize fuel (q.drop insize)
      (mergeRuns le ((p :: l).take insize) (q.take insize) ++ rest.1, rest.2 + 1)

/-- The passes of LL_SORT from runs of `insize` elements on. -/
def sortPasses : Nat → Nat → List α → List α
  | 0, _, l => l
  | fuel + 1, insize, l =>
      let pass := mergePass le insize l.length l
      if pass.2 ≤ 1 then pass.1 else sortPasses fuel (2 * insize) pass.1

/-- LL_SORT. -/
def llSort (l : List α) : List α := sortPasses le (l.length + 1) 1 l

/-- Each run of `insize` elements is in order; the last one may be shorter. -/
def RunsSorted (insize : Nat) (l : List α) : Prop :=
  ∀ i, ((l.drop (i * insize)).take insize).Pairwise fun a b => le a b

theorem mergeRuns_eq (ps qs : List α) : mergeRuns le ps qs = ps.merge qs le := by
  induction ps generalizing qs with
  | nil => rw [mergeRuns, List.nil_merge]
  | cons p ps ihp =>
      rw [mergeRuns]
      induction qs with
      | nil => rw [mergeFrom, List.merge_right]
      | cons q qs ihq => rw [mergeFrom, List.cons_merge_cons, ihp, ihq]

theorem mergePass_perm (insize fuel : Nat) (l : List α) :
    (mergePass le insize fuel l).1.Perm l := by
  induction fuel generalizing l with
  | zero => exact .refl _
  | succ fuel ih =>
      cases l with
      | nil => exact .refl _
      | cons p l =>
          have hsplit : (p :: l).take insize ++ (((p :: l).drop insize).take insize ++
              ((p :: l).drop insize).drop insize) = p :: l := by
            rw [List.take_append_drop, List.take_append_drop]
          calc (mergePass le insize (fuel + 1) (p :: l)).1
            _ = ((p :: l).take insize).merge (((p :: l).drop insize).take insize) le ++
                  (mergePass le insize fuel (((p :: l).drop insize).drop insize)).1 := by
                rw [mergePass, mergeRuns_eq]
            _ |>.Perm (((p :: l).take insize ++ ((p :: l).drop insize).take insize) ++
                  ((p :: l).drop insize).drop insize) :=
                (List.merge_perm_append le).append (ih _)
            _ = p :: l := by rw [List.append_assoc, hsplit]

theorem sortPasses_perm (fuel insize : Nat) (l : List α) :
    (sortPasses le fuel insize l).Perm l := by
  induction fuel generalizing insize l with
  | zero => exact .refl _
  | succ fuel ih =>
      have hpass := mergePass_perm le insize l.length l
      unfold sortPasses
      simp only
      split
      · exact hpass
      · exact (ih _ _).trans hpass

theorem llSort_perm (l : List α) : (llSort le l).Perm l := sortPasses_perm ..

/-- One merge is enough only for a list of two runs. -/
theorem mergePass_merges {insize fuel : Nat} (hsize : 0 < insize) {l : List α}
    (hfuel : l.length ≤ fuel) (h : (mergePass le insize fuel l).2 ≤ 1) :
    l.length ≤ 2 * insize := by
  cases fuel with
  | zero => omega
  | succ fuel =>
      cases l with
      | nil => simp
      | cons p l =>
          have hcount : (mergePass le insize fuel (((p :: l).drop insize).drop insize)).2 + 1
              ≤ 1 := h
          have hlen : ((p :: l).drop insize).drop insize = [] := by
            cases fuel with
            | zero =>
                apply List.drop_eq_nil_of_le
                simp only [List.length_cons, List.length_drop] at hfuel ⊢
                omega
            | succ fuel =>
                generalize ((p :: l).drop insize).drop insize = r at hcount
                cases r with
                | nil => rfl
                | cons r rs => simp [mergePass] at hcount
          have hlen' := congrArg List.length hlen
          simp only [List.length_drop, List.length_nil] at hlen'
          omega

variable {le}

theorem runsSorted_one (l : List α) : RunsSorted le 1 l := by
  intro i
  rw [List.take_one]
  cases (l.drop (i * 1)).head? with
  | none => exact .nil
  | some a => exact List.pairwise_singleton ..

theorem RunsSorted.sorted {insize : Nat} {l : List α} (h : RunsSorted le insize l)
    (hlen : l.length ≤ insize) : l.Pairwise fun a b => le a b := by
  have hfirst := h 0
  rwa [Nat.zero_mul, List.drop_zero, List.take_of_length_le hlen] at hfirst

/-- The runs after the first one. -/
theorem RunsSorted.drop {insize : Nat} {l : List α} (h : RunsSorted le insize l) :
    RunsSorted le insize (l.drop insize) := by
  intro i
  have hnext := h (i + 1)
  rwa [Nat.add_mul, Nat.one_mul, Nat.add_comm, ← List.drop_drop] at hnext

/-- A run of full size goes before the others. -/
theorem RunsSorted.append {insize : Nat} {run l : List α} (hrun : run.Pairwise fun a b => le a b)
    (hlen : run.length = insize) (h : RunsSorted le insize l) :
    RunsSorted le insize (run ++ l) := by
  intro i
  cases i with
  | zero => rwa [Nat.zero_mul, List.drop_zero, List.take_left' hlen]
  | succ i =>
      rw [Nat.add_mul, Nat.one_mul, Nat.add_comm, ← List.drop_drop, List.drop_left' hlen]
      exact h i

section Order

variable (htrans : ∀ a b c, le a b → le b c → le a c) (htotal : ∀ a b, le a b || le b a)
include htrans htotal

theorem mergePass_runs {insize fuel : Nat} (hsize : 0 < insize) {l : List α}
    (hfuel : l.length ≤ fuel) (h : RunsSorted le insize l) :
    RunsSorted le (2 * insize) (mergePass le insize fuel l).1 := by
  induction fuel generalizing l with
  | zero =>
      have hnil : l = [] := List.eq_nil_of_length_eq_zero (by omega)
      subst hnil
      intro i
      simp [mergePass]
  | succ fuel ih =>
      cases l with
      | nil =>
          intro i
          simp [mergePass]
      | cons p l =>
          -- the first two runs are merged into one that is full, or nothing is left after it
          have hfirst : ((p :: l).take insize).Pairwise fun a b => le a b := by simpa using h 0
          have hsecond : (((p :: l).drop insize).take insize).Pairwise fun a b => le a b := by
            simpa using h.drop 0
          have hmerged := List.pairwise_merge htrans htotal _ _ hfirst hsecond
          have hlen := List.length_merge le ((p :: l).take insize)
            (((p :: l).drop insize).take insize)
          have hrest : RunsSorted le (2 * insize)
              (mergePass le insize fuel (((p :: l).drop insize).drop insize)).1 := by
            apply ih _ h.drop.drop
            simp only [List.length_drop, List.length_cons] at hfuel ⊢
            omega
          rw [mergePass, mergeRuns_eq]
          by_cases hfull : 2 * insize ≤ (p :: l).length
          · apply RunsSorted.append hmerged _ hrest
            simp only [List.length_take, List.length_drop] at hlen
            omega
          · have hnil : ((p :: l).drop insize).drop insize = [] := by
              apply List.drop_eq_nil_of_le
              simp only [List.length_drop]
              omega
            have hnone : (mergePass le insize fuel (((p :: l).drop insize).drop insize)).1 = [] :=
              List.perm_nil.mp (hnil ▸ mergePass_perm ..)
            rw [hnone, List.append_nil]
            intro i
            exact hmerged.sublist ((List.take_sublist ..).trans (List.drop_sublist ..))

theorem sortPasses_sorted {fuel insize : Nat} (hsize : 0 < insize) {l : List α}
    (hfuel : l.length < insize + fuel) (h : RunsSorted le insize l) :
    (sortPasses le fuel insize l).Pairwise fun a b => le a b := by
  induction fuel generalizing insize l with
  | zero => exact h.sorted (by omega)
  | succ fuel ih =>
      have hruns := mergePass_runs htrans htotal hsize (Nat.le_refl _) h
      have hlen := (mergePass_perm le insize l.length l).length_eq
      unfold sortPasses
      simp only
      split
      · rename_i hone
        apply hruns.sorted
        rw [hlen]
        exact mergePass_merges le hsize (Nat.le_refl _) hone
      · exact ih (by omega) (by omega) hruns

theorem llSort_sorted (l : List α) : (llSort le l).Pairwise fun a b => le a b :=
  sortPasses_sorted htrans htotal Nat.one_pos (by omega) (runsSorted_one l)

/-- The result depends on the elements only, where the order tells any two of them apart. -/
theorem llSort_eq_of_perm (hanti : ∀ a b, le a b → le b a → a = b) {l l' : List α}
    (h : l.Perm l') : llSort le l = llSort le l' := by
  have hperm : (llSort le l).Perm (llSort le l') :=
    (llSort_perm le l).trans (h.trans (llSort_perm le l').symm)
  exact List.Perm.eq_of_pairwise (fun a b _ _ => hanti a b) (llSort_sorted htrans htotal l)
    (llSort_sorted htrans htotal l') hperm

end Order

end EsyncUa.RunMerging
