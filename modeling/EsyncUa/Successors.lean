import Mathlib.Data.List.Basic

/-!
Going through a list by value: the element after the first occurrence of the current one, or
the first element where the current one does not occur. The walk comes to the end of the list
if no element that it has still to pass occurs earlier in the list. Where one does, the walk
never gets beyond it.
-/
namespace EsyncUa.Successors

variable {α : Type} [DecidableEq α]

/-- The index at which the walk goes on from `a`. -/
def startAfter (l : List α) (a : α) : Nat := if a ∈ l then l.idxOf a + 1 else 0

def successor (l : List α) (a : α) : Option α := l[startAfter l a]?

/-- The element reached after `n` steps, if the list does not end before. -/
def walk (l : List α) : Nat → α → Option α
  | 0, a => some a
  | n + 1, a => (successor l a).bind (walk l n)

/-- No element from index `i` on occurs before itself. -/
def FreshFrom (l : List α) (i : Nat) : Prop :=
  ∀ k (hk : k < l.length), i ≤ k → l[k] ∉ l.take k

instance (l : List α) (i : Nat) : Decidable (FreshFrom l i) := by
  unfold FreshFrom
  infer_instance

omit [DecidableEq α] in
theorem freshFrom_zero_iff (l : List α) : FreshFrom l 0 ↔ l.Nodup := by
  rw [List.Nodup, List.pairwise_iff_getElem]
  constructor
  · intro h i j hi hj hij heq
    apply h j hj (Nat.zero_le _)
    exact List.mem_take_iff_getElem.mpr ⟨i, by omega, heq⟩
  · intro h k hk _ hmem
    obtain ⟨i, hi, hik⟩ := List.mem_take_iff_getElem.mp hmem
    exact h i k (by omega) hk (by omega) hik

theorem startAfter_le (l : List α) (a : α) : startAfter l a ≤ l.length := by
  rw [startAfter]
  split
  · exact List.idxOf_lt_length_of_mem ‹_›
  · exact Nat.zero_le _

theorem startAfter_fresh {l : List α} {k : Nat} (hk : k < l.length) (hfresh : l[k] ∉ l.take k) :
    startAfter l l[k] = k + 1 := by
  have hmem : l[k] ∈ l := List.getElem_mem hk
  rw [startAfter, if_pos hmem]
  have hge : ¬ l.idxOf l[k] < k := by rwa [← List.mem_take_iff_idxOf_lt hmem]
  have hle : l.idxOf l[k] ≤ k := by
    have htake : l[k] ∈ l.take (k + 1) :=
      List.mem_take_iff_getElem.mpr ⟨k, by omega, rfl⟩
    have hlt := (List.mem_take_iff_idxOf_lt hmem).mp htake
    omega
  omega

theorem startAfter_repeated {l : List α} {k : Nat} (hk : k < l.length) (hrep : l[k] ∈ l.take k) :
    startAfter l l[k] ≤ k := by
  have hmem : l[k] ∈ l := List.getElem_mem hk
  rw [startAfter, if_pos hmem]
  have hlt := (List.mem_take_iff_idxOf_lt hmem).mp hrep
  omega

/-- Through fresh elements the walk goes one index at each step. -/
theorem walk_fresh {l : List α} {a : α} (hfresh : FreshFrom l (startAfter l a)) (n : Nat)
    (hn : startAfter l a + n ≤ l.length) :
    ∃ b, walk l n a = some b ∧ startAfter l b = startAfter l a + n := by
  induction n generalizing a with
  | zero => exact ⟨a, rfl, rfl⟩
  | succ n ih =>
    have hk : startAfter l a < l.length := by omega
    have hstart := startAfter_fresh hk (hfresh _ hk (Nat.le_refl _))
    have hrest : FreshFrom l (startAfter l l[startAfter l a]) := by
      intro k hk' hle
      apply hfresh k hk'
      omega
    obtain ⟨b, hwalk, hb⟩ := ih hrest (by omega)
    refine ⟨b, ?_, by omega⟩
    rw [walk, successor, List.getElem?_eq_getElem hk]
    exact hwalk

/-- A step does not get beyond an element that occurs earlier. -/
theorem successor_repeated {l : List α} {k : Nat} (hk : k < l.length) (hrep : l[k] ∈ l.take k)
    {a : α} (ha : startAfter l a ≤ k) :
    ∃ b, successor l a = some b ∧ startAfter l b ≤ k := by
  have hlt : startAfter l a < l.length := by omega
  refine ⟨l[startAfter l a], List.getElem?_eq_getElem hlt, ?_⟩
  by_cases heq : startAfter l a = k
  · subst heq
    exact startAfter_repeated hk hrep
  · by_cases hfresh : l[startAfter l a] ∈ l.take (startAfter l a)
    · have hle := startAfter_repeated hlt hfresh
      omega
    · have hnext := startAfter_fresh hlt hfresh
      omega

/-- So the walk never ends there. -/
theorem walk_repeated {l : List α} {k : Nat} (hk : k < l.length) (hrep : l[k] ∈ l.take k) {a : α}
    (ha : startAfter l a ≤ k) (n : Nat) : ∃ b, walk l n a = some b ∧ startAfter l b ≤ k := by
  induction n generalizing a with
  | zero => exact ⟨a, rfl, ha⟩
  | succ n ih =>
    obtain ⟨b, hnext, hb⟩ := successor_repeated hk hrep ha
    obtain ⟨c, hwalk, hc⟩ := ih hb
    refine ⟨c, ?_, hc⟩
    rw [walk, hnext]
    exact hwalk

/-- The walk comes to an element without a successor after at most `steps` steps. -/
def EndsWithin (l : List α) (a : α) (steps : Nat) : Prop :=
  ∃ n ≤ steps, ∃ b, walk l n a = some b ∧ successor l b = none

theorem EndsWithin.fresh {l : List α} {a : α} {steps : Nat} (h : EndsWithin l a steps) :
    FreshFrom l (startAfter l a) := by
  intro k hk hle hrep
  obtain ⟨n, _, b, hwalk, hnone⟩ := h
  obtain ⟨c, hwalk', hc⟩ := walk_repeated hk hrep hle n
  rw [hwalk] at hwalk'
  obtain rfl := Option.some.inj hwalk'
  obtain ⟨d, hsome, _⟩ := successor_repeated hk hrep hc
  rw [hnone] at hsome
  exact absurd hsome (Option.some_ne_none d).symm

theorem FreshFrom.endsWithin {l : List α} {a : α} (h : FreshFrom l (startAfter l a)) :
    EndsWithin l a l.length := by
  have hle := startAfter_le l a
  obtain ⟨b, hwalk, hb⟩ := walk_fresh h (l.length - startAfter l a) (by omega)
  refine ⟨l.length - startAfter l a, by omega, b, hwalk, ?_⟩
  rw [successor, List.getElem?_eq_none]
  omega

end EsyncUa.Successors
