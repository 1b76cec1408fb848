import Mathlib.Data.List.Sort

/-!
Arrays of distinct elements kept in increasing order by binary search and sorting.
An element is added once, by appending it and sorting, when the search does not find it;
it is removed at the index where the search finds it. The search is the halving loop of
the C library, which only works on sorted arrays, so each operation keeps them sorted.
-/
namespace EsyncUa.SortedArrays

variable {α : Type} [LinearOrder α]

/-- Three-way comparison. -/
def compareWith (a b : α) : Int := if a = b then 0 else if b < a then 1 else -1

/-- The rounds of the binary search between the indices `l` and `u`. -/
def searchLoop (key : α) (xs : List α) : Nat → Nat → Nat → Option Nat
  | 0, _, _ => none
  | fuel + 1, l, u =>
      if l < u then
        let idx := (l + u) / 2
        match xs[idx]? with
        | none => none
        | some x =>
            if compareWith key x < 0 then searchLoop key xs fuel l idx
            else if 0 < compareWith key x then searchLoop key xs fuel (idx + 1) u
            else some idx
      else none

/-- The index at which the search finds the key; each round shortens the interval. -/
def search (key : α) (xs : List α) : Option Nat := searchLoop key xs xs.length 0 xs.length

def insertSorted (x : α) (xs : List α) : List α :=
  match search x xs with
  | some _ => xs
  | none => (xs ++ [x]).insertionSort fun a b => compareWith a b ≤ 0

def eraseSorted (x : α) (xs : List α) : List α :=
  match search x xs with
  | some idx => xs.eraseIdx idx
  | none => xs

theorem compareWith_neg_iff (a b : α) : compareWith a b < 0 ↔ a < b := by
  unfold compareWith
  rcases lt_trichotomy a b with h | h | h
  · simp [h.ne, h.not_gt, h]
  · simp [h]
  · simp [h.ne', h, h.not_gt]

theorem compareWith_pos_iff (a b : α) : 0 < compareWith a b ↔ b < a := by
  unfold compareWith
  rcases lt_trichotomy a b with h | h | h
  · simp [h.ne, h.not_gt]
  · simp [h]
  · simp [h.ne', h]

theorem compareWith_nonpos_iff (a b : α) : compareWith a b ≤ 0 ↔ a ≤ b := by
  rw [← not_lt, compareWith_pos_iff, not_lt]

theorem searchLoop_sound (key : α) (xs : List α) (fuel l u i : Nat)
    (h : searchLoop key xs fuel l u = some i) : xs[i]? = some key := by
  induction fuel generalizing l u with
  | zero => simp [searchLoop] at h
  | succ fuel ih =>
      unfold searchLoop at h
      split at h
      · cases hx : xs[(l + u) / 2]? with
        | none => simp [hx] at h
        | some x =>
            simp only [hx] at h
            split at h
            · exact ih _ _ h
            · split at h
              · exact ih _ _ h
              · rename_i hneg hpos
                rw [compareWith_neg_iff] at hneg
                rw [compareWith_pos_iff] at hpos
                have heq : key = x := le_antisymm (not_lt.mp hpos) (not_lt.mp hneg)
                cases h
                rw [hx, heq]
      · cases h

theorem lt_of_getElem? {xs : List α} (hxs : xs.Pairwise (· < ·)) {i j : Nat} {a b : α}
    (ha : xs[i]? = some a) (hb : xs[j]? = some b) (hij : i < j) : a < b := by
  obtain ⟨hi, rfl⟩ := List.getElem?_eq_some_iff.mp ha
  obtain ⟨hj, rfl⟩ := List.getElem?_eq_some_iff.mp hb
  exact List.pairwise_iff_getElem.mp hxs i j hi hj hij

/-- On a sorted array the loop finds a key that stands between its bounds. -/
theorem searchLoop_complete (key : α) (xs : List α) (hxs : xs.Pairwise (· < ·))
    (fuel l u k : Nat) (hfuel : u - l ≤ fuel) (hu : u ≤ xs.length)
    (hk : xs[k]? = some key) (hlk : l ≤ k) (hku : k < u) :
    searchLoop key xs fuel l u ≠ none := by
  induction fuel generalizing l u with
  | zero => omega
  | succ fuel ih =>
      have hlu : l < u := by omega
      have hidx : (l + u) / 2 < xs.length := by omega
      obtain ⟨x, hx⟩ : ∃ x, xs[(l + u) / 2]? = some x := ⟨_, List.getElem?_eq_getElem hidx⟩
      unfold searchLoop
      simp only [if_pos hlu, hx]
      split
      · rename_i hneg
        have hlt : key < x := (compareWith_neg_iff key x).mp hneg
        have hki : k < (l + u) / 2 := by
          by_contra hge
          rcases Nat.lt_or_eq_of_le (Nat.le_of_not_lt hge) with h | h
          · exact absurd (lt_of_getElem? hxs hx hk h) hlt.not_gt
          · rw [← h, hx] at hk
            exact hlt.ne' (Option.some.inj hk)
        exact ih l _ (by omega) (by omega) hlk hki
      · split
        · rename_i hpos
          have hlt : x < key := (compareWith_pos_iff key x).mp hpos
          have hki : (l + u) / 2 < k := by
            by_contra hge
            rcases Nat.lt_or_eq_of_le (Nat.le_of_not_lt hge) with h | h
            · exact absurd (lt_of_getElem? hxs hk hx h) hlt.not_gt
            · rw [h, hx] at hk
              exact hlt.ne (Option.some.inj hk)
          exact ih _ u (by omega) hu (by omega) hku
        · simp

theorem search_eq_none_iff {x : α} {xs : List α} (hxs : xs.Pairwise (· < ·)) :
    search x xs = none ↔ x ∉ xs := by
  constructor
  · intro h hmem
    obtain ⟨k, hk, hget⟩ := List.getElem_of_mem hmem
    have hk' : xs[k]? = some x := by rw [List.getElem?_eq_getElem hk, hget]
    exact searchLoop_complete x xs hxs xs.length 0 xs.length k (by omega) le_rfl hk' (by omega) hk h
  · intro h
    cases hs : search x xs with
    | none => rfl
    | some i =>
        have hi := searchLoop_sound x xs _ _ _ _ hs
        exact absurd (List.mem_of_getElem? hi) h

theorem mem_insertSorted {x y : α} {xs : List α} :
    y ∈ insertSorted x xs ↔ y = x ∨ y ∈ xs := by
  unfold insertSorted
  cases hs : search x xs with
  | none =>
      simp only [List.mem_insertionSort, List.mem_append, List.mem_singleton]
      exact or_comm
  | some i =>
      have hx : x ∈ xs := List.mem_of_getElem? (searchLoop_sound x xs _ _ _ _ hs)
      constructor
      · exact Or.inr
      · rintro (rfl | h)
        · exact hx
        · exact h

theorem insertSorted_pairwise {x : α} {xs : List α} (hxs : xs.Pairwise (· < ·)) :
    (insertSorted x xs).Pairwise (· < ·) := by
  unfold insertSorted
  cases hs : search x xs with
  | some i => exact hxs
  | none =>
      have hx : x ∉ xs := (search_eq_none_iff hxs).mp hs
      have hnodup : (xs ++ [x]).Nodup := by
        rw [List.nodup_append]
        refine ⟨hxs.imp fun h => h.ne, List.nodup_singleton x, ?_⟩
        intro a ha b hb hab
        rw [List.mem_singleton] at hb
        rw [hab, hb] at ha
        exact hx ha
      simp only [compareWith_nonpos_iff]
      have hsorted : ((xs ++ [x]).insertionSort (· ≤ ·)).Pairwise (· ≤ ·) :=
        List.pairwise_insertionSort (· ≤ ·) _
      have hnodup' : ((xs ++ [x]).insertionSort (· ≤ ·)).Nodup :=
        (List.perm_insertionSort (· ≤ ·) _).nodup_iff.mpr hnodup
      exact (hsorted.and hnodup').imp fun h => lt_of_le_of_ne h.1 h.2

theorem eraseSorted_eq {x : α} {xs : List α} (hxs : xs.Pairwise (· < ·)) :
    eraseSorted x xs = xs.erase x := by
  unfold eraseSorted
  cases hs : search x xs with
  | none => exact (List.erase_of_not_mem ((search_eq_none_iff hxs).mp hs)).symm
  | some i =>
      have hi := searchLoop_sound x xs _ _ _ _ hs
      obtain ⟨hlt, hget⟩ := List.getElem?_eq_some_iff.mp hi
      have hnodup : xs.Nodup := hxs.imp fun h => h.ne
      subst hget
      exact (hnodup.erase_getElem i hlt).symm

theorem mem_eraseSorted {x y : α} {xs : List α} (hxs : xs.Pairwise (· < ·)) :
    y ∈ eraseSorted x xs ↔ y ≠ x ∧ y ∈ xs := by
  have hnodup : xs.Nodup := hxs.imp fun h => h.ne
  rw [eraseSorted_eq hxs, hnodup.mem_erase_iff]

theorem eraseSorted_pairwise {x : α} {xs : List α} (hxs : xs.Pairwise (· < ·)) :
    (eraseSorted x xs).Pairwise (· < ·) := by
  rw [eraseSorted_eq hxs]
  exact hxs.sublist List.erase_sublist

end EsyncUa.SortedArrays
