import Mathlib.Data.List.Basic
import Mathlib.Data.List.Nodup
import Mathlib.Logic.Function.Basic

/-!
Doubly linked lists in a memory of pointers: a node in front of a list or behind it, a node taken
out of the middle, and what each of these leaves as it was.
-/
namespace EsyncUa.LinkedNodes

/-- The two pointers of every node. -/
structure Links (ν : Type*) where
  next : ν → Option ν
  prev : ν → Option ν

section

variable {ν : Type*}

/-- The nodes `xs` are linked from the first to the last. The first points back to `before`. -/
def Linked (m : Links ν) (before : Option ν) (xs : List ν) : Prop :=
  ∀ l x r, xs = l ++ x :: r → m.next x = r.head? ∧ m.prev x = l.getLast?.or before

/-- The same without the pointers back. -/
def Threaded (m : Links ν) (xs : List ν) : Prop := ∀ l x r, xs = l ++ x :: r → m.next x = r.head?

variable {m m' : Links ν} {before : Option ν} {xs : List ν} {x : ν}

theorem linked_nil : Linked m before [] := by
  intro l x r h
  simp at h

theorem Linked.threaded (h : Linked m before xs) : Threaded m xs := fun l x r hxs => (h l x r hxs).1

theorem Threaded.tail (h : Threaded m (x :: xs)) : Threaded m xs := fun l y r hxs =>
  h (x :: l) y r (by simp [hxs])

theorem Threaded.next (h : Threaded m (x :: xs)) : m.next x = xs.head? := h [] x xs rfl

theorem Linked.congr (h : Linked m before xs)
    (hsame : ∀ x ∈ xs, m'.next x = m.next x ∧ m'.prev x = m.prev x) : Linked m' before xs := by
  intro l x r hxs
  have hx := hsame x (by simp [hxs])
  rw [hx.1, hx.2]
  exact h l x r hxs

theorem Threaded.congr (h : Threaded m xs) (hsame : ∀ x ∈ xs, m'.next x = m.next x) :
    Threaded m' xs := by
  intro l x r hxs
  rw [hsame x (by simp [hxs])]
  exact h l x r hxs

theorem Linked.prev_first (h : Linked m before (x :: xs)) : m.prev x = before := by
  simpa using (h [] x xs rfl).2

/-- An element of two lists together stands in the second or in the first. -/
theorem append_eq_append_cons {l r l' r' : List ν} {y : ν}
    (h : l ++ r = l' ++ y :: r') :
    (∃ t, l' = l ++ t ∧ r = t ++ y :: r') ∨ ∃ t, l = l' ++ y :: t ∧ r' = t ++ r := by
  rcases List.append_eq_append_iff.mp h with hl | ⟨_ | ⟨z, t⟩, hl, hr⟩
  · exact .inl hl
  · exact .inl ⟨[], by simpa using hl.symm, by simpa using hr.symm⟩
  · obtain ⟨rfl, rfl⟩ := List.cons.inj hr
    exact .inr ⟨t, hl, rfl⟩

theorem Linked.tail (h : Linked m before (x :: xs)) : Linked m (some x) xs := by
  intro l y r hxs
  obtain ⟨hnext, hprev⟩ := h (x :: l) y r (by simp [hxs])
  refine ⟨hnext, ?_⟩
  rw [hprev, List.getLast?_cons]
  cases h : l.getLast? <;> simp

end

variable {ν : Type*} [DecidableEq ν] {m : Links ν} {before : Option ν} {xs ys l r : List ν} {x : ν}

namespace Links

def setNext (m : Links ν) (x : ν) (p : Option ν) : Links ν :=
  { m with next := Function.update m.next x p }

def setPrev (m : Links ν) (x : ν) (p : Option ν) : Links ν :=
  { m with prev := Function.update m.prev x p }

/-- Stores to a node that may be missing. -/
def setNextAt (m : Links ν) (x p : Option ν) : Links ν :=
  match x with
  | none => m
  | some x => m.setNext x p

def setPrevAt (m : Links ν) (x p : Option ν) : Links ν :=
  match x with
  | none => m
  | some x => m.setPrev x p

/-- The new node `x` in front of the list that begins at `head`. -/
def pushFront (m : Links ν) (head : Option ν) (x : ν) : Links ν :=
  ((m.setNext x head).setPrev x none).setPrevAt head (some x)

/-- The new node `x` behind the list that ends with `last`. -/
def pushBack (m : Links ν) (last : Option ν) (x : ν) : Links ν :=
  ((m.setNext x none).setPrev x last).setNextAt last (some x)

/-- The neighbours of `x` point to one another. -/
def unlink (m : Links ν) (x : ν) : Links ν :=
  (m.setNextAt (m.prev x) (m.next x)).setPrevAt (m.next x) (m.prev x)

theorem setNextAt_next (m : Links ν) (x p : Option ν) (y : ν) :
    (m.setNextAt x p).next y = if some y = x then p else m.next y := by
  cases x <;> simp [setNextAt, setNext, Function.update_apply]

@[simp] theorem setNextAt_prev (m : Links ν) (x p : Option ν) :
    (m.setNextAt x p).prev = m.prev := by
  cases x <;> rfl

theorem setPrevAt_prev (m : Links ν) (x p : Option ν) (y : ν) :
    (m.setPrevAt x p).prev y = if some y = x then p else m.prev y := by
  cases x <;> simp [setPrevAt, setPrev, Function.update_apply]

@[simp] theorem setPrevAt_next (m : Links ν) (x p : Option ν) :
    (m.setPrevAt x p).next = m.next := by
  cases x <;> rfl

theorem pushFront_next (m : Links ν) (head : Option ν) (x y : ν) :
    (m.pushFront head x).next y = if y = x then head else m.next y := by
  simp [pushFront, setNext, setPrev, Function.update_apply]

theorem pushFront_prev (m : Links ν) (head : Option ν) (x y : ν) :
    (m.pushFront head x).prev y =
      if some y = head then some x else if y = x then none else m.prev y := by
  simp [pushFront, setPrevAt_prev, setNext, setPrev, Function.update_apply]

theorem pushBack_next (m : Links ν) (last : Option ν) (x y : ν) :
    (m.pushBack last x).next y =
      if some y = last then some x else if y = x then none else m.next y := by
  simp [pushBack, setNextAt_next, setNext, setPrev, Function.update_apply]

theorem pushBack_prev (m : Links ν) (last : Option ν) (x y : ν) :
    (m.pushBack last x).prev y = if y = x then last else m.prev y := by
  simp [pushBack, setNext, setPrev, Function.update_apply]

theorem unlink_next (m : Links ν) (x y : ν) :
    (m.unlink x).next y = if some y = m.prev x then m.next x else m.next y := by
  simp [unlink, setNextAt_next]

theorem unlink_prev (m : Links ν) (x y : ν) :
    (m.unlink x).prev y = if some y = m.next x then m.prev x else m.prev y := by
  simp [unlink, setPrevAt_prev]

end Links

theorem Linked.setPrev_first (h : Linked m before (x :: xs)) (hx : x ∉ xs) (p : Option ν) :
    Linked (m.setPrev x p) p (x :: xs) := by
  intro l y r hl
  obtain ⟨hnext, hprev⟩ := h l y r hl
  refine ⟨hnext, ?_⟩
  cases l with
  | nil =>
    obtain ⟨rfl, rfl⟩ := List.cons.inj hl
    simp [Links.setPrev]
  | cons z l =>
    obtain ⟨rfl, rfl⟩ := List.cons.inj hl
    have hy : y ≠ x := fun h => hx (by simp [← h])
    simp [Links.setPrev, hy, hprev, List.getLast?_cons]

theorem Linked.pushFront (h : Linked m none xs) (hx : x ∉ xs) (hnodup : xs.Nodup) :
    Linked (m.pushFront xs.head? x) none (x :: xs) := by
  intro l y r hl
  rw [Links.pushFront_next, Links.pushFront_prev]
  cases l with
  | nil =>
    obtain ⟨rfl, rfl⟩ := List.cons.inj hl
    have hhead : some x ≠ xs.head? := fun h => hx (List.mem_of_mem_head? (by simp [← h]))
    simp [hhead]
  | cons z l =>
    obtain ⟨rfl, rfl⟩ := List.cons.inj hl
    have hy : y ≠ x := fun h => hx (by simp [← h])
    obtain ⟨hnext, hprev⟩ := h l y r rfl
    refine ⟨by simp [hy, hnext], ?_⟩
    cases l with
    | nil => simp
    | cons w l =>
      have hyw : y ≠ w := by
        rintro rfl
        simp at hnodup
      simp [hyw, hy, hprev]

/-- A list that shares no node with the one that gets a new first node stays linked. -/
theorem Linked.pushFront_other (h : Linked m before ys) (hx : x ∉ ys) (hdisj : ys.Disjoint xs) :
    Linked (m.pushFront xs.head? x) before ys := by
  refine h.congr fun y hy => ?_
  have hyx : y ≠ x := fun h => hx (h ▸ hy)
  have hyh : some y ≠ xs.head? := fun h => hdisj hy (List.mem_of_mem_head? (by simp [← h]))
  simp [Links.pushFront_next, Links.pushFront_prev, hyx, hyh]

theorem Threaded.pushFront_other (h : Threaded m ys) (hx : x ∉ ys) (head : Option ν) :
    Threaded (m.pushFront head x) ys := by
  refine h.congr fun y hy => ?_
  have hyx : y ≠ x := fun h => hx (h ▸ hy)
  simp [Links.pushFront_next, hyx]

theorem Linked.pushBack (h : Linked m before xs) (hx : x ∉ xs) (hnodup : xs.Nodup)
    (hne : xs ≠ []) : Linked (m.pushBack xs.getLast? x) before (xs ++ [x]) := by
  have hxlast : some x ≠ xs.getLast? := fun h => hx (List.mem_of_getLast? h.symm)
  intro l y r hl
  rw [Links.pushBack_next, Links.pushBack_prev]
  rcases List.eq_nil_or_concat r with rfl | ⟨r, z, rfl⟩
  · -- the new node
    obtain ⟨rfl, hy⟩ := List.append_inj' hl rfl
    obtain rfl : x = y := by simpa using hy
    obtain ⟨last, hlast⟩ := Option.ne_none_iff_exists'.mp (mt List.getLast?_eq_none_iff.mp hne)
    have hne : x ≠ last := by simpa [hlast] using hxlast
    simp [hne, hlast]
  · rw [List.concat_eq_append, ← List.cons_append, ← List.append_assoc] at hl
    obtain ⟨rfl, hz⟩ := List.append_inj' hl rfl
    obtain rfl : x = z := by simpa using hz
    have hyx : y ≠ x := fun h => hx (by simp [h])
    obtain ⟨hnext, hprev⟩ := h l y r rfl
    refine ⟨?_, by simp [hyx, hprev]⟩
    rcases List.eq_nil_or_concat r with rfl | ⟨r, w, rfl⟩
    · simp
    · have hyw : y ≠ w := by
        rintro rfl
        simp [List.nodup_append] at hnodup
      have hlast : (l ++ y :: r.concat w).getLast? = some w := by
        rw [List.concat_eq_append, ← List.cons_append, ← List.append_assoc, List.getLast?_concat]
      rw [hlast, if_neg (by simpa using hyw), if_neg hyx, hnext]
      simp

/-- The list without `x`. If `x` is the first node, nothing may point back out of the list. -/
theorem Linked.unlink (h : Linked m before (l ++ x :: r)) (hnodup : (l ++ x :: r).Nodup)
    (hfirst : l = [] → before = none) : Linked (m.unlink x) before (l ++ r) := by
  obtain ⟨hnext, hprev⟩ := h l x r rfl
  intro l' y r' hl
  rw [Links.unlink_next, Links.unlink_prev, hnext, hprev]
  rcases append_eq_append_cons hl with ⟨t, rfl, rfl⟩ | ⟨t, rfl, rfl⟩
  · -- the node stands behind `x`
    obtain ⟨hnexty, hprevy⟩ := h (l ++ x :: t) y r' (by simp)
    have hy : some y ≠ l.getLast?.or before := by
      rcases List.eq_nil_or_concat l with rfl | ⟨l, w, rfl⟩
      · simp [hfirst rfl]
      · rintro hyw
        obtain rfl : y = w := by simpa using hyw
        simp [List.nodup_append] at hnodup
    refine ⟨by rw [if_neg hy, hnexty], ?_⟩
    cases t with
    | nil => simp
    | cons w t =>
      have hyw : y ≠ w := by
        rintro rfl
        simp [List.nodup_append] at hnodup
      simp [hyw, hprevy]
  · -- the node stands in front of `x`
    obtain ⟨hnexty, hprevy⟩ := h l' y (t ++ x :: r) (by simp)
    have hy : some y ≠ r.head? := fun hy => by
      have hmem : y ∈ r := List.mem_of_mem_head? (by simp [← hy])
      simp [List.nodup_append, hmem] at hnodup
    refine ⟨?_, by rw [if_neg hy, hprevy]⟩
    rcases List.eq_nil_or_concat t with rfl | ⟨t, w, rfl⟩
    · simp
    · have hyw : y ≠ w := by
        rintro rfl
        simp [List.nodup_append] at hnodup
      have hlast : (l' ++ y :: t.concat w).getLast? = some w := by
        rw [List.concat_eq_append, ← List.cons_append, ← List.append_assoc, List.getLast?_concat]
      rw [hlast, Option.some_or, if_neg (by simpa using hyw), hnexty]
      cases t <;> simp

theorem Linked.unlink_other (h : Linked m before ys) (hx : Linked m none xs) (hmem : x ∈ xs)
    (hdisj : ys.Disjoint xs) : Linked (m.unlink x) before ys := by
  obtain ⟨l, r, rfl⟩ := List.append_of_mem hmem
  obtain ⟨hnext, hprev⟩ := hx l x r rfl
  refine h.congr fun y hy => ?_
  have hyn : some y ≠ m.next x := by
    rw [hnext]
    intro hyr
    have hmem : y ∈ r := List.mem_of_mem_head? (by simp [← hyr])
    exact hdisj hy (by simp [hmem])
  have hyp : some y ≠ m.prev x := by
    rw [hprev, Option.or_none]
    intro hyl
    have hmem : y ∈ l := List.mem_of_getLast? hyl.symm
    exact hdisj hy (by simp [hmem])
  simp [Links.unlink_next, Links.unlink_prev, hyn, hyp]

end EsyncUa.LinkedNodes
