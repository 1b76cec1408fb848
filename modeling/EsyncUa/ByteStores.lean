import Mathlib.Data.List.Basic

/-!
A buffer that is overwritten, enlarged and read in pieces, and the store it stands for: the
last value put at each position, if there is one.
-/
namespace EsyncUa.ByteStores

variable {α : Type*}

/-- The buffer with the data put at the offset. -/
def overwrite (buf : List α) (offset : Nat) (data : List α) : List α :=
  buf.take offset ++ data ++ buf.drop (offset + data.length)

/-- A buffer of the new size that keeps what fits; the rest holds `fresh`. -/
def resize (buf : List α) (size : Nat) (fresh : Nat → α) : List α :=
  (List.range size).map fun i => buf[i]?.getD (fresh i)

def slice (buf : List α) (offset length : Nat) : List α := (buf.drop offset).take length

theorem length_overwrite (buf : List α) (offset : Nat) (data : List α)
    (h : offset + data.length ≤ buf.length) :
    (overwrite buf offset data).length = buf.length := by
  simp only [overwrite, List.length_append, List.length_take, List.length_drop]
  omega

theorem getElem?_overwrite (buf : List α) (offset : Nat) (data : List α) (i : Nat)
    (h : offset + data.length ≤ buf.length) :
    (overwrite buf offset data)[i]? =
      if offset ≤ i ∧ i < offset + data.length then data[i - offset]? else buf[i]? := by
  have htake : (buf.take offset).length = offset := by
    rw [List.length_take]
    omega
  unfold overwrite
  rw [List.append_assoc]
  by_cases hbefore : i < offset
  · rw [List.getElem?_append_left (by omega), List.getElem?_take_of_lt hbefore,
      if_neg (by omega)]
  · rw [List.getElem?_append_right (by omega), htake]
    by_cases hinside : i < offset + data.length
    · rw [List.getElem?_append_left (by omega), if_pos ⟨by omega, hinside⟩]
    · rw [List.getElem?_append_right (by omega), List.getElem?_drop, if_neg (by omega)]
      congr 1
      omega

theorem length_resize (buf : List α) (size : Nat) (fresh : Nat → α) :
    (resize buf size fresh).length = size := by
  simp [resize]

theorem length_slice (buf : List α) (offset length : Nat) (h : offset + length ≤ buf.length) :
    (slice buf offset length).length = length := by
  simp only [slice, List.length_take, List.length_drop]
  omega

theorem getElem?_slice (buf : List α) (offset length i : Nat) (h : i < length) :
    (slice buf offset length)[i]? = buf[offset + i]? := by
  rw [slice, List.getElem?_take_of_lt h, List.getElem?_drop]

/-- The last value put at each position. -/
abbrev Store (α : Type*) := Nat → Option α

def Store.empty : Store α := fun _ => none

def Store.record (store : Store α) (offset : Nat) (data : List α) : Store α := fun i =>
  if offset ≤ i ∧ i < offset + data.length then data[i - offset]? else store i

/-- Every value of the store is at its position in the buffer. -/
def Holds (buf : List α) (store : Store α) : Prop :=
  ∀ i value, store i = some value → buf[i]? = some value

theorem holds_empty (buf : List α) : Holds buf Store.empty := nofun

namespace Holds

variable {buf : List α} {store : Store α}

theorem lt_length (h : Holds buf store) {i : Nat} {value : α} (hi : store i = some value) :
    i < buf.length := (List.getElem?_eq_some_iff.mp (h i value hi)).1

theorem overwrite (h : Holds buf store) (offset : Nat) (data : List α)
    (hfits : offset + data.length ≤ buf.length) :
    Holds (overwrite buf offset data) (store.record offset data) := by
  intro i value hi
  rw [getElem?_overwrite buf offset data i hfits]
  unfold Store.record at hi
  by_cases hinside : offset ≤ i ∧ i < offset + data.length
  · rwa [if_pos hinside] at hi ⊢
  · rw [if_neg hinside] at hi ⊢
    exact h i value hi

/-- A resized buffer keeps a store that lies within its new size. -/
theorem resize_covering (h : Holds buf store) (size : Nat) (fresh : Nat → α)
    (hcovers : ∀ i value, store i = some value → i < size) :
    Holds (ByteStores.resize buf size fresh) store := by
  intro i value hi
  have hsize := hcovers i value hi
  simp [ByteStores.resize, hsize, h i value hi]

theorem resize (h : Holds buf store) (size : Nat) (fresh : Nat → α) (hsize : buf.length ≤ size) :
    Holds (resize buf size fresh) store :=
  h.resize_covering size fresh fun _ _ hi => Nat.lt_of_lt_of_le (h.lt_length hi) hsize

theorem slice (h : Holds buf store) (offset length i : Nat) (value : α) (hi : i < length)
    (hvalue : store (offset + i) = some value) : (slice buf offset length)[i]? = some value := by
  rw [getElem?_slice buf offset length i hi]
  exact h (offset + i) value hvalue

end Holds

end EsyncUa.ByteStores
