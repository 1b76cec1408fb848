import Mathlib.Logic.Basic

/-!
Cyclic redundancy checks that take the lowest bit of every word first. Feeding is linear, and
bits that agree with those of the register only move it down. So a word is fed at once by what a
table has for the lowest bits of the register and the word together.
-/
namespace EsyncUa.ReflectedCrc

variable {w n : Nat} (poly : BitVec w)

/-- One bit of the message. The polynomial is added if the bit that leaves the register differs
from it. -/
def feedBit (crc : BitVec w) (bit : Bool) : BitVec w :=
  if crc.getLsbD 0 = bit then crc >>> 1 else (crc >>> 1) ^^^ poly

/-- Some bits of a word, the lowest one first. -/
def feedWord {m : Nat} : Nat → BitVec w → BitVec m → BitVec w
  | 0, crc, _ => crc
  | k + 1, crc, word => feedWord k (feedBit poly crc (word.getLsbD 0)) (word >>> 1)

/-- The check of a message, from a start value. -/
def crc (start : BitVec w) (message : List (BitVec n)) : BitVec w :=
  message.foldl (feedWord poly n) start

/-- What is added to the register for its lowest bits. -/
def tableEntry (index : BitVec n) : BitVec w := feedWord poly n (index.setWidth w) (0 : BitVec n)

theorem feedBit_eq (crc : BitVec w) (bit : Bool) :
    feedBit poly crc bit = (crc >>> 1) ^^^ if crc.getLsbD 0 = bit then 0 else poly := by
  unfold feedBit
  split
  · exact (BitVec.xor_zero).symm
  · rfl

theorem feedBit_xor (a b : BitVec w) (x y : Bool) :
    feedBit poly (a ^^^ b) (x ^^ y) = feedBit poly a x ^^^ feedBit poly b y := by
  have hadded : (if (a ^^^ b).getLsbD 0 = (x ^^ y) then 0 else poly) =
      (if a.getLsbD 0 = x then 0 else poly) ^^^ (if b.getLsbD 0 = y then 0 else poly) := by
    rw [BitVec.getLsbD_xor]
    cases a.getLsbD 0 <;> cases b.getLsbD 0 <;> cases x <;> cases y <;> simp
  rw [feedBit_eq, feedBit_eq, feedBit_eq, hadded, BitVec.ushiftRight_xor_distrib]
  ac_rfl

/-- Feeding is linear in the register and the message together. -/
theorem feedWord_xor {m : Nat} (k : Nat) (a b : BitVec w) (x y : BitVec m) :
    feedWord poly k (a ^^^ b) (x ^^^ y) = feedWord poly k a x ^^^ feedWord poly k b y := by
  induction k generalizing a b x y with
  | zero => rfl
  | succ k ih =>
      simp only [feedWord]
      rw [BitVec.getLsbD_xor, feedBit_xor, BitVec.ushiftRight_xor_distrib, ih]

/-- The register only moves down while it is fed its own bits. -/
theorem feedWord_of_agree {m : Nat} (k : Nat) (crc : BitVec w) (word : BitVec m)
    (h : ∀ i, i < k → crc.getLsbD i = word.getLsbD i) : feedWord poly k crc word = crc >>> k := by
  induction k generalizing crc word with
  | zero => exact (BitVec.ushiftRight_zero crc).symm
  | succ k ih =>
      have hbit : feedBit poly crc (word.getLsbD 0) = crc >>> 1 := if_pos (h 0 (Nat.succ_pos k))
      have hrest : ∀ i, i < k → (crc >>> 1).getLsbD i = (word >>> 1).getLsbD i := by
        intro i hi
        rw [BitVec.getLsbD_ushiftRight, BitVec.getLsbD_ushiftRight]
        exact h (1 + i) (by omega)
      rw [feedWord, hbit, ih _ _ hrest, ← BitVec.shiftRight_add, Nat.add_comm]

/-- A word at once: the entry for the lowest bits of register and word, added to the register
without these bits. -/
theorem feedWord_eq_tableEntry (hwidth : n ≤ w) (crc : BitVec w) (word : BitVec n) :
    feedWord poly n crc word = tableEntry poly (crc.setWidth n ^^^ word) ^^^ (crc >>> n) := by
  let index : BitVec w := (crc.setWidth n ^^^ word).setWidth w
  have hindex (i : Nat) :
      index.getLsbD i = (decide (i < n) && (crc.getLsbD i ^^ word.getLsbD i)) := by
    simp only [index, BitVec.getLsbD_setWidth, BitVec.getLsbD_xor]
    by_cases hi : i < n
    · have hiw : i < w := by omega
      simp [hi, hiw]
    · simp [hi, BitVec.getLsbD_of_ge word i (by omega)]
  have hagree : ∀ i, i < n → (index ^^^ crc).getLsbD i = word.getLsbD i := by
    intro i hi
    rw [BitVec.getLsbD_xor, hindex, decide_eq_true hi, Bool.true_and]
    cases crc.getLsbD i <;> cases word.getLsbD i <;> rfl
  have hgone : (index ^^^ crc) >>> n = crc >>> n := by
    apply BitVec.eq_of_getLsbD_eq
    intro i _
    have hout : ¬ n + i < n := by omega
    simp [hindex, hout]
  have hcrc : crc = index ^^^ (index ^^^ crc) := by
    rw [← BitVec.xor_assoc, BitVec.xor_self, BitVec.zero_xor]
  have hword : word = 0 ^^^ word := BitVec.zero_xor.symm
  calc feedWord poly n crc word = feedWord poly n (index ^^^ (index ^^^ crc)) (0 ^^^ word) := by
        rw [← hcrc, ← hword]
    _ = feedWord poly n index 0 ^^^ feedWord poly n (index ^^^ crc) word := feedWord_xor ..
    _ = tableEntry poly (crc.setWidth n ^^^ word) ^^^ (crc >>> n) := by
        rw [feedWord_of_agree poly n _ _ hagree, hgone]
        rfl

end EsyncUa.ReflectedCrc
