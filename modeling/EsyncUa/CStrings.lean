import Mathlib.Algebra.Order.Ring.Int
import Mathlib.Data.List.TakeWhile

/-!
The strings of C and the integers that count them. A string is the bytes before its terminator.
An `int` has no value from 2^31 on; an unsigned size wraps around at 2^64.
-/
namespace EsyncUa.CStrings

abbrev Byte := UInt8

/-- The bytes of a string, without the terminator behind them. -/
structure CString where
  bytes : List Byte
  unterminated : 0 ∉ bytes

namespace CString

def strlen (s : CString) : Nat := s.bytes.length

/-- What can be read of the string: its bytes and the terminator. -/
def memory (s : CString) : List Byte := s.bytes ++ [0]

/-- The string that a memory holds. -/
def ofMemory (memory : List Byte) : CString where
  bytes := memory.takeWhile (· ≠ 0)
  unterminated h := by simpa using List.mem_takeWhile_imp h

/-- The string that C sees of a text. -/
def ofString (s : String) : CString := ofMemory (s.toList.flatMap String.utf8EncodeChar)

end CString

/-- A string of more characters than an `int` counts. -/
def longString : CString where
  bytes := List.replicate (2 ^ 31) 97
  unterminated h := absurd (List.eq_of_mem_replicate h) (by decide)

theorem strlen_longString : longString.strlen = 2 ^ 31 := List.length_replicate

section Utf8

/-- The bytes of a text. -/
def utf8 (text : List Char) : List Byte := text.flatMap String.utf8EncodeChar

theorem utf8_cons (c : Char) (text : List Char) :
    utf8 (c :: text) = String.utf8EncodeChar c ++ utf8 text := List.flatMap_cons

theorem utf8_append (text more : List Char) : utf8 (text ++ more) = utf8 text ++ utf8 more :=
  List.flatMap_append

theorem utf8EncodeChar_ascii {c : Char} (h : c.toNat < 128) :
    String.utf8EncodeChar c = [UInt8.ofNat c.toNat] := if_pos (by
  change c.toNat ≤ 127
  omega)

theorem high_byte (x : Nat) {m k : Nat} (hm : 0 < m) (hk : 128 ≤ k) (h : m + k ≤ 256) :
    128 ≤ (UInt8.ofNat (x % m + k)).toNat := by
  have hlt := Nat.mod_lt x hm
  rw [UInt8.toNat_ofNat_of_lt' (show x % m + k < 256 by omega)]
  omega

/-- The bytes of any other character are no characters of ASCII. -/
theorem utf8EncodeChar_other {c : Char} (h : 128 ≤ c.toNat) {b : Byte}
    (hb : b ∈ String.utf8EncodeChar c) : 128 ≤ b.toNat := by
  have hlong : ¬ c.val.toNat ≤ 127 := by
    change ¬ c.toNat ≤ 127
    omega
  unfold String.utf8EncodeChar at hb
  simp only [hlong, if_false] at hb
  split at hb
  · simp only [List.mem_cons, List.not_mem_nil, or_false] at hb
    rcases hb with rfl | rfl
    · exact high_byte _ (by decide) (by decide) (by decide)
    · exact high_byte _ (by decide) (by decide) (by decide)
  · split at hb
    · simp only [List.mem_cons, List.not_mem_nil, or_false] at hb
      rcases hb with rfl | rfl | rfl
      · exact high_byte _ (by decide) (by decide) (by decide)
      · exact high_byte _ (by decide) (by decide) (by decide)
      · exact high_byte _ (by decide) (by decide) (by decide)
    · simp only [List.mem_cons, List.not_mem_nil, or_false] at hb
      rcases hb with rfl | rfl | rfl | rfl
      · exact high_byte _ (by decide) (by decide) (by decide)
      · exact high_byte _ (by decide) (by decide) (by decide)
      · exact high_byte _ (by decide) (by decide) (by decide)
      · exact high_byte _ (by decide) (by decide) (by decide)

theorem zero_notMem_utf8 {text : List Char} (h : ∀ c ∈ text, c.toNat ≠ 0) : 0 ∉ utf8 text := by
  intro hzero
  obtain ⟨c, hc, hb⟩ := List.mem_flatMap.mp hzero
  by_cases hascii : c.toNat < 128
  · rw [utf8EncodeChar_ascii hascii, List.mem_singleton] at hb
    have hnat := congrArg UInt8.toNat hb
    rw [UInt8.toNat_ofNat_of_lt' (show c.toNat < 256 by omega)] at hnat
    exact h c hc hnat.symm
  · have hhigh := utf8EncodeChar_other (by omega) hb
    exact absurd hhigh (by decide)

/-- A text without a NUL is the whole of its string. -/
theorem ofString_bytes {s : String} (h : ∀ c ∈ s.toList, c.toNat ≠ 0) :
    (CString.ofString s).bytes = utf8 s.toList := by
  have hzero := zero_notMem_utf8 h
  refine List.takeWhile_eq_self_iff.mpr fun b hb => ?_
  simpa using fun hb' : b = 0 => hzero (hb' ▸ hb)

end Utf8
/-- A list begins with what becomes the other list. -/
theorem map_take_eq_iff {α β : Type} (f : α → β) {s : List α} {needle : List β} :
    (s.take needle.length).map f = needle ↔
      ∃ found rest, s = found ++ rest ∧ found.map f = needle := by
  constructor
  · intro h
    exact ⟨s.take needle.length, s.drop needle.length, (List.take_append_drop _ s).symm, h⟩
  · rintro ⟨found, rest, rfl, h⟩
    have hlen : found.length = needle.length := by rw [← h, List.length_map]
    rw [← hlen, List.take_left, h]

/-- The value of an `int`, which has none from 2^31 on. -/
def int (n : Nat) : Option Nat := if n < 2 ^ 31 then some n else none

@[simp] theorem int_eq_some_iff (n m : Nat) : int n = some m ↔ n < 2 ^ 31 ∧ n = m := by
  unfold int
  split <;> simp_all

theorem int_bind {α : Type} (n : Nat) (x : Option α) :
    ((int n).bind fun _ => x) = if n < 2 ^ 31 then x else none := by
  unfold int
  split <;> rfl

theorem int_of_lt {n : Nat} (h : n < 2 ^ 31) : int n = some n := if_pos h

theorem int_of_not_lt {n : Nat} (h : ¬ n < 2 ^ 31) : int n = none := if_neg h

/-- The value of a `size_t` that is computed as an integer. -/
def sizeT (n : Int) : Nat := (n % 2 ^ 64).toNat

theorem sizeT_of_lt {n : Nat} (h : n < 2 ^ 64) : sizeT n = n := by
  unfold sizeT
  omega

/-- What a `size_t` holds of the result of `read` or `write`; `none` is -1. -/
def resultSize (result : Option Nat) : Nat := sizeT ((result.map Int.ofNat).getD (-1))

theorem resultSize_none : resultSize none = 2 ^ 64 - 1 := rfl

theorem resultSize_some {n : Nat} (h : n < 2 ^ 64) : resultSize (some n) = n := sizeT_of_lt h

end EsyncUa.CStrings
