import EsyncUa.Base64Code
import EsyncUa.CStrings

/-!
base64.c: the encoder and the decoder of the keys. The decoder reads four characters in each
round of its loop and looks for the terminator in the first of them only.
-/
namespace EsyncUa.Base64Strings

open EsyncUa.CStrings EsyncUa.Base64Code

def base64char : List Byte :=
  "ABCDEFGHIJKLMNOPQRSTUVWXYZabcdefghijklmnopqrstuvwxyz0123456789+/".toList.map
    fun c => c.toNat.toUInt8

def paddingChar : Byte := 61

/-- A character as an operand; `char` may be signed. -/
def operand (signed : Bool) (c : Byte) : Int32 :=
  if signed then c.toInt8.toInt32 else .ofNat c.toNat

/-- The low byte that is stored of an operand. -/
def low (x : Int32) : Byte := x.toUInt32.toUInt8

/-- `text[j++] = c`; the index is an int. -/
def put (text : List Byte) (c : Byte) : Option (List Byte) :=
  (int (text.length + 1)).map fun _ => text ++ [c]

def encodeChar (transIndex : Byte) : Byte := base64char.getD transIndex.toNat 0

section Encoder

variable (signed : Bool)

/-- The four indices of a round, from the characters it reads. -/
def index₀ (a : Byte) : Byte := low ((operand signed a >>> 2) &&& 0x3f)

def index₁ (a : Byte) : Byte := low ((operand signed a <<< 4) &&& 0x30)

def index₁' (a b : Byte) : Byte := index₁ signed a ||| low ((operand signed b >>> 4) &&& 0x0f)

def index₂ (b : Byte) : Byte := low ((operand signed b <<< 2) &&& 0x3c)

def index₂' (b c : Byte) : Byte := index₂ signed b ||| low ((operand signed c >>> 6) &&& 0x03)

def index₃ (c : Byte) : Byte := low (operand signed c &&& 0x3f)

/-- The loop of base64_encode_v over the characters that are left. -/
def encodeFrom : List Byte → List Byte → Option (List Byte)
  | [], base64 => some base64
  | [a], base64 =>
      [encodeChar (index₀ signed a), encodeChar (index₁ signed a), paddingChar,
        paddingChar].foldlM put base64
  | [a, b], base64 =>
      [encodeChar (index₀ signed a), encodeChar (index₁' signed a b),
        encodeChar (index₂ signed b), paddingChar].foldlM put base64
  | a :: b :: c :: rest, base64 => do
      let base64 ← [encodeChar (index₀ signed a), encodeChar (index₁' signed a b),
        encodeChar (index₂' signed b c), encodeChar (index₃ signed c)].foldlM put base64
      encodeFrom rest base64

/-- The length of a string as the int that it is stored in. -/
def datalength (sourcedata : CString) : Int := Int.bmod sourcedata.strlen (2 ^ 32)

/-- base64_encode_v: what is in base64 afterwards. -/
def base64EncodeV (sourcedata : CString) : Option (List Byte) :=
  (encodeFrom signed (sourcedata.bytes.take (datalength sourcedata).toNat) []).map (· ++ [0])

end Encoder

section Decoder

/-- The position in base64char, whose terminator is found too. -/
def numStrchr (c : Byte) : Int32 :=
  match (base64char ++ [0]).findIdx? (· = c) with
  | some pindex => .ofNat pindex
  | none => -1

def byte₀ (t₀ t₁ : Int32) : Byte :=
  low ((t₀ <<< 2 &&& (0xfc : Int32)) ||| (t₁ >>> 4 &&& (0x03 : Int32)))

def byte₁ (t₁ t₂ : Int32) : Byte :=
  low ((t₁ <<< 4 &&& (0xf0 : Int32)) ||| (t₂ >>> 2 &&& (0x0f : Int32)))

def byte₂ (t₂ t₃ : Int32) : Byte :=
  low ((t₂ <<< 6 &&& (0xc0 : Int32)) ||| (t₃ &&& (0x3f : Int32)))

/-- The bytes that one round writes. -/
def decodeRound (a b c d : Byte) : List Byte :=
  if c = paddingChar then [byte₀ (numStrchr a) (numStrchr b)]
  else if d = paddingChar then
    [byte₀ (numStrchr a) (numStrchr b), byte₁ (numStrchr b) (numStrchr c)]
  else
    [byte₀ (numStrchr a) (numStrchr b), byte₁ (numStrchr b) (numStrchr c),
      byte₂ (numStrchr c) (numStrchr d)]

/-- The loop of base64_decode from the index i on, where the memory goes on up to the
terminator; a read behind it has no result. -/
def decodeFrom : List Byte → Nat → List Byte → Option (List Byte)
  | [], _, _ => none
  | a :: memory, i, dedata =>
      if a = 0 then some dedata
      else
        match memory with
        | b :: c :: d :: rest => do
            let dedata ← (decodeRound a b c d).foldlM put dedata
            let i ← int (i + 4)
            decodeFrom rest i dedata
        | _ => none -- this round or the test of the next one reads behind the terminator

/-- base64_decode: what is in dedata afterwards, and the result. -/
def base64Decode (base64 : CString) : Option (List Byte × Nat) :=
  (decodeFrom base64.memory 0 []).map fun dedata => (dedata ++ [0], dedata.length)

def base64DecodeSize (size : Nat) : Option Nat := (int (size + 3)).map fun n => n / 4 * 3

end Decoder

section Bits

theorem low_or (x y : Int32) : low (x ||| y) = low x ||| low y := UInt32.toUInt8_or _ _

theorem low_ofNat (n : Nat) : low (.ofNat n) = .ofNat n := by
  unfold low
  simp

theorem testBit_low (x : Int32) {i : Nat} (h : i < 8) :
    (low x).toNat.testBit i = x.toBitVec.getLsbD i := by
  change (x.toBitVec.setWidth 8).toNat.testBit i = x.toBitVec.getLsbD i
  rw [BitVec.testBit_toNat, BitVec.getLsbD_setWidth]
  simp [h]

theorem getLsbD_ofNat (n : Nat) {i : Nat} (h : i < 32) :
    (Int32.ofNat n).toBitVec.getLsbD i = n.testBit i := by
  change (BitVec.ofNat 32 n).getLsbD i = n.testBit i
  rw [BitVec.getLsbD_ofNat]
  simp [h]

/-- The sign of a character does not get into its low byte. -/
theorem low_operand (signed : Bool) (c : Byte) : low (operand signed c) = c := by
  unfold operand
  split
  · apply UInt8.toBitVec_inj.mp
    change (c.toBitVec.signExtend 32).setWidth 8 = c.toBitVec
    apply BitVec.eq_of_getLsbD_eq
    intro i hi
    rw [BitVec.getLsbD_setWidth, BitVec.getLsbD_signExtend]
    simp [hi]
    omega
  · rw [low_ofNat, UInt8.ofNat_toNat]

theorem byte_ext {x : Byte} {n : Nat} (h : ∀ i < 8, x.toNat.testBit i = n.testBit i) :
    x = .ofNat n := by
  apply UInt8.toNat_inj.mp
  rw [UInt8.toNat_ofNat']
  apply Nat.eq_of_testBit_eq
  intro i
  rw [Nat.testBit_mod_two_pow]
  by_cases hi : i < 8
  · simp [h i hi, hi]
  · have hpow : (2 : Nat) ^ 8 ≤ 2 ^ i := Nat.pow_le_pow_right (by decide) (by omega)
    rw [Nat.testBit_lt_two_pow (Nat.lt_of_lt_of_le x.toNat_lt hpow)]
    simp [hi]

theorem shift_amount : ∀ k ≤ 8, ((Int32.ofNat k).toBitVec.smod 32).toNat = k := by
  decide

theorem low_and (x : Int32) (j : Nat) :
    low (x &&& .ofNat (2 ^ j - 1)) = .ofNat ((low x).toNat % 2 ^ j) := by
  apply byte_ext
  intro i hi
  rw [testBit_low _ hi, Nat.testBit_mod_two_pow, testBit_low _ hi, Int32.toBitVec_and,
    BitVec.getLsbD_and, getLsbD_ofNat _ (by omega), Nat.testBit_two_pow_sub_one, Bool.and_comm]

/-- A shift by k keeps j bits of the low byte, whatever is above them. -/
theorem low_shiftRight (x : Int32) {k j : Nat} (h : j + k ≤ 8) :
    low (x >>> .ofNat k &&& .ofNat (2 ^ j - 1)) = .ofNat ((low x).toNat / 2 ^ k % 2 ^ j) := by
  apply byte_ext
  intro i hi
  rw [testBit_low _ hi, Nat.testBit_mod_two_pow, Nat.testBit_div_two_pow, Int32.toBitVec_and,
    BitVec.getLsbD_and, getLsbD_ofNat _ (by omega), Nat.testBit_two_pow_sub_one,
    Int32.toBitVec_shiftRight]
  unfold BitVec.sshiftRight'
  rw [shift_amount k (by omega), BitVec.getLsbD_sshiftRight]
  by_cases hj : i < j
  · rw [testBit_low _ (by omega), Nat.add_comm k i, if_pos (by omega)]
    simp [hj]
    omega
  · simp [hj]

theorem low_shiftLeft (x : Int32) {k j : Nat} (h : j + k ≤ 8) :
    low (x <<< .ofNat k &&& .ofNat ((2 ^ j - 1) * 2 ^ k)) =
      .ofNat ((low x).toNat % 2 ^ j * 2 ^ k) := by
  apply byte_ext
  intro i hi
  rw [testBit_low _ hi, Nat.testBit_mul_two_pow, Nat.testBit_mod_two_pow, Int32.toBitVec_and,
    BitVec.getLsbD_and, getLsbD_ofNat _ (by omega), Nat.testBit_mul_two_pow,
    Nat.testBit_two_pow_sub_one, Int32.toBitVec_shiftLeft, BitVec.shiftLeft_eq',
    shift_amount k (by omega), BitVec.getLsbD_shiftLeft]
  by_cases hk : k ≤ i
  · rw [testBit_low _ (by omega)]
    have hle : ¬ i < k := by omega
    have hword : i < 32 := by omega
    simp only [hle, hk, hword, decide_true, decide_false, Bool.not_false, Bool.true_and]
    rw [Bool.and_comm]
  · simp [hk]

theorem or_eq_add (h : Nat) {l k : Nat} (hl : l < 2 ^ k) :
    UInt8.ofNat (h * 2 ^ k) ||| .ofNat l = .ofNat (h * 2 ^ k + l) := by
  rw [← UInt8.ofNat_or, Nat.mul_comm, ← Nat.two_pow_add_eq_or_of_lt hl]

theorem base64char_eq : base64char = (List.range 64).map digit := by
  unfold base64char
  simp only [String.reduceToList, List.map]
  rfl

theorem getD_base64char {d : Nat} (h : d < 64) : base64char.getD d 0 = digit d := by
  rw [base64char_eq, List.getD_eq_getElem?_getD, List.getElem?_map, List.getElem?_range h]
  rfl

theorem numStrchr_digit (d : Nat) (h : d < 64) : numStrchr (digit d) = .ofNat d := by
  have hrange : (List.range 64).findIdx? ((fun c => c = digit d) ∘ digit) = some d := by
    rw [List.findIdx?_eq_some_iff_getElem]
    refine ⟨by simpa using h, by simp, fun e he heq => ?_⟩
    simp only [List.getElem_range, Function.comp_apply, decide_eq_true_eq] at heq
    exact absurd (digit_injective (by omega) h heq) (by omega)
  have hfind : (base64char ++ [0]).findIdx? (· = digit d) = some d := by
    rw [base64char_eq, List.findIdx?_append, List.findIdx?_map]
    rw [hrange]
    rfl
  unfold numStrchr
  rw [hfind]

end Bits

theorem foldlM_put (cs text : List Byte) (h : text.length < 2 ^ 31) :
    cs.foldlM put text =
      if (text ++ cs).length < 2 ^ 31 then some (text ++ cs) else none := by
  induction cs generalizing text with
  | nil =>
      rw [List.append_nil, if_pos h]
      rfl
  | cons c cs ih =>
      rw [List.foldlM_cons, put]
      by_cases hnext : text.length + 1 < 2 ^ 31
      · have happend : text ++ c :: cs = text ++ [c] ++ cs := by simp
        rw [int_of_lt hnext, happend]
        exact ih (text ++ [c]) (by simpa using hnext)
      · have hlong : ¬ (text ++ c :: cs).length < 2 ^ 31 := by
          simp only [List.length_append, List.length_cons]
          omega
        rw [if_neg hlong, int_of_not_lt hnext]
        rfl

/-- A text of this length has an index that is an int for each character. -/
def Short (data : List Byte) : Prop := (encode data).length < 2 ^ 31

section Encoding

variable (signed : Bool)

/-- base64_encode_v writes the encoding of the string and a terminator. -/
def Encodes (sourcedata : CString) : Prop :=
  base64EncodeV signed sourcedata = some (encode sourcedata.bytes ++ [0])

theorem shifts (a : Byte) :
    index₀ signed a = .ofNat (a.toNat / 4) ∧
    index₁ signed a = .ofNat (a.toNat % 4 * 16) ∧
    low ((operand signed a >>> 4) &&& 0x0f) = .ofNat (a.toNat / 16) ∧
    index₂ signed a = .ofNat (a.toNat % 16 * 4) ∧
    low ((operand signed a >>> 6) &&& 0x03) = .ofNat (a.toNat / 64) ∧
    index₃ signed a = .ofNat (a.toNat % 64) := by
  have ha := a.toNat_lt
  have hright : ∀ {k j : Nat}, j + k ≤ 8 → a.toNat / 2 ^ k < 2 ^ j →
      low (operand signed a >>> .ofNat k &&& .ofNat (2 ^ j - 1)) = .ofNat (a.toNat / 2 ^ k) := by
    intro k j h hlt
    rw [low_shiftRight _ h, low_operand, Nat.mod_eq_of_lt hlt]
  have hleft : ∀ {k j : Nat}, j + k ≤ 8 →
      low (operand signed a <<< .ofNat k &&& .ofNat ((2 ^ j - 1) * 2 ^ k)) =
        .ofNat (a.toNat % 2 ^ j * 2 ^ k) := by
    intro k j h
    rw [low_shiftLeft _ h, low_operand]
  refine ⟨?_, ?_, ?_, ?_, ?_, ?_⟩
  · exact hright (k := 2) (j := 6) (by decide) (by omega)
  · exact hleft (k := 4) (j := 2) (by decide)
  · exact hright (k := 4) (j := 4) (by decide) (by omega)
  · exact hleft (k := 2) (j := 4) (by decide)
  · exact hright (k := 6) (j := 2) (by decide) (by omega)
  · have hlow := low_and (operand signed a) 6
    rwa [low_operand] at hlow

theorem encodeChar_ofNat {d : Nat} (h : d < 64) : encodeChar (.ofNat d) = digit d := by
  rw [encodeChar, UInt8.toNat_ofNat_of_lt' (Nat.lt_trans h (by decide)), getD_base64char h]

/-- The characters of a round are the digits of its bytes. -/
theorem round_digits (a b c : Byte) :
    encodeChar (index₀ signed a) = digit (group a b c / 262144) ∧
    encodeChar (index₁ signed a) = digit (group a 0 c / 4096 % 64) ∧
    encodeChar (index₁' signed a b) = digit (group a b c / 4096 % 64) ∧
    encodeChar (index₂ signed b) = digit (group a b 0 / 64 % 64) ∧
    encodeChar (index₂' signed b c) = digit (group a b c / 64 % 64) ∧
    encodeChar (index₃ signed c) = digit (group a b c % 64) := by
  obtain ⟨h₀, h₁, -, -, -, -⟩ := shifts signed a
  obtain ⟨-, -, hb₁, h₂, -, -⟩ := shifts signed b
  obtain ⟨-, -, -, -, hc₂, h₃⟩ := shifts signed c
  have ha := a.toNat_lt
  have hb := b.toNat_lt
  have hc := c.toNat_lt
  refine ⟨?_, ?_, ?_, ?_, ?_, ?_⟩
  · rw [h₀, first_digit, encodeChar_ofNat (by omega)]
  · rw [h₁, second_digit, encodeChar_ofNat (by omega)]
    rfl
  · have hor := or_eq_add (a.toNat % 4) (k := 4) (show b.toNat / 16 < 2 ^ 4 by omega)
    rw [index₁', h₁, hb₁, second_digit]
    exact (congrArg encodeChar hor).trans (encodeChar_ofNat (by omega))
  · rw [h₂, third_digit, encodeChar_ofNat (by omega)]
    rfl
  · have hor := or_eq_add (b.toNat % 16) (k := 2) (show c.toNat / 64 < 2 ^ 2 by omega)
    rw [index₂', h₂, hc₂, third_digit]
    exact (congrArg encodeChar hor).trans (encodeChar_ofNat (by omega))
  · rw [h₃, fourth_digit, encodeChar_ofNat (by omega)]

theorem encodeFrom_eq (data base64 : List Byte) (h : base64.length < 2 ^ 31) :
    encodeFrom signed data base64 =
      if (base64 ++ encode data).length < 2 ^ 31 then some (base64 ++ encode data) else none := by
  induction data using encode.induct generalizing base64 with
  | case1 =>
      rw [encode, List.append_nil, if_pos h]
      rfl
  | case2 a =>
      obtain ⟨h₀, h₁, -⟩ := round_digits signed a 0 0
      rw [encodeFrom, foldlM_put _ _ h, h₀, h₁]
      rfl
  | case3 a b =>
      obtain ⟨h₀, -, h₁, h₂, -⟩ := round_digits signed a b 0
      rw [encodeFrom, foldlM_put _ _ h, h₀, h₁, h₂]
      rfl
  | case4 a b c rest ih =>
      obtain ⟨h₀, -, h₁, -, h₂, h₃⟩ := round_digits signed a b c
      rw [encodeFrom, foldlM_put _ _ h, h₀, h₁, h₂, h₃, encode, ← List.append_assoc base64]
      split
      · rename_i hround
        rw [Option.bind_eq_bind, Option.bind_some, ih _ hround]
      · rename_i hround
        rw [if_neg]
        · rfl
        · simp only [List.length_append] at hround ⊢
          omega

theorem encodes_iff (sourcedata : CString) :
    Encodes signed sourcedata ↔ Short sourcedata.bytes := by
  unfold Encodes base64EncodeV Short
  rw [encodeFrom_eq signed _ _ (by decide), List.nil_append]
  constructor
  · intro h
    split at h
    · rename_i hshort
      rw [Option.map_some, Option.some.injEq] at h
      rwa [List.append_cancel_right h] at hshort
    · cases h
  · intro h
    have hlen : sourcedata.bytes.length < 2 ^ 31 := by
      rw [length_encode] at h
      omega
    have hint : datalength sourcedata = sourcedata.strlen := by
      unfold datalength
      rw [Int.bmod_eq_of_le] <;> (unfold CString.strlen; omega)
    have hall : sourcedata.bytes.take (datalength sourcedata).toNat = sourcedata.bytes := by
      rw [hint]
      exact List.take_of_length_le (Nat.le_refl _)
    rw [hall, if_pos h]
    rfl

end Encoding

section Decoding

theorem decodeRound_length (a b c d : Byte) : (decodeRound a b c d).length ≤ 3 := by
  unfold decodeRound
  split
  · exact Nat.le_of_ble_eq_true rfl
  · split <;> exact Nat.le_of_ble_eq_true rfl

/-- A round has room for its bytes where the index of the next one is an int. -/
theorem decodeFrom_round {a : Byte} (ha : a ≠ 0) (b c d : Byte) (rest : List Byte) {i : Nat}
    {dedata : List Byte} (h : dedata.length ≤ i) :
    decodeFrom (a :: b :: c :: d :: rest) i dedata =
      (int (i + 4)).bind fun i => decodeFrom rest i (dedata ++ decodeRound a b c d) := by
  have hround := decodeRound_length a b c d
  rw [decodeFrom, if_neg ha]
  by_cases hnext : i + 4 < 2 ^ 31
  · rw [foldlM_put _ _ (by omega), if_pos (by rw [List.length_append]; omega)]
    rfl
  · rw [int_of_not_lt hnext]
    cases (decodeRound a b c d).foldlM put dedata <;> rfl

theorem decodeFrom_end (i : Nat) (dedata : List Byte) : decodeFrom [0] i dedata = some dedata := by
  simp [decodeFrom]

/-- base64_decode writes the bytes and a terminator and returns their number, for which
base64_decode_size has room. -/
def Decodes (data : List Byte) : Prop :=
  base64Decode ⟨encode data, zero_notMem_encode data⟩ = some (data ++ [0], data.length) ∧
    ∃ size, base64DecodeSize (encode data).length = some size ∧ data.length ≤ size

theorem ofNat_group_byte (a : Byte) {n : Nat} (h : n = a.toNat) : UInt8.ofNat n = a := by
  rw [h, UInt8.ofNat_toNat]

section Digits

variable {d e : Nat} (hd : d < 64) (he : e < 64)

include hd

theorem toNat_low : (low (.ofNat d)).toNat = d := by
  rw [low_ofNat, UInt8.toNat_ofNat_of_lt' (Nat.lt_trans hd (by decide))]

include he

theorem byte₀_ofNat : byte₀ (.ofNat d) (.ofNat e) = .ofNat (d * 4 + e / 16) := by
  have hhigh := low_shiftLeft (.ofNat d) (k := 2) (j := 6) (by decide)
  have hlow := low_shiftRight (.ofNat e) (k := 4) (j := 2) (by decide)
  rw [toNat_low hd, Nat.mod_eq_of_lt (show d < 2 ^ 6 from hd)] at hhigh
  rw [toNat_low he, Nat.mod_eq_of_lt (by omega)] at hlow
  exact (low_or _ _).trans ((congrArg₂ _ hhigh hlow).trans (or_eq_add d (by omega)))

theorem byte₁_ofNat : byte₁ (.ofNat d) (.ofNat e) = .ofNat (d % 16 * 16 + e / 4) := by
  have hhigh := low_shiftLeft (.ofNat d) (k := 4) (j := 4) (by decide)
  have hlow := low_shiftRight (.ofNat e) (k := 2) (j := 4) (by decide)
  rw [toNat_low hd] at hhigh
  rw [toNat_low he, Nat.mod_eq_of_lt (by omega)] at hlow
  exact (low_or _ _).trans ((congrArg₂ _ hhigh hlow).trans (or_eq_add (d % 16) (by omega)))

theorem byte₂_ofNat : byte₂ (.ofNat d) (.ofNat e) = .ofNat (d % 4 * 64 + e) := by
  have hhigh := low_shiftLeft (.ofNat d) (k := 6) (j := 2) (by decide)
  have hlow := low_and (.ofNat e) 6
  rw [toNat_low hd] at hhigh
  rw [toNat_low he, Nat.mod_eq_of_lt (show e < 2 ^ 6 from he)] at hlow
  exact (low_or _ _).trans ((congrArg₂ _ hhigh hlow).trans (or_eq_add (d % 4) (by omega)))

end Digits

/-- The digits of three bytes are decoded to these. -/
theorem decoded_bytes (a b c : Byte) :
    byte₀ (numStrchr (digit (group a b c / 262144)))
      (numStrchr (digit (group a b c / 4096 % 64))) = a ∧
    byte₁ (numStrchr (digit (group a b c / 4096 % 64)))
      (numStrchr (digit (group a b c / 64 % 64))) = b ∧
    byte₂ (numStrchr (digit (group a b c / 64 % 64)))
      (numStrchr (digit (group a b c % 64))) = c := by
  have ha := a.toNat_lt
  have hb := b.toNat_lt
  have hc := c.toNat_lt
  rw [first_digit, second_digit, third_digit, fourth_digit, numStrchr_digit _ (by omega),
    numStrchr_digit _ (by omega), numStrchr_digit _ (by omega), numStrchr_digit _ (by omega)]
  refine ⟨?_, ?_, ?_⟩
  · rw [byte₀_ofNat (by omega) (by omega)]
    exact ofNat_group_byte a (by omega)
  · rw [byte₁_ofNat (by omega) (by omega)]
    exact ofNat_group_byte b (by omega)
  · rw [byte₂_ofNat (by omega) (by omega)]
    exact ofNat_group_byte c (by omega)

theorem padding_eq : padding = paddingChar := rfl

theorem digit_ne_padding {d : Nat} (h : d < 64) : digit d ≠ paddingChar := (digit_special d h).1

theorem decodeFrom_encode (data : List Byte) (i : Nat) (dedata : List Byte)
    (hi : i < 2 ^ 31) (h : dedata.length ≤ i) :
    decodeFrom (encode data ++ [0]) i dedata =
      if i + (encode data).length < 2 ^ 31 then some (dedata ++ data) else none := by
  induction data using encode.induct generalizing i dedata with
  | case1 =>
      rw [encode, List.nil_append, decodeFrom_end, List.length_nil, Nat.add_zero, if_pos hi,
        List.append_nil]
  | case2 a =>
      have hlt := group_lt a 0 0
      obtain ⟨h₀, -, -⟩ := decoded_bytes a 0 0
      rw [encode, List.cons_append, List.cons_append, List.cons_append, List.cons_append,
        List.nil_append, decodeFrom_round (digit_special _ (by omega)).2 _ _ _ _ h, decodeRound,
        if_pos padding_eq, h₀]
      simp only [decodeFrom_end]
      exact int_bind (i + 4) _
  | case3 a b =>
      have hlt := group_lt a b 0
      obtain ⟨h₀, h₁, -⟩ := decoded_bytes a b 0
      rw [encode, List.cons_append, List.cons_append, List.cons_append, List.cons_append,
        List.nil_append, decodeFrom_round (digit_special _ (by omega)).2 _ _ _ _ h, decodeRound,
        if_neg (digit_ne_padding (by omega)), if_pos padding_eq, h₀, h₁]
      simp only [decodeFrom_end]
      exact int_bind (i + 4) _
  | case4 a b c rest ih =>
      have hlt := group_lt a b c
      obtain ⟨h₀, h₁, h₂⟩ := decoded_bytes a b c
      rw [encode, List.append_assoc, List.cons_append, List.cons_append, List.cons_append,
        List.cons_append, List.nil_append,
        decodeFrom_round (digit_special _ (by omega)).2 _ _ _ _ h, decodeRound,
        if_neg (digit_ne_padding (by omega)), if_neg (digit_ne_padding (by omega)), h₀, h₁, h₂]
      by_cases hnext : i + 4 < 2 ^ 31
      · rw [int_of_lt hnext, Option.bind_some, ih _ _ hnext (by simp; omega)]
        rw [List.append_assoc, Nat.add_right_comm]
        rfl
      · rw [int_of_not_lt hnext, if_neg]
        · rfl
        · simp only [List.length_append, List.length_cons]
          omega

theorem decodes_iff (data : List Byte) : Decodes data ↔ Short data := by
  have hdecode : base64Decode ⟨encode data, zero_notMem_encode data⟩ =
      if (encode data).length < 2 ^ 31 then some (data ++ [0], data.length) else none := by
    unfold base64Decode CString.memory
    rw [decodeFrom_encode data 0 [] (by decide) (Nat.le_refl _), Nat.zero_add]
    split <;> rfl
  unfold Decodes Short
  rw [hdecode]
  constructor
  · rintro ⟨h, -⟩
    split at h
    · assumption
    · cases h
  · intro h
    refine ⟨if_pos h, ?_⟩
    have hlen := length_encode data
    refine ⟨((encode data).length + 3) / 4 * 3, ?_, by omega⟩
    unfold base64DecodeSize
    rw [int_of_lt (by omega)]
    rfl

/-- base64_decode comes to an end, reads nothing behind the terminator, and writes no more
than there is room for. -/
def Safe (base64 : CString) : Prop :=
  ∃ written j size, base64Decode base64 = some (written, j) ∧
    base64DecodeSize base64.strlen = some size ∧ written.length ≤ size + 1

/-- One to three characters are not enough for a round. -/
theorem decodeFrom_part {text : List Byte} (hne : text ≠ []) (hpart : text.length < 4)
    (htext : 0 ∉ text) {i : Nat} {dedata : List Byte} (h : dedata.length ≤ i) :
    decodeFrom (text ++ [0]) i dedata = none := by
  match text with
  | [] => exact absurd rfl hne
  | [a] =>
      have ha : a ≠ 0 := fun hzero => htext (hzero ▸ List.mem_cons_self)
      simp [decodeFrom, ha]
  | [a, b] =>
      have ha : a ≠ 0 := fun hzero => htext (hzero ▸ List.mem_cons_self)
      simp [decodeFrom, ha]
  | [a, b, c] =>
      have ha : a ≠ 0 := fun hzero => htext (hzero ▸ List.mem_cons_self)
      change decodeFrom [a, b, c, 0] i dedata = none
      rw [decodeFrom_round ha b c 0 [] h]
      cases int (i + 4) <;> rfl
  | a :: b :: c :: d :: rest =>
      simp only [List.length_cons] at hpart
      omega

/-- The loop stays within a whole number of groups and no other text. -/
theorem decodeFrom_safe (n : Nat) {text : List Byte} (hn : text.length < n) (htext : 0 ∉ text)
    {i : Nat} {dedata : List Byte} (hi : i < 2 ^ 31) (h : dedata.length ≤ i) :
    (4 ∣ text.length ∧ i + text.length < 2 ^ 31 →
      ∃ written, decodeFrom (text ++ [0]) i dedata = some written ∧
        written.length ≤ dedata.length + text.length / 4 * 3) ∧
      (¬ (4 ∣ text.length ∧ i + text.length < 2 ^ 31) →
        decodeFrom (text ++ [0]) i dedata = none) := by
  induction n generalizing text i dedata with
  | zero => omega
  | succ n ih =>
      by_cases hpart : text.length < 4
      · by_cases hnil : text = []
        · subst hnil
          refine ⟨fun _ => ⟨dedata, decodeFrom_end i dedata, Nat.le_add_right _ _⟩, fun hnot => ?_⟩
          exact absurd ⟨⟨0, rfl⟩, hi⟩ hnot
        · have hpos := List.length_pos_of_ne_nil hnil
          exact ⟨fun hboth => by omega, fun _ => decodeFrom_part hnil hpart htext h⟩
      · obtain ⟨a, b, c, d, rest, rfl⟩ : ∃ a b c d rest, text = a :: b :: c :: d :: rest := by
          match text with
          | a :: b :: c :: d :: rest => exact ⟨a, b, c, d, rest, rfl⟩
          | [_, _, _] | [_, _] | [_] | [] => exact absurd (by simp) hpart
        have ha : a ≠ 0 := fun hzero => htext (hzero ▸ List.mem_cons_self)
        have hrest : 0 ∉ rest := fun hmem => htext (by simp [hmem])
        have hround := decodeRound_length a b c d
        have hlen : (a :: b :: c :: d :: rest).length = rest.length + 4 := rfl
        simp only [List.cons_append]
        rw [decodeFrom_round ha b c d (rest ++ [0]) h, hlen]
        by_cases hnext : i + 4 < 2 ^ 31
        · rw [int_of_lt hnext, Option.bind_some]
          have hgrown : (dedata ++ decodeRound a b c d).length ≤ i + 4 := by
            rw [List.length_append]
            omega
          obtain ⟨hsome, hnone⟩ := ih (by omega) hrest hnext hgrown
          constructor
          · rintro ⟨hdvd, hshort⟩
            obtain ⟨written, hdecode, hwritten⟩ := hsome ⟨by omega, by omega⟩
            refine ⟨written, hdecode, ?_⟩
            rw [List.length_append] at hwritten
            omega
          · intro hnot
            exact hnone fun hboth => hnot ⟨by omega, by omega⟩
        · rw [int_of_not_lt hnext]
          exact ⟨fun hboth => absurd hboth.2 (by omega), fun _ => rfl⟩

end Decoding

/-- Encoder and decoder agree with the encoding exactly if its length is an int. -/
theorem round_trip_iff (signed : Bool) (sourcedata : CString) (data : List Byte) :
    (Encodes signed sourcedata ↔ Short sourcedata.bytes) ∧ (Decodes data ↔ Short data) :=
  ⟨encodes_iff signed sourcedata, decodes_iff data⟩

/-- The length of a string is kept in an int. -/
theorem long_string_not_encoded :
    ¬ ∀ (signed : Bool) (sourcedata : CString) (data : List Byte),
      Encodes signed sourcedata ∧ Decodes data := by
  intro h
  have hshort := (encodes_iff true longString).mp (h true longString []).1
  have hlength : (encode longString.bytes).length = (2 ^ 31 + 2) / 3 * 4 :=
    (length_encode _).trans (congrArg (fun n => (n + 2) / 3 * 4) strlen_longString)
  have hbound : (2 ^ 31 + 2) / 3 * 4 < 2 ^ 31 := lt_of_eq_of_lt hlength.symm hshort
  exact absurd hbound (by decide)

/-- base64_decode stays within its text exactly if it is a whole number of groups. -/
theorem safe_iff (base64 : CString) :
    Safe base64 ↔ 4 ∣ base64.strlen ∧ base64.strlen < 2 ^ 31 := by
  have hzero : (0 : Nat) < 2 ^ 31 := by decide
  have hsafe := decodeFrom_safe (base64.strlen + 1) (Nat.lt_succ_self _) base64.unterminated hzero
    (Nat.le_refl ([] : List Byte).length)
  rw [Nat.zero_add] at hsafe
  obtain ⟨hsome, hnone⟩ := hsafe
  unfold Safe base64Decode CString.memory
  constructor
  · rintro ⟨written, j, size, hdecode, -⟩
    by_contra hnot
    rw [hnone hnot] at hdecode
    cases hdecode
  · intro hboth
    obtain ⟨dedata, hdecode, hwritten⟩ := hsome hboth
    obtain ⟨hdvd, hshort⟩ := hboth
    refine ⟨dedata ++ [0], dedata.length, (base64.strlen + 3) / 4 * 3, by rw [hdecode]; rfl, ?_,
      ?_⟩
    · rw [base64DecodeSize, int_of_lt (by omega)]
      rfl
    · rw [List.length_nil] at hwritten
      change dedata.length ≤ 0 + base64.strlen / 4 * 3 at hwritten
      rw [List.length_append, List.length_cons, List.length_nil]
      omega

/-- A key of one character is read behind its terminator. -/
theorem single_character_not_safe : ¬ ∀ base64 : CString, Safe base64 := by
  intro h
  obtain ⟨written, j, size, hdecode, -⟩ := h ⟨[65], by decide⟩
  have hnone : base64Decode ⟨[65], by decide⟩ = none := by
    simp [base64Decode, CString.memory, decodeFrom]
  rw [hnone] at hdecode
  cases hdecode

end EsyncUa.Base64Strings
