import Mathlib.Data.List.Basic

/-!
The base64 encoding with padding. Three bytes are one number of four digits to the base 64;
one or two bytes at the end give two or three digits and are padded to four characters.
-/
namespace EsyncUa.Base64Code

/-- The character of a digit. -/
def digit (d : Nat) : UInt8 :=
  if d < 26 then .ofNat (65 + d)
  else if d < 52 then .ofNat (97 + (d - 26))
  else if d < 62 then .ofNat (48 + (d - 52))
  else if d = 62 then 43
  else 47

def padding : UInt8 := 61

/-- Three bytes as one number. -/
def group (a b c : UInt8) : Nat := a.toNat * 65536 + b.toNat * 256 + c.toNat

def encode : List UInt8 → List UInt8
  | [] => []
  | [a] => [digit (group a 0 0 / 262144), digit (group a 0 0 / 4096 % 64), padding, padding]
  | [a, b] =>
      [digit (group a b 0 / 262144), digit (group a b 0 / 4096 % 64),
        digit (group a b 0 / 64 % 64), padding]
  | a :: b :: c :: rest =>
      [digit (group a b c / 262144), digit (group a b c / 4096 % 64),
        digit (group a b c / 64 % 64), digit (group a b c % 64)] ++ encode rest

theorem group_lt (a b c : UInt8) : group a b c < 16777216 := by
  have ha := a.toNat_lt
  have hb := b.toNat_lt
  have hc := c.toNat_lt
  unfold group
  omega

theorem length_encode (data : List UInt8) :
    (encode data).length = (data.length + 2) / 3 * 4 := by
  induction data using encode.induct with
  | case1 => rfl
  | case2 a => simp [encode]
  | case3 a b => simp [encode]
  | case4 a b c rest ih =>
      simp only [encode, List.length_append, ih, List.length_cons, List.length_nil]
      omega

theorem toNat_digit {d : Nat} (h : d < 64) :
    (digit d).toNat =
      if d < 26 then d + 65
      else if d < 52 then d + 71
      else if d < 62 then d - 4
      else if d = 62 then 43
      else 47 := by
  unfold digit
  split
  · rw [UInt8.toNat_ofNat']
    omega
  · split
    · rw [UInt8.toNat_ofNat']
      omega
    · split
      · rw [UInt8.toNat_ofNat']
        omega
      · split <;> rfl

theorem digit_special (d : Nat) (h : d < 64) : digit d ≠ padding ∧ digit d ≠ 0 := by
  have hdigit := toNat_digit h
  constructor
  · intro heq
    rw [heq, show padding.toNat = 61 from rfl] at hdigit
    split_ifs at hdigit <;> omega
  · intro heq
    rw [heq, show (0 : UInt8).toNat = 0 from rfl] at hdigit
    split_ifs at hdigit
    omega

theorem digit_injective {d e : Nat} (hd : d < 64) (he : e < 64) (h : digit d = digit e) :
    d = e := by
  have htoNat := congrArg UInt8.toNat h
  rw [toNat_digit hd, toNat_digit he] at htoNat
  split_ifs at htoNat <;> omega

/-- Every character of an encoding is a digit or the padding. -/
theorem mem_encode {data : List UInt8} {c : UInt8} (h : c ∈ encode data) :
    c = padding ∨ ∃ d < 64, c = digit d := by
  induction data using encode.induct with
  | case1 => cases h
  | case2 a =>
      have hlt := group_lt a 0 0
      simp only [encode, List.mem_cons, List.not_mem_nil, or_false] at h
      rcases h with rfl | rfl | rfl | rfl
      · exact .inr ⟨_, by omega, rfl⟩
      · exact .inr ⟨_, by omega, rfl⟩
      · exact .inl rfl
      · exact .inl rfl
  | case3 a b =>
      have hlt := group_lt a b 0
      simp only [encode, List.mem_cons, List.not_mem_nil, or_false] at h
      rcases h with rfl | rfl | rfl | rfl
      · exact .inr ⟨_, by omega, rfl⟩
      · exact .inr ⟨_, by omega, rfl⟩
      · exact .inr ⟨_, by omega, rfl⟩
      · exact .inl rfl
  | case4 a b c' rest ih =>
      have hlt := group_lt a b c'
      rw [encode, List.mem_append] at h
      rcases h with h | h
      · simp only [List.mem_cons, List.not_mem_nil, or_false] at h
        rcases h with rfl | rfl | rfl | rfl
        · exact .inr ⟨_, by omega, rfl⟩
        · exact .inr ⟨_, by omega, rfl⟩
        · exact .inr ⟨_, by omega, rfl⟩
        · exact .inr ⟨_, by omega, rfl⟩
      · exact ih h

theorem zero_notMem_encode (data : List UInt8) : 0 ∉ encode data := by
  intro h
  rcases mem_encode h with h | ⟨d, hd, h⟩
  · cases h
  · exact (digit_special d hd).2 h.symm

section Digits

variable (a b c : UInt8)

/-- The digits of three bytes, and the bytes that four digits stand for. -/
theorem first_digit : group a b c / 262144 = a.toNat / 4 := by
  have hb := b.toNat_lt
  have hc := c.toNat_lt
  unfold group
  omega

theorem second_digit : group a b c / 4096 % 64 = a.toNat % 4 * 16 + b.toNat / 16 := by
  have hb := b.toNat_lt
  have hc := c.toNat_lt
  unfold group
  omega

theorem third_digit : group a b c / 64 % 64 = b.toNat % 16 * 4 + c.toNat / 64 := by
  have hc := c.toNat_lt
  unfold group
  omega

theorem fourth_digit : group a b c % 64 = c.toNat % 64 := by
  unfold group
  omega

end Digits

end EsyncUa.Base64Code
