import Slopty.Lib.Text

/-!
Numbers as decimal digits, without zeros in front.
-/

namespace Slopty.Lib.Decimal

open Slopty.Lib

theorem toDigits_injective : Function.Injective (Nat.toDigits 10) := by
  intro m n h
  rw [← Nat.ofDigitChars_ten_toDigits (n := m), h, Nat.ofDigitChars_ten_toDigits]

theorem isDigit_toDigits {n : Nat} {c : Char} (h : c ∈ Nat.toDigits 10 n) : c.isDigit = true :=
  Nat.isDigit_of_mem_toDigits (by decide) (by decide) h

theorem head_toDigits {n : Nat} (h : 0 < n) : (Nat.toDigits 10 n).head? ≠ some '0' := by
  induction n using Nat.base_induction 10 (by decide) with
  | single m hm =>
    rw [Nat.toDigits_of_lt_base hm, List.head?_cons]
    intro hzero
    exact h.ne' (Nat.digitChar_eq_zero.mp (Option.some.inj hzero))
  | digit m k hk hm ih =>
    rw [← Nat.toDigits_append_toDigits (by decide) hm hk,
      List.head?_append_of_ne_nil _ Nat.toDigits_ne_nil]
    exact ih hm

/-- A digit as a character is the digit of its value. -/
theorem digitChar_of_isDigit {c : Char} (h : c.isDigit = true) :
    c.toNat - '0'.toNat < 10 ∧ (c.toNat - '0'.toNat).digitChar = c := by
  have hzero : '0'.toNat = 48 := rfl
  have hnine : '9'.toNat = 57 := rfl
  rw [Char.isDigit_iff_toNat] at h
  have hvalue : c.toNat - '0'.toNat < 10 := by omega
  refine ⟨hvalue, Char.toNat_inj.mp ?_⟩
  rw [Nat.toNat_digitChar_of_lt_ten hvalue]
  omega

theorem ofDigitChars_concat (digits : Text) (c : Char) :
    Nat.ofDigitChars 10 (digits ++ [c]) 0 =
      10 * Nat.ofDigitChars 10 digits 0 + (c.toNat - '0'.toNat) := by
  rw [Nat.ofDigitChars_append, Nat.ofDigitChars_cons, Nat.ofDigitChars_nil]

/-- Digits without a zero in front spell a number that is not zero. -/
theorem ofDigitChars_pos {digits : Text} (hne : digits ≠ [])
    (hdigits : ∀ c ∈ digits, c.isDigit = true) (hzero : digits.head? ≠ some '0') :
    0 < Nat.ofDigitChars 10 digits 0 := by
  induction digits using List.reverseRecOn with
  | nil => exact absurd rfl hne
  | append_singleton digits c ih =>
    rw [ofDigitChars_concat]
    cases digits with
    | nil =>
      have hc := (digitChar_of_isDigit (hdigits c List.mem_concat_self)).2
      have : c.toNat - '0'.toNat ≠ 0 := by
        intro hvalue
        rw [hvalue] at hc
        exact hzero (congrArg some hc.symm)
      omega
    | cons d digits =>
      have := ih nofun (fun c hc => hdigits c (List.mem_append_left _ hc)) hzero
      omega

/-- Digits without a zero in front are those of the number they spell. -/
theorem toDigits_ofDigitChars {digits : Text} (hne : digits ≠ [])
    (hdigits : ∀ c ∈ digits, c.isDigit = true) (hzero : digits.head? ≠ some '0') :
    Nat.toDigits 10 (Nat.ofDigitChars 10 digits 0) = digits := by
  induction digits using List.reverseRecOn with
  | nil => exact absurd rfl hne
  | append_singleton digits c ih =>
    obtain ⟨hvalue, hc⟩ := digitChar_of_isDigit (hdigits c List.mem_concat_self)
    rw [ofDigitChars_concat]
    cases digits with
    | nil => rw [Nat.ofDigitChars_nil, Nat.mul_zero, Nat.zero_add, Nat.toDigits_of_lt_base hvalue,
        hc, List.nil_append]
    | cons d digits =>
      have hinit := fun c hc => hdigits c (List.mem_append_left _ hc)
      have hpos := ofDigitChars_pos (List.cons_ne_nil d digits) hinit hzero
      rw [← Nat.toDigits_append_toDigits (by decide) hpos hvalue, ih nofun hinit hzero,
        Nat.toDigits_of_lt_base hvalue, hc]

/-- What a string of digits reads as: their number, if it has the room. -/
theorem parseU32_eq {digits : Text} (hne : digits ≠ []) (hdigits : ∀ c ∈ digits, c.isDigit = true) :
    Text.parseU32 digits =
      if Nat.ofDigitChars 10 digits 0 < 2 ^ 32 then some (Nat.ofDigitChars 10 digits 0) else none := by
  have hall : digits.all Char.isDigit = true := List.all_eq_true.mpr hdigits
  have hparse : Text.parseU64 digits =
      if digits ≠ [] ∧ digits.all Char.isDigit ∧ Nat.ofDigitChars 10 digits 0 < 2 ^ 64
      then some (Nat.ofDigitChars 10 digits 0) else none := by
    obtain ⟨c, rest, rfl⟩ := List.exists_cons_of_ne_nil hne
    have hplus : c ≠ '+' := fun h => absurd (hdigits c List.mem_cons_self) (by rw [h]; decide)
    simp [Text.parseU64, Nat.ofDigitChars_eq_foldl, hplus]
  by_cases hroom : Nat.ofDigitChars 10 digits 0 < 2 ^ 32
  · have hwide : Nat.ofDigitChars 10 digits 0 < 2 ^ 64 := Nat.lt_trans hroom (by decide)
    rw [Text.parseU32, hparse, if_pos ⟨hne, hall, hwide⟩, if_pos hroom, Option.filter_some,
      if_pos (decide_eq_true hroom)]
  · rw [Text.parseU32, if_neg hroom, Option.filter_eq_none_iff]
    intro n hn
    rw [hparse, Option.ite_none_right_eq_some] at hn
    rw [← Option.some.inj hn.2]
    exact decide_eq_false hroom ▸ Bool.false_ne_true

end Slopty.Lib.Decimal
