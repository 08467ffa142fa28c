import Mathlib.Data.List.Forall2
import Mathlib.Data.Nat.Digits.Defs
import Mathlib.Tactic.IntervalCases
import RoleAudit.Markup.Quoted

/-!
# Numbers in escapes

An escape may name a character by a hexadecimal number.  This module says which digits are read as
which number, apart from the reader: a digit is small or capital, the highest comes first, and zeros
in front change nothing.  The reader takes one thing more for a number, a plus sign with a number
after it.

Main statements: `hex?_eq_some_iff` and `scalar?_eq_some_iff`.
-/

namespace RoleAudit.Markup.Quoted

/-- The hexadecimal digit of a value, small or capital. -/
def IsHexDigit (c : Char) (value : Nat) : Prop :=
  value < 16 ∧ (c = value.digitChar ∨ c = value.digitChar.toUpper)

/-- One hexadecimal digit or more, the highest first, write a number. -/
def IsNumeral (digits : List Char) (n : Nat) : Prop :=
  digits ≠ [] ∧ ∃ values, List.Forall₂ IsHexDigit digits values ∧ n = Nat.ofDigits 16 values.reverse

/-- The digits write a number, or they do after a plus sign. -/
def IsSignedNumeral (digits : List Char) (n : Nat) : Prop :=
  IsNumeral digits n ∨ ∃ others, digits = '+' :: others ∧ IsNumeral others n

/-! ### Digits -/

theorem exists_of_between {c low high : Char} (hlow : low ≤ c) (hhigh : c ≤ high) :
    ∃ d ≤ high.toNat - low.toNat, c.toNat = low.toNat + d := by
  have hlow' : low.toNat ≤ c.toNat := hlow
  have hhigh' : c.toNat ≤ high.toNat := hhigh
  exact ⟨c.toNat - low.toNat, by omega, by omega⟩

theorem hexDigit?_eq_some_iff {c : Char} {value : Nat} :
    hexDigit? c = some value ↔ IsHexDigit c value := by
  constructor
  · intro h
    have hc := Char.ofNat_toNat c
    unfold hexDigit? at h
    split_ifs at h with hdigit hsmall hcapital
    · obtain ⟨d, hd, hcode⟩ := exists_of_between hdigit.1 hdigit.2
      obtain rfl : d = value := by simpa [hcode] using h
      rw [hcode] at hc
      simp at hd
      interval_cases d <;> exact ⟨by omega, Or.inl hc.symm⟩
    · obtain ⟨d, hd, hcode⟩ := exists_of_between hsmall.1 hsmall.2
      obtain rfl : d + 10 = value := by simpa [hcode] using h
      rw [hcode] at hc
      simp at hd
      interval_cases d <;> exact ⟨by omega, Or.inl hc.symm⟩
    · obtain ⟨d, hd, hcode⟩ := exists_of_between hcapital.1 hcapital.2
      obtain rfl : d + 10 = value := by simpa [hcode] using h
      rw [hcode] at hc
      simp at hd
      interval_cases d <;> exact ⟨by omega, Or.inr hc.symm⟩
  · rintro ⟨hvalue, rfl | rfl⟩ <;> interval_cases value <;> rfl

theorem IsHexDigit.ne {c d : Char} {value : Nat} (h : IsHexDigit c value)
    (hd : hexDigit? d = none) : c ≠ d := by
  rintro rfl
  rw [hexDigit?_eq_some_iff.2 h] at hd
  cases hd

/-! ### Numbers -/

theorem hexFrom_eq_some_iff {start n : Nat} {digits : List Char} :
    hexFrom start digits = some n ↔ ∃ values, List.Forall₂ IsHexDigit digits values ∧
      n = Nat.ofDigits 16 (values.reverse ++ [start]) := by
  induction digits generalizing start with
  | nil => simp [hexFrom, eq_comm]
  | cons c digits ih =>
      -- the digits so far, and one more, are a digit of their own for those to come
      have hstep : ∀ digit (values : List Nat),
          Nat.ofDigits 16 ((digit :: values).reverse ++ [start]) =
            Nat.ofDigits 16 (values.reverse ++ [16 * start + digit]) := by
        intro digit values
        simp only [List.reverse_cons, List.append_assoc, Nat.ofDigits_append, List.singleton_append,
          Nat.ofDigits_cons, Nat.ofDigits_nil]
        ring
      simp only [hexFrom, Option.bind_eq_some_iff, ih, hexDigit?_eq_some_iff]
      constructor
      · rintro ⟨digit, hdigit, values, hvalues, rfl⟩
        exact ⟨digit :: values, .cons hdigit hvalues, (hstep digit values).symm⟩
      · rintro ⟨_, hall, rfl⟩
        cases hall with
        | @cons _ digit _ values hdigit hvalues =>
            exact ⟨digit, hdigit, values, hvalues, hstep digit values⟩

theorem hexFrom_zero_eq_some_iff {n : Nat} {digits : List Char} (hne : digits ≠ []) :
    hexFrom 0 digits = some n ↔ IsNumeral digits n := by
  rw [hexFrom_eq_some_iff, IsNumeral, and_iff_right hne]
  simp only [Nat.ofDigits_append_zero]

theorem IsNumeral.notMem {digits : List Char} {c : Char} {n : Nat} (h : IsNumeral digits n)
    (hc : hexDigit? c = none) : c ∉ digits := by
  obtain ⟨-, values, hvalues, -⟩ := h
  induction hvalues with
  | nil => exact List.not_mem_nil
  | cons hdigit _ ih => exact List.not_mem_cons_of_ne_of_not_mem (hdigit.ne hc).symm ih

/-- A number is read off digits, with a plus sign before them or without. -/
theorem hex?_eq_some_iff {digits : List Char} {n : Nat} :
    hex? digits = some n ↔ IsSignedNumeral digits n := by
  unfold hex?
  split
  · next c others =>
      rw [hexFrom_zero_eq_some_iff (by simp), IsSignedNumeral]
      refine ⟨fun h => Or.inr ⟨_, rfl, h⟩, ?_⟩
      rintro (h | ⟨_, heq, h⟩)
      · exact absurd List.mem_cons_self (h.notMem (by decide))
      · rwa [(List.cons.inj heq).2]
  · next c others hsign =>
      rw [hexFrom_zero_eq_some_iff (by simp), IsSignedNumeral]
      refine ⟨Or.inl, ?_⟩
      rintro (h | ⟨_, heq, h⟩)
      · exact h
      · -- a plus sign alone is no number
        obtain ⟨rfl, rfl⟩ := List.cons.inj heq
        obtain ⟨d, others, rfl⟩ := List.exists_cons_of_ne_nil h.1
        exact absurd rfl (hsign d others rfl)
  · simp [IsSignedNumeral, IsNumeral]

/-- A number names the character whose code it is. -/
theorem scalar?_eq_some_iff {digits : List Char} {c : Char} :
    scalar? digits = some c ↔ IsSignedNumeral digits c.toNat := by
  simp only [scalar?, Option.bind_eq_some_iff, ← hex?_eq_some_iff]
  constructor
  · rintro ⟨n, hn, h⟩
    split_ifs at h with hvalid
    cases h
    have hcode : (Char.ofNat n).toNat = n := by
      rw [Char.ofNat, dif_pos hvalid]
      rfl
    rwa [hcode]
  · intro h
    have hvalid : c.toNat.isValidChar := c.valid
    exact ⟨c.toNat, h, by rw [if_pos hvalid, Char.ofNat_toNat]⟩

theorem IsSignedNumeral.notMem {digits : List Char} {c : Char} {n : Nat}
    (h : IsSignedNumeral digits n) (hc : hexDigit? c = none) (hsign : c ≠ '+') : c ∉ digits := by
  rcases h with h | ⟨others, rfl, h⟩
  · exact h.notMem hc
  · exact List.not_mem_cons_of_ne_of_not_mem hsign (h.notMem hc)

end RoleAudit.Markup.Quoted
