import RoleAudit.Json.Reading
import RoleAudit.Proofs.Numerals
import RoleAudit.Report.JsonText

/-!
# Texts and numbers as JSON

What stands for a text or a number in a JSON text is read as this text or number, whatever follows
it.  A text may hold every character: each is written either as itself or by an escape that names
it.  A number is written by its digits without zeros in front, so its end shows only in what follows
it, which must not go on with the number.

Main statements: `string_spelled` and `number_toDigits`.
-/

namespace RoleAudit.Json

open RoleAudit.Report (hexByte jsonChar)
open RoleAudit.Text (byteLength)
open RoleAudit.Markup.Quoted (hexDigit? hexDigit?_eq_some_iff)

/-! ### Texts -/

/-- Four hexadecimal digits are read as their number. -/
theorem hex4_of_digits {d₁ d₂ d₃ d₄ : Char} {n₁ n₂ n₃ n₄ : Nat} (h₁ : hexDigit? d₁ = some n₁)
    (h₂ : hexDigit? d₂ = some n₂) (h₃ : hexDigit? d₃ = some n₃) (h₄ : hexDigit? d₄ = some n₄)
    (rest : List Char) :
    hex4 (d₁ :: d₂ :: d₃ :: d₄ :: rest) = .ok (((n₁ * 16 + n₂) * 16 + n₃) * 16 + n₄, rest) := by
  have hlength : ¬ byteLength (d₁ :: d₂ :: d₃ :: d₄ :: rest) < 4 := by
    have := d₁.utf8Size_pos
    have := d₂.utf8Size_pos
    have := d₃.utf8Size_pos
    have := d₄.utf8Size_pos
    simp only [Text.byteLength_cons]
    omega
  rw [hex4, if_neg hlength]
  simp [h₁, h₂, h₃, h₄]

/-- The escape of a control character, which has two zeros and two more digits, names it. -/
theorem escape_control {c : Char} (hc : c.toNat < 0x20) (rest : List Char) :
    escape (['u', '0', '0'] ++ hexByte c.toNat ++ rest) = .ok (c, rest) := by
  have hzero : hexDigit? '0' = some 0 := rfl
  have hhigh : hexDigit? (Nat.digitChar (c.toNat / 16)) = some (c.toNat / 16) :=
    hexDigit?_eq_some_iff.2 ⟨by omega, Or.inl rfl⟩
  have hlow : hexDigit? (Nat.digitChar (c.toNat % 16)) = some (c.toNat % 16) :=
    hexDigit?_eq_some_iff.2 ⟨by omega, Or.inl rfl⟩
  have hvalue : ((0 * 16 + 0) * 16 + c.toNat / 16) * 16 + c.toNat % 16 = c.toNat := by omega
  have hlone : isTrailing c.toNat = false ∧ isLeading c.toNat = false := by
    simp only [isTrailing, isLeading, Bool.and_eq_false_iff, decide_eq_false_iff_not]
    omega
  change unicodeEscape ('0' :: '0' :: Nat.digitChar (c.toNat / 16) ::
    Nat.digitChar (c.toNat % 16) :: rest) = _
  rw [unicodeEscape, hex4_of_digits hzero hzero hhigh hlow, hvalue]
  simp [Except.bind, hlone, Char.ofNat_toNat]

/-- A character is written by an escape that names it, or as itself. -/
theorem jsonChar_cases (c : Char) :
    (∃ name, jsonChar c = '\\' :: name ∧ ∀ rest, escape (name ++ rest) = .ok (c, rest)) ∨
      (jsonChar c = [c] ∧ c ≠ '"' ∧ c ≠ '\\' ∧ 0x20 ≤ c.toNat) := by
  unfold jsonChar
  split
  iterate 7 exact Or.inl ⟨_, rfl, fun rest => rfl⟩
  · next hquote hslash _ _ _ _ _ =>
      split
      · next hc => exact Or.inl ⟨_, rfl, escape_control hc⟩
      · next hc => exact Or.inr ⟨rfl, hquote, hslash, by omega⟩

/-- What stands for a character is read as this character. -/
theorem string_jsonChar (c : Char) (rest : List Char) :
    string (jsonChar c ++ rest) = (string rest).map fun read => (c :: read.1, read.2) := by
  obtain ⟨name, hname, hescape⟩ | ⟨hself, hquote, hslash, hcode⟩ := jsonChar_cases c
  · rw [hname, List.cons_append, string, if_neg (by decide), if_pos rfl]
    -- the reader of strings goes by what it gets for the escape
    split
    · next hread => cases (hescape rest).symm.trans hread
    · next hread =>
        cases (hescape rest).symm.trans hread
        rfl
  · have hplain : ¬ c.toNat < 0x20 := by omega
    rw [hself, List.singleton_append, string, if_neg hquote, if_neg hslash, if_neg hplain]

/-- The inside of a JSON string is read as the text that it spells. -/
theorem string_spelled (text rest : List Char) :
    string (text.flatMap jsonChar ++ '"' :: rest) = .ok (text, rest) := by
  induction text with
  | nil => rw [List.flatMap_nil, List.nil_append, string, if_pos rfl]
  | cons c text ih =>
      rw [List.flatMap_cons, List.append_assoc, string_jsonChar, ih]
      rfl

/-! ### Numbers -/

/-- A character that a number goes on with. -/
def goesOn (c : Char) : Bool :=
  c.isDigit || c = '.' || c = 'e' || c = 'E'

/-- A number ends before a text. -/
def EndsNumber (rest : List Char) : Prop :=
  ∀ c ∈ rest.head?, goesOn c = false

theorem endsNumber_nil : EndsNumber [] := by
  intro c hc
  cases hc

theorem endsNumber_cons {c : Char} (h : goesOn c = false) (rest : List Char) :
    EndsNumber (c :: rest) := by
  intro d hd
  cases hd
  exact h

theorem EndsNumber.isDigit_eq_false {c : Char} {rest : List Char} (h : EndsNumber (c :: rest)) :
    c.isDigit = false := by
  have hc := h c rfl
  simp only [goesOn, Bool.or_eq_false_iff] at hc
  exact hc.1.1.1

/-- If 64 bits hold the number that digits write, none of them is left out. -/
theorem append_of_lt {digits : List Char} {value : Nat}
    (h : Nat.ofDigitChars 10 digits value < Nat.pow 2 64) :
    Leading.append value digits = ⟨Nat.ofDigitChars 10 digits value, digits.length, 0⟩ := by
  induction digits generalizing value with
  | nil => rfl
  | cons c digits ih =>
      rw [Nat.ofDigitChars_cons] at h
      -- further digits only make the number greater
      have hnext : 10 * value + (c.toNat - '0'.toNat) < Nat.pow 2 64 := by
        refine Nat.lt_of_le_of_lt ?_ h
        rw [Nat.ofDigitChars_eq_ofDigitChars_zero]
        exact Nat.le_trans (Nat.le_mul_of_pos_left _ (by simp)) (Nat.le_add_right _ _)
      rw [Leading.append, if_pos hnext, ih h]
      rfl

theorem ne_of_isDigit {c d : Char} (hc : c.isDigit = true) (hd : d.isDigit = false) : c ≠ d := by
  rintro rfl
  rw [hc] at hd
  cases hd

theorem isDigit_toDigits (n : Nat) : ∀ d ∈ Nat.toDigits 10 n, d.isDigit = true := fun _ hd =>
  Nat.isDigit_of_mem_toDigits (by decide) (by decide) hd

theorem exists_toDigits (n : Nat) :
    ∃ d others, Nat.toDigits 10 n = d :: others ∧ d.isDigit = true := by
  have hne : Nat.toDigits 10 n ≠ [] := Nat.toDigits_ne_nil
  obtain ⟨d, others, hcons⟩ := List.exists_cons_of_ne_nil hne
  exact ⟨d, others, hcons, isDigit_toDigits n d (by simp [hcons])⟩

/-- Only zero is written with a zero in front. -/
theorem exists_toDigits_cons {n : Nat} (hn : n ≠ 0) :
    ∃ d others, Nat.toDigits 10 n = d :: others ∧ d ≠ '0' := by
  induction n using Nat.strongRecOn with
  | ind n ih =>
      by_cases hsmall : n < 10
      · refine ⟨n.digitChar, [], Nat.toDigits_of_lt_base hsmall, fun h => hn ?_⟩
        have hcode := congrArg Char.toNat h
        rw [Nat.toNat_digitChar_of_lt_ten hsmall] at hcode
        simpa using hcode
      · obtain ⟨d, others, hdigits, hd⟩ := ih (n / 10) (by omega) (by omega)
        exact ⟨d, others ++ [(n % 10).digitChar],
          by rw [Nat.toDigits_of_base_le (by decide) (by omega), hdigits, List.cons_append], hd⟩

theorem digits_append {ds rest : List Char} (h : ∀ d ∈ ds, d.isDigit = true)
    (hrest : EndsNumber rest) : digits (ds ++ rest) = (ds, rest) := by
  have hnone : rest.takeWhile Char.isDigit = [] ∧ rest.dropWhile Char.isDigit = rest := by
    cases rest with
    | nil => exact ⟨rfl, rfl⟩
    | cons c rest => simp [hrest.isDigit_eq_false]
  rw [digits, List.takeWhile_append_of_pos h, List.dropWhile_append_of_pos h, hnone.1, hnone.2,
    List.append_nil]

theorem numberTail_of_endsNumber {rest : List Char} (h : EndsNumber rest) (value used : Nat) :
    numberTail false ⟨value, used, 0⟩ rest = .ok (.natural value, rest) := by
  unfold numberTail
  split
  iterate 3 exact absurd (h _ rfl) (by decide)
  · rfl

/-- The digits of a number that 64 bits hold are read as this number. -/
theorem number_toDigits {n : Nat} (hn : n < Nat.pow 2 64) {rest : List Char}
    (hrest : EndsNumber rest) :
    number false (Nat.toDigits 10 n ++ rest) = .ok (.natural n, rest) := by
  by_cases hzero : n = 0
  · subst hzero
    rw [Nat.toDigits_zero, List.singleton_append]
    cases rest with
    | nil => exact numberTail_of_endsNumber hrest 0 1
    | cons c rest => simp [number, hrest.isDigit_eq_false, numberTail_of_endsNumber hrest]
  · have hspan := digits_append (isDigit_toDigits n) hrest
    have hvalue : Nat.ofDigitChars 10 (Nat.toDigits 10 n) 0 = n :=
      Nat.ofDigitChars_toDigits (by decide) (by decide)
    have hkept := append_of_lt (by rwa [hvalue])
    rw [hvalue] at hkept
    -- the first digit is no zero, which would have to stand alone
    obtain ⟨d, others, hcons, hd⟩ := exists_toDigits_cons hzero
    have hdigit : d.isDigit = true := isDigit_toDigits n d (by simp [hcons])
    rw [hcons, List.cons_append] at hspan
    rw [hcons] at hkept
    rw [hcons, List.cons_append, number, if_pos hdigit, hspan]
    · simp only [hkept]
      exact numberTail_of_endsNumber hrest n _
    · exact hd

end RoleAudit.Json
