import RoleAudit.Proofs.Offsets
import Mathlib.Data.String.Basic

/-!
# The order of bytes

Texts are compared character by character.  In UTF-8 the first bytes of two characters with
encodings of different lengths tell which comes first, and encodings of one length are compared like
numbers of that many digits.  So the order of the characters is also the order of the bytes
(`bytesOf_lt`).
-/

namespace RoleAudit.Text

/-- The bytes of a character, as numbers, by how many there are. -/
theorem utf8EncodeChar_cases (c : Char) :
    let bytes := (String.utf8EncodeChar c).map UInt8.toNat
    (c.toNat < 0x80 ∧ bytes = [c.toNat]) ∨
    (0x80 ≤ c.toNat ∧ c.toNat < 0x800 ∧
      bytes = [c.toNat / 64 + 0xC0, c.toNat % 64 + 0x80]) ∨
    (0x800 ≤ c.toNat ∧ c.toNat < 0x10000 ∧
      bytes = [c.toNat / 4096 + 0xE0, c.toNat / 64 % 64 + 0x80, c.toNat % 64 + 0x80]) ∨
    (0x10000 ≤ c.toNat ∧ c.toNat < 0x110000 ∧
      bytes = [c.toNat / 262144 + 0xF0, c.toNat / 4096 % 64 + 0x80, c.toNat / 64 % 64 + 0x80,
        c.toNat % 64 + 0x80]) := by
  have hval : c.val.toNat = c.toNat := rfl
  have hbound : c.toNat < 0x110000 := by
    rcases c.valid with h | ⟨-, h⟩ <;> simp [hval] at h ⊢ <;> omega
  simp only [String.utf8EncodeChar, hval]
  split
  · refine .inl ⟨by omega, ?_⟩
    simp
    omega
  split
  · refine .inr (.inl ⟨by omega, by omega, ?_⟩)
    simp
    omega
  split
  · refine .inr (.inr (.inl ⟨by omega, by omega, ?_⟩))
    simp
    omega
  · refine .inr (.inr (.inr ⟨by omega, hbound, ?_⟩))
    simp
    omega

/-- The bytes of a lesser character come first, whatever follows them. -/
theorem utf8EncodeChar_append_lt {c d : Char} (h : c < d) (rest rest' : List Nat) :
    (String.utf8EncodeChar c).map UInt8.toNat ++ rest <
      (String.utf8EncodeChar d).map UInt8.toNat ++ rest' := by
  have hlt : c.toNat < d.toNat := h
  rcases utf8EncodeChar_cases c with ⟨hc, heq⟩ | ⟨hc, hc', heq⟩ | ⟨hc, hc', heq⟩ | ⟨hc, hc', heq⟩ <;>
    rcases utf8EncodeChar_cases d with
      ⟨hd, heq'⟩ | ⟨hd, hd', heq'⟩ | ⟨hd, hd', heq'⟩ | ⟨hd, hd', heq'⟩ <;>
    rw [heq, heq'] <;> simp only [List.cons_append, List.cons_lt_cons_iff] <;> omega

/-- Bytes are compared like the numbers they are. -/
theorem map_toNat_lt_iff {bytes bytes' : List UInt8} :
    bytes.map UInt8.toNat < bytes'.map UInt8.toNat ↔ bytes < bytes' := by
  induction bytes generalizing bytes' with
  | nil => cases bytes' <;> simp
  | cons b bytes ih =>
      cases bytes' with
      | nil => simp
      | cons b' bytes' =>
          simp only [List.map_cons, List.cons_lt_cons_iff, ih, UInt8.lt_iff_toNat_lt,
            UInt8.toNat_inj]

theorem flatMap_utf8EncodeChar_lt {text text' : List Char} (h : text < text') :
    text.flatMap String.utf8EncodeChar < text'.flatMap String.utf8EncodeChar := by
  rw [← map_toNat_lt_iff]
  induction text generalizing text' with
  | nil =>
      cases text' with
      | nil => exact absurd h (List.lt_irrefl _)
      | cons d text' =>
          have hne : String.utf8EncodeChar d ≠ [] := fun hnil => by
            have hlength := String.length_utf8EncodeChar d
            rw [hnil] at hlength
            exact absurd hlength.symm d.utf8Size_pos.ne'
          obtain ⟨b, bytes, hbytes⟩ := List.exists_cons_of_ne_nil hne
          simp [hbytes]
  | cons c text ih =>
      cases text' with
      | nil => simp at h
      | cons d text' =>
          simp only [List.flatMap_cons, List.map_append]
          rcases List.cons_lt_cons_iff.1 h with hlt | ⟨rfl, hlt⟩
          · exact utf8EncodeChar_append_lt hlt _ _
          · exact List.append_left_lt (ih hlt)

/-- Texts come in the order of their bytes. -/
theorem bytesOf_lt {text text' : String} (h : text < text') : bytesOf text < bytesOf text' := by
  rw [bytesOf_eq, bytesOf_eq]
  exact flatMap_utf8EncodeChar_lt (String.lt_iff_toList_lt.1 h)

end RoleAudit.Text
