import RoleAudit.Text.Position

/-!
# Lines and columns of places

The line table of a text gives every place in it a line and a column.  Reading the text up to the
place, character by character, gives the same: a line feed starts a line, and every other character
moves on by its bytes.  So what comes after a place does not matter for its position.

Main statements: `position_byteLength` and `position_append`.
-/

namespace RoleAudit.Text

/-- The position after one more character. -/
def Position.past (p : Position) (c : Char) : Position :=
  if c = '\n' then ⟨p.line + 1, 0⟩ else ⟨p.line, p.column + c.utf8Size⟩

/-- The position after a text that starts at the first column of the first line. -/
def Position.afterText (text : List Char) : Position :=
  text.foldl past {}

namespace Lines

theorem breaksFrom_append (offset : Nat) (text rest : List Char) :
    breaksFrom offset (text ++ rest) =
      breaksFrom offset text ++ breaksFrom (offset + byteLength text) rest := by
  induction text generalizing offset with
  | nil => rfl
  | cons c text ih =>
      by_cases hc : c = '\n'
      · subst hc
        have hsize : ('\n' : Char).utf8Size = 1 := rfl
        simp [breaksFrom, ih, hsize, Nat.add_assoc]
      · simp [breaksFrom, hc, ih, Nat.add_assoc]

/-- No line starts after the end of the text. -/
theorem le_of_mem_breaksFrom {offset b : Nat} {text : List Char} (h : b ∈ breaksFrom offset text) :
    b ≤ offset + byteLength text := by
  induction text generalizing offset with
  | nil => cases h
  | cons c text ih =>
      rw [byteLength_cons]
      unfold breaksFrom at h
      split at h
      · next hc =>
          subst hc
          have hsize : ('\n' : Char).utf8Size = 1 := rfl
          rcases List.mem_cons.1 h with rfl | h
          · omega
          · have hle := ih h
            omega
      · have hle := ih h
        omega

/-- Up to a place in a text, the lines that start are those that start before it. -/
theorem takeWhile_breaks {text rest : List Char} {offset : Nat} (h : offset ≤ byteLength text) :
    (breaksFrom 0 (text ++ rest)).takeWhile (· ≤ offset) =
      (breaksFrom 0 text).takeWhile (· ≤ offset) := by
  have hrest : (breaksFrom (0 + byteLength text) rest).takeWhile (· ≤ offset) = [] := by
    cases hbreaks : breaksFrom (0 + byteLength text) rest with
    | nil => rfl
    | cons b others =>
        have hlt := lt_of_mem_breaksFrom (hbreaks ▸ List.mem_cons_self (a := b) (l := others))
        rw [List.takeWhile_cons_of_neg (by simp; omega)]
  rw [breaksFrom_append, List.takeWhile_append, hrest, List.append_nil]
  split
  · next hall => rw [(List.takeWhile_prefix _).eq_of_length hall]
  · rfl

/-- What follows a place does not matter for its position. -/
theorem position_append {first second : String} {offset : Nat}
    (h : offset ≤ byteLength first.toList) :
    (ofText (first ++ second)).position offset = (ofText first).position offset := by
  simp only [position, ofText, String.toList_append, takeWhile_breaks h]

/-- The position at the end of a text is the number of its lines but one, and the bytes of its last
line. -/
theorem afterText_eq (text : List Char) : Position.afterText text =
    ⟨(breaksFrom 0 text).length, byteLength text - (breaksFrom 0 text).getLastD 0⟩ := by
  induction hlength : text.length generalizing text with
  | zero =>
      obtain rfl := List.length_eq_zero_iff.1 hlength
      rfl
  | succ length ih =>
      have hne : text ≠ [] := by
        rintro rfl
        cases hlength
      obtain ⟨front, c, rfl⟩ : ∃ front c, text = front ++ [c] :=
        ⟨text.dropLast, text.getLast hne, (List.dropLast_concat_getLast hne).symm⟩
      have hfront := ih front (by simpa using hlength)
      have hlast : (breaksFrom 0 front).getLastD 0 ≤ byteLength front := by
        cases hb : (breaksFrom 0 front).getLast? with
        | none => simp [List.getLastD_eq_getLast?, hb]
        | some b =>
            have hle := le_of_mem_breaksFrom (List.mem_of_getLast? hb)
            simpa [List.getLastD_eq_getLast?, hb] using hle
      unfold Position.afterText at hfront ⊢
      rw [List.foldl_append, hfront, breaksFrom_append]
      by_cases hc : c = '\n'
      · subst hc
        have hsize : ('\n' : Char).utf8Size = 1 := rfl
        simp [Position.past, breaksFrom, hsize]
      · simp only [List.foldl_cons, List.foldl_nil, Position.past, if_neg hc, breaksFrom,
          List.append_nil, byteLength_append, byteLength_cons, byteLength_nil]
        congr 1
        omega

/-- The position of a place is the one that the text before it leads to. -/
theorem position_byteLength {source : String} {before after : List Char}
    (h : source.toList = before ++ after) :
    (ofText source).position (byteLength before) = Position.afterText before := by
  have hall : (breaksFrom 0 before).takeWhile (· ≤ byteLength before) = breaksFrom 0 before := by
    have hpos : ∀ b ∈ breaksFrom 0 before, decide (b ≤ byteLength before) = true := by
      intro b hb
      have hle := le_of_mem_breaksFrom hb
      simpa using hle
    have happend := @List.takeWhile_append_of_pos _ _ _ [] hpos
    simpa only [List.append_nil, List.takeWhile_nil] using happend
  rw [afterText_eq, position, ofText, h]
  simp only [takeWhile_breaks (Nat.le_refl _), hall]

end Lines

end RoleAudit.Text
