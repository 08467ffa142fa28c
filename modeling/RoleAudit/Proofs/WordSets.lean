import RoleAudit.Proofs.QuotedRoles

/-!
# Roles as sets of words

A blank run ends one word and belongs to none, so the words of two texts with blanks between are
those of the first and then those of the second, and blanks at the ends add none.  The rule on roles
asks of a text whether it has a word and which words it has.  So it does not matter in what order
the words stand, how often, and with which blanks around them.

Main statements: `words_append_blank`, `words_eq_nil_iff` and `role_judged_by_words`.
-/

namespace RoleAudit.Text

/-! ### Words and blanks -/

section Blanks

variable {c : Char} {text rest blanks : List Char}

theorem words_cons_of_blank (hc : isBlank c = true) : words (c :: rest) = words rest := by
  cases rest <;> simp [words, hc]

/-- A character that is not blank is in a word. -/
theorem words_cons_ne_nil (hc : isBlank c = false) : words (c :: rest) ≠ [] := by
  cases rest with
  | nil => simp [words, hc]
  | cons d rest =>
      cases hd : isBlank d with
      | true => simp [words, hc, hd]
      | false =>
          simp only [words, hc, hd, Bool.false_eq_true, if_false]
          split <;> simp

/-- A text has no words exactly if it is blank. -/
theorem words_eq_nil_iff : words text = [] ↔ ∀ c ∈ text, isBlank c = true := by
  refine ⟨fun h => ?_, words_eq_nil_of_blank⟩
  induction text with
  | nil => simp
  | cons c rest ih =>
      cases hc : isBlank c with
      | true =>
          rw [words_cons_of_blank hc] at h
          exact List.forall_mem_cons.2 ⟨hc, ih h⟩
      | false => exact absurd h (words_cons_ne_nil hc)

/-- A blank cuts a text into two whose words are counted apart. -/
theorem words_append_cons (hc : isBlank c = true) :
    words (text ++ c :: rest) = words text ++ words rest := by
  induction text with
  | nil => exact words_cons_of_blank hc
  | cons d text ih =>
      cases hd : isBlank d with
      | true => rw [List.cons_append, words_cons_of_blank hd, words_cons_of_blank hd, ih]
      | false =>
          cases text with
          | nil => simp [words, hc, hd, words_cons_of_blank hc]
          | cons e text =>
              rw [List.cons_append] at ih
              simp only [List.cons_append, words, hd, Bool.false_eq_true, if_false, ih]
              cases he : isBlank e with
              | true => simp
              | false =>
                  -- the run that `d` starts goes on with the first word of what follows
                  obtain ⟨word, others, hwords⟩ :=
                    List.exists_cons_of_ne_nil (@words_cons_ne_nil e text he)
                  simp [hwords]

variable (hblank : ∀ c ∈ blanks, isBlank c = true)
include hblank

theorem words_blank_append : words (blanks ++ text) = words text := by
  induction blanks with
  | nil => rfl
  | cons c blanks ih =>
      obtain ⟨hc, hblanks⟩ := List.forall_mem_cons.1 hblank
      rw [List.cons_append, words_cons_of_blank hc, ih hblanks]

/-- The words of two texts with blanks between are those of the one and then those of the other. -/
theorem words_append_blank (hne : blanks ≠ []) :
    words (text ++ (blanks ++ rest)) = words text ++ words rest := by
  obtain ⟨c, blanks, rfl⟩ := List.exists_cons_of_ne_nil hne
  obtain ⟨hc, hblanks⟩ := List.forall_mem_cons.1 hblank
  rw [List.cons_append, words_append_cons hc, words_blank_append hblanks]

end Blanks

end RoleAudit.Text

namespace RoleAudit.Audit

open RoleAudit.Text

/-! ### Verdicts -/

namespace RoleRule

variable (r : RoleRule)

/-- Texts with the same words are judged alike. -/
theorem isValid_congr {value value' : String}
    (h : words value.toList = words value'.toList) :
    r.isValid (.text value) = r.isValid (.text value') := by
  simp only [isValid, h]

/-- A text whose words are those of two others is valid if both of them are. -/
theorem isValid_text_append {value first second : String}
    (h : words value.toList = words first.toList ++ words second.toList)
    (hfirst : words first.toList ≠ []) (hsecond : words second.toList ≠ []) :
    r.isValid (.text value) = true ↔
      r.isValid (.text first) = true ∧ r.isValid (.text second) = true := by
  simp only [isValid, h, List.all_append, Bool.and_eq_true, Bool.not_eq_true',
    List.isEmpty_eq_false_iff, List.append_eq_nil_iff, hfirst, hsecond, false_and, not_false_eq_true,
    ne_eq, true_and]

end RoleRule

/-- A role is judged by the set of its words: it must hold one, and all must be permitted.  Texts of
the same words are judged alike.  Two texts that are not blank may be joined by blanks exactly if
both may stand alone, blanks at the ends change nothing, and a blank text is never valid. -/
theorem role_judged_by_words (r : RoleRule) :
    (∀ value, r.isValid (.text value) = true ↔ r.Permits value) ∧
    (∀ v w : String, (∀ word, IsWord v.toList word ↔ IsWord w.toList word) →
      r.isValid (.text v) = r.isValid (.text w)) ∧
    (∀ v s w : String, (∃ c ∈ v.toList, isBlank c = false) → (∃ c ∈ w.toList, isBlank c = false) →
      s ≠ "" → (∀ c ∈ s.toList, isBlank c = true) →
        (r.isValid (.text (v ++ s ++ w)) = true ↔
          r.isValid (.text v) = true ∧ r.isValid (.text w) = true)) ∧
    (∀ v s : String, (∀ c ∈ s.toList, isBlank c = true) →
      r.isValid (.text (s ++ v)) = r.isValid (.text v) ∧
        r.isValid (.text (v ++ s)) = r.isValid (.text v)) ∧
    ∀ s : String, (∀ c ∈ s.toList, isBlank c = true) → r.isValid (.text s) = false := by
  refine ⟨fun value => r.isValid_text_iff, ?_, ?_, ?_, ?_⟩
  · intro v w hwords
    rw [Bool.eq_iff_iff, r.isValid_text_iff, r.isValid_text_iff]
    simp only [RoleRule.Permits, hwords]
  · intro v s w ⟨c, hc, hv⟩ ⟨d, hd, hw⟩ hs hblank
    have hne : s.toList ≠ [] := fun h => hs (String.toList_eq_nil_iff.1 h)
    have hwords : words (v ++ s ++ w).toList = words v.toList ++ words w.toList := by
      rw [String.toList_append, String.toList_append, List.append_assoc,
        words_append_blank hblank hne]
    refine r.isValid_text_append hwords (fun h => ?_) fun h => ?_
    · simp [words_eq_nil_iff.1 h c hc] at hv
    · simp [words_eq_nil_iff.1 h d hd] at hw
  · intro v s hblank
    refine ⟨r.isValid_congr ?_, r.isValid_congr ?_⟩
    · rw [String.toList_append, words_blank_append hblank]
    · rw [String.toList_append]
      by_cases hne : s.toList = []
      · rw [hne, List.append_nil]
      · have hwords := @words_append_blank v.toList [] _ hblank hne
        rwa [List.append_nil, words, List.append_nil] at hwords
  · intro s hblank
    simp only [RoleRule.isValid, words_eq_nil_iff.2 hblank]
    rfl

/-- A word written twice, a word that is no role after blanks of two kinds, and a line break. -/
theorem role_judged_by_words_sample :
    (∀ word, IsWord "button\u2003button".toList word ↔ IsWord "button".toList word) ∧
      buttonRule.isValid (.text "button\u2003button") = buttonRule.isValid (.text "button") ∧
      (buttonRule.isValid (.text ("button" ++ "\t\u00a0" ++ "x")) = true ↔
        buttonRule.isValid (.text "button") = true ∧ buttonRule.isValid (.text "x") = true) ∧
      buttonRule.isValid (.text ("button" ++ "\r\n")) = buttonRule.isValid (.text "button") ∧
      buttonRule.isValid (.text "\r\n") = false := by
  have hwords : ∀ word, IsWord "button\u2003button".toList word ↔ IsWord "button".toList word := by
    intro word
    have hdouble : words "button\u2003button".toList = ["button".toList, "button".toList] := by
      decide +kernel
    have hsingle : words "button".toList = ["button".toList] := by decide +kernel
    rw [← mem_words_iff, ← mem_words_iff, hdouble, hsingle]
    simp
  obtain ⟨-, hsame, hjoined, hends, hblank⟩ := role_judged_by_words buttonRule
  refine ⟨hwords, hsame _ _ hwords, ?_, ?_, ?_⟩
  · exact hjoined "button" "\t\u00a0" "x" ⟨'b', by decide, by decide⟩ ⟨'x', by decide, by decide⟩
      (by decide) (List.all_eq_true.1 (by decide))
  · exact (hends "button" "\r\n" (List.all_eq_true.1 (by decide))).2
  · exact hblank "\r\n" (List.all_eq_true.1 (by decide))

end RoleAudit.Audit
