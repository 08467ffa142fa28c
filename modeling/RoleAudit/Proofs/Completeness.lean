import RoleAudit.Proofs.Language
import RoleAudit.Proofs.Operators

/-!
# What is written is read as it is written

A derivation in which a list in braces is skipped only where it is no expression leaves the readers
no choice: they take the lexemes that are written, whatever follows them, and return the tree of the
derivation.  What follows may only not be a token with which the phrase could go on.

Main statements: `Spells.isReadAs`, by induction on the derivation, and `reads_document_of_spells`.
-/

namespace RoleAudit.Markup

open RoleAudit.Text (Span)
open Reader Grammar

/-- The lexemes write the phrase, where only what is no expression is skipped. -/
abbrev Spells : List Lexeme → Phrase → Prop :=
  Written fun inside => ¬ ∃ e, Derives inside (.expr .full e)

theorem length_pos_of_tokens {ts : List Lexeme} (h : ts.map Lexeme.token ≠ []) :
    0 < ts.length := by
  rw [List.length_pos_iff]
  rintro rfl
  exact h rfl

theorem exprTo_fails {depth : Nat} {ts : List Lexeme} (h : next Level.full.starts ts = false) :
    (exprTo depth).Fails ts := by
  rw [fails_iff_forall]
  intro e rest he
  obtain ⟨used, rfl, hused⟩ := (takes_to depth).2 he
  have hstarts : next Level.full.starts (used ++ rest) = true := next_append hused.starts
  rw [h] at hstarts
  cases hstarts

/-! ### Reading what is written -/

/-- The readers take `ts`, whatever follows it that is no continuation, for the phrase. -/
def Phrase.IsReadAs (ts : List Lexeme) : Phrase → Prop
  | .expr level e => ∀ depth tail, (ts ++ tail).length ≤ depth →
      next level.tighter.goesOn tail = false →
        level.Reaches (elementTo (depth + 1)) (exprTo depth) (ts ++ tail) e tail
  | .arguments all => ∀ depth left right tail, (ts ++ ⟨.closeParen, right⟩ :: tail).length < depth →
      (Grammar.arguments (exprTo depth)).Reads
        (⟨.openParen, left⟩ :: (ts ++ ⟨.closeParen, right⟩ :: tail)) all tail
  | .furtherArguments others => ∀ depth right tail,
      (ts ++ ⟨.closeParen, right⟩ :: tail).length < depth → ∃ mid comma,
        (many do
          let _ ← token .comma
          exprTo depth).Reads (ts ++ ⟨.closeParen, right⟩ :: tail) others mid ∧
        (optional (token .comma)).Reads mid comma (⟨.closeParen, right⟩ :: tail)
  | .container c => ∀ depth tail, (ts ++ tail).length < depth →
      (Grammar.container (exprTo depth)).Reads (ts ++ tail) c tail
  | .value written => ∀ depth tail, (ts ++ tail).length < depth →
      next Token.continuesItem tail = false →
        (optional do
          let _ ← token .equals
          attributeValue (exprTo depth)).Reads (ts ++ tail) written tail
  | .item i => ∀ depth tail, (ts ++ tail).length < depth →
      next Token.continuesItem tail = false → (tagItem (exprTo depth)).Reads (ts ++ tail) i tail
  | .items is => ∀ depth tail, (ts ++ tail).length < depth →
      next Token.startsItem tail = false → next Token.continuesItem tail = false →
        (many (tagItem (exprTo depth))).Reads (ts ++ tail) is tail
  | .child c => ∀ depth tail, (ts ++ tail).length < depth →
      (Grammar.child (elementTo depth) (exprTo depth)).Reads (ts ++ tail) c tail
  | .children cs => ∀ depth left slash tail,
      (ts ++ ⟨.less, left⟩ :: ⟨.slash, slash⟩ :: tail).length < depth →
        (many (Grammar.child (elementTo depth) (exprTo depth))).Reads
          (ts ++ ⟨.less, left⟩ :: ⟨.slash, slash⟩ :: tail) cs
          (⟨.less, left⟩ :: ⟨.slash, slash⟩ :: tail)
  | .element e => ∀ depth tail, (ts ++ tail).length < depth →
      (elementTo depth).Reads (ts ++ tail) e tail
  | .elements es => ∀ depth, ts.length < depth → (many (elementTo depth)).Reads ts es []

/-- An expression is read by the reader of expressions. -/
theorem Phrase.IsReadAs.exprTo_reads {ts tail : List Lexeme} {e : Expr} {depth : Nat}
    (h : Phrase.IsReadAs ts (.expr .full e)) (hlt : (ts ++ tail).length < depth)
    (htail : next Level.full.goesOn tail = false) : (exprTo depth).Reads (ts ++ tail) e tail := by
  cases depth with
  | zero => simp at hlt
  | succ depth =>
      have hreaches := h depth tail (by omega) (Level.next_goesOn_tighter htail)
      exact hreaches htail

/-- After an argument stands a comma or the closing parenthesis. -/
theorem Written.next_of_furtherArguments {skip : List Lexeme → Prop} {ts : List Lexeme}
    {others : List Expr} (h : Written skip ts (.furtherArguments others)) {right : Span}
    {tail : List Lexeme} :
    next Level.full.goesOn (ts ++ ⟨.closeParen, right⟩ :: tail) = false := by
  cases h with
  | lastArgument => rfl
  | trailingComma => rfl
  | furtherArgument _ _ => rfl

namespace Phrase

theorem isReadAs_conditional {question colon : Span} {us vs ws : List Lexeme} {test yes no : Expr}
    (ih : IsReadAs us (.expr .disjunction test)) (ih' : IsReadAs vs (.expr .full yes))
    (ih'' : IsReadAs ws (.expr .full no)) :
    IsReadAs (us ++ ⟨.question, question⟩ :: (vs ++ ⟨.colon, colon⟩ :: ws))
      (.expr .full (.conditional test yes no)) := by
  intro depth tail hlt _ hfull
  simp only [List.append_assoc, List.cons_append] at hlt ⊢
  -- the question mark ends the condition, and the colon what stands before it
  have htest := (ih depth
    (⟨.question, question⟩ :: (vs ++ ⟨.colon, colon⟩ :: (ws ++ tail))) hlt rfl).reads rfl
  have hyes : (exprTo depth).Reads (vs ++ ⟨.colon, colon⟩ :: (ws ++ tail)) yes
      (⟨.colon, colon⟩ :: (ws ++ tail)) := ih'.exprTo_reads (by simp at hlt ⊢; omega) rfl
  exact Level.exprWith_reads_conditional htest hyes
    (ih''.exprTo_reads (by simp at hlt ⊢; omega) hfull)

/-- A comma that no argument follows is the last one. -/
theorem isReadAs_trailingComma {comma : Span} :
    IsReadAs [⟨.comma, comma⟩] (.furtherArguments []) := by
  intro depth right tail _
  have hfail : (exprTo depth).Fails (⟨.closeParen, right⟩ :: tail) := exprTo_fails rfl
  refine ⟨⟨.comma, comma⟩ :: ⟨.closeParen, right⟩ :: tail, some comma, many_stop ?_, ?_⟩
  · simp [hfail]
  · exact reads_optional.2 (Or.inl ⟨comma, rfl, by simp⟩)

theorem isReadAs_furtherArgument {comma : Span} {us vs : List Lexeme} {e : Expr}
    {others : List Expr} (hothers : Spells vs (.furtherArguments others))
    (ih : IsReadAs us (.expr .full e)) (ih' : IsReadAs vs (.furtherArguments others)) :
    IsReadAs (⟨.comma, comma⟩ :: (us ++ vs)) (.furtherArguments (e :: others)) := by
  intro depth right tail hlt
  simp only [List.append_assoc, List.cons_append] at hlt ⊢
  obtain ⟨mid, last, hmany, hlast⟩ := ih' depth right tail (by simp at hlt ⊢; omega)
  have he : (exprTo depth).Reads (us ++ (vs ++ ⟨.closeParen, right⟩ :: tail)) e
      (vs ++ ⟨.closeParen, right⟩ :: tail) :=
    ih.exprTo_reads (by simp at hlt ⊢; omega) hothers.next_of_furtherArguments
  have hshorter : (vs ++ ⟨.closeParen, right⟩ :: tail).length <
      ((⟨.comma, comma⟩ : Lexeme) :: (us ++ (vs ++ ⟨.closeParen, right⟩ :: tail))).length := by
    simp only [List.length_append, List.length_cons]
    omega
  refine ⟨mid, last, many_step ?_ hshorter hmany, hlast⟩
  simp only [reads_bind, reads_token]
  exact ⟨comma, _, rfl, he⟩

theorem isReadAs_items {us vs : List Lexeme} {first : TagItem} {others : List TagItem}
    (h : Spells us (.item first)) (hothers : Spells vs (.items others))
    (ih : IsReadAs us (.item first)) (ih' : IsReadAs vs (.items others)) :
    IsReadAs (us ++ vs) (.items (first :: others)) := by
  intro depth tail hlt hstop htail
  rw [List.append_assoc] at hlt ⊢
  -- what follows the first attribute starts another or ends the tag
  have hmid : next Token.continuesItem (vs ++ tail) = false :=
    next_items_append hothers.isForm rfl continuesItem_of_startsItem htail
  obtain ⟨t, us, rfl, -⟩ := IsItem.starts h.isForm rfl
  exact many_step (ih depth _ hlt hmid) (by simp only [List.length_append, List.length_cons]; omega)
    (ih' depth tail (by simp at hlt ⊢; omega) hstop htail)

/-- Braces around what is no expression are read as what they are. -/
theorem isReadAs_skipped {inside : List Lexeme} {left right : Span}
    (hbalanced : Balanced (inside.map Lexeme.token))
    (hno : ¬ ∃ e, Derives inside (.expr .full e)) :
    IsReadAs (⟨.openBrace, left⟩ :: (inside ++ [⟨.closeBrace, right⟩]))
      (.container ⟨if inside = [] then .empty else .other, ⟨left.start, right.stop⟩⟩) := by
  intro depth tail hlt
  rw [List.cons_append, List.append_assoc]
  refine container_reads (content_reads_skipped (takes_to depth).2 hbalanced fun e he => hno ?_)
  -- an expression that gets up to the closing brace is derived from all that stands before it
  obtain ⟨used, hused, hderives⟩ := (takes_to depth).2 he
  rw [List.append_cancel_right hused]
  exact ⟨e, hderives⟩

theorem isReadAs_single {left slash right : Span} {names ts : List Lexeme} {name : Name}
    {items : List TagItem} (hproper : name.IsProper) (hne : name ≠ .fragment)
    (hname : names.map Lexeme.token = name.tokens) (hitems : Spells ts (.items items))
    (ih : IsReadAs ts (.items items)) :
    IsReadAs (⟨.less, left⟩ :: (names ++ (ts ++ [⟨.slash, slash⟩, ⟨.greater, right⟩])))
      (.element (.single ⟨name, items, ⟨left.start, right.stop⟩⟩)) := by
  intro depth tail hlt
  simp only [List.cons_append, List.append_assoc, List.nil_append] at hlt ⊢
  cases depth with
  | zero => simp at hlt
  | succ depth =>
      have hstart : next Token.continuesName
          (ts ++ ⟨.slash, slash⟩ :: ⟨.greater, right⟩ :: tail) = false :=
        next_items_append hitems.isForm rfl continuesName_of_startsItem rfl
      have hread := ih depth (⟨.slash, slash⟩ :: ⟨.greater, right⟩ :: tail)
        (by simp at hlt ⊢; omega) rfl rfl
      exact elementWith_reads_single hproper hne hname hstart hread

theorem isReadAs_pair {left right left' slash right' : Span} {names ts us names' : List Lexeme}
    {name : Name} {items : List TagItem} {children : List Child} (hproper : name.IsProper)
    (hplain : name = .fragment → startsPlain items = false)
    (hname : names.map Lexeme.token = name.tokens) (hitems : Spells ts (.items items))
    (hclosing : names'.map Lexeme.token = name.tokens) (ih : IsReadAs ts (.items items))
    (ih' : IsReadAs us (.children children)) :
    IsReadAs
      (⟨.less, left⟩ :: (names ++ (ts ++ ⟨.greater, right⟩ :: (us ++
        ⟨.less, left'⟩ :: ⟨.slash, slash⟩ :: (names' ++ [⟨.greater, right'⟩])))))
      (.element (.pair ⟨name, items, ⟨left.start, right.stop⟩⟩ children
        ⟨left'.start, right'.stop⟩)) := by
  intro depth tail hlt
  simp only [List.cons_append, List.append_assoc, List.nil_append] at hlt ⊢
  cases depth with
  | zero => simp at hlt
  | succ depth =>
      -- what follows the attributes, and what follows the children
      let closing := names' ++ ⟨.greater, right'⟩ :: tail
      let rest := ⟨.greater, right⟩ :: (us ++ ⟨.less, left'⟩ :: ⟨.slash, slash⟩ :: closing)
      have hstart : next Token.continuesName (ts ++ rest) = false :=
        next_items_append hitems.isForm rfl continuesName_of_startsItem rfl
      have hword : name = .fragment → next Token.isWord (ts ++ rest) = false := by
        intro heq
        have hnext := hitems.not_word_of_not_startsPlain (hplain heq)
        cases ts with
        | nil => rfl
        | cons t ts => exact hnext
      have hread := ih depth rest (by simp [rest, closing] at hlt ⊢; omega) rfl rfl
      have hchildren := ih' depth left' slash closing (by simp [closing] at hlt ⊢; omega)
      exact elementWith_reads_pair hproper hname hclosing hstart hword hread hchildren

end Phrase

/-- Whatever is spelled is read as it is spelled. -/
theorem Spells.isReadAs {ts : List Lexeme} {phrase : Phrase} (h : Spells ts phrase) :
    phrase.IsReadAs ts := by
  induction h with
  | literal h => exact fun depth tail _ _ => atom_reads_literal h
  | @grouped left right us e h ih =>
      intro depth tail hlt htail
      have hinner : (exprTo depth).Reads (us ++ ⟨.closeParen, right⟩ :: tail) e
          (⟨.closeParen, right⟩ :: tail) := ih.exprTo_reads (by simp at hlt ⊢; omega) rfl
      rw [List.cons_append, List.append_assoc]
      exact atom_reads_grouped hinner
  | nested h ih =>
      intro depth tail hlt htail
      -- an element in an expression is read at the depth of the expression
      exact atom_reads_element (ih (depth + 1) tail (by omega)) (next_append h.starts_element)
  | @member dot span us object name h ih =>
      intro depth tail hlt htail
      rw [List.append_assoc] at hlt ⊢
      exact Chain.step (ih depth _ hlt (Level.next_primary_goesOn _)) suffix_reads_member
        (show tail.length < tail.length + 2 by omega)
  | @call left right us vs callee all h hall ih ih' =>
      intro depth tail hlt htail
      simp only [List.append_assoc, List.cons_append, List.nil_append] at hlt ⊢
      have hcall := suffix_reads_call (ih' depth left right tail (by simp at hlt ⊢; omega))
      exact Chain.step (ih depth _ hlt (Level.next_primary_goesOn _)) hcall
        (by simp only [List.length_append, List.length_cons]; omega)
  | unary hop h ih =>
      intro depth tail hlt htail
      exact Level.unary_reads_cons hop (ih depth tail (by simp at hlt ⊢; omega) htail)
  | @joined level t span build us vs left right hop hleft hright ih ih' =>
      intro depth tail hlt htail
      rw [List.append_assoc, List.cons_append] at hlt ⊢
      -- the operator ends its left operand, and the right one ends before any of this level
      obtain ⟨-, htighter⟩ := Level.goesOn_of_join? hop
      have hreaches := ih' depth tail (by simp at hlt ⊢; omega) (Level.next_goesOn_tighter htail)
      exact Level.reaches_joined hop (ih depth _ hlt htighter) (hreaches.reads htail)
        (by simp only [List.length_append]; omega)
  | conditional _ _ _ ih ih' ih'' => exact Phrase.isReadAs_conditional ih ih' ih''
  | tighter h ih =>
      intro depth tail hlt htail
      exact Level.reaches_of_tighter (ih depth tail hlt (Level.next_goesOn_tighter htail))
        (next_append h.starts) htail
  | noArguments => exact fun depth left right tail _ => arguments_reads_nil (exprTo_fails rfl)
  | @arguments us vs first others h hothers ih ih' =>
      intro depth left right tail hlt
      rw [List.append_assoc] at hlt ⊢
      obtain ⟨mid, comma, hmany, hcomma⟩ := ih' depth right tail (by simp at hlt ⊢; omega)
      refine arguments_reads (ih.exprTo_reads hlt ?_) hmany hcomma
      exact hothers.next_of_furtherArguments
  | lastArgument =>
      intro depth right tail hlt
      exact ⟨_, none, many_stop (by simp), reads_optional.2 (Or.inr ⟨rfl, rfl, by simp⟩)⟩
  | trailingComma => exact Phrase.isReadAs_trailingComma
  | furtherArgument _ hothers ih ih' => exact Phrase.isReadAs_furtherArgument hothers ih ih'
  | emptyBraces =>
      refine @Phrase.isReadAs_skipped [] _ _ .nil ?_
      rintro ⟨e, he⟩
      cases he.starts
  | @coveredBraces left right inside e h ih =>
      intro depth tail hlt
      have he : (exprTo depth).Reads (inside ++ ⟨.closeBrace, right⟩ :: tail) e
          (⟨.closeBrace, right⟩ :: tail) := ih.exprTo_reads (by simp at hlt ⊢; omega) rfl
      rw [List.cons_append, List.append_assoc]
      exact container_reads (content_reads_expr he)
  | @skippedBraces left right inside hne hbalanced hskip =>
      have hskipped := @Phrase.isReadAs_skipped inside left right hbalanced hskip
      rwa [if_neg hne] at hskipped
  | noValue =>
      intro depth tail hlt htail
      exact value_reads_none htail
  | quotedValue =>
      intro depth tail hlt htail
      exact value_reads_quoted
  | bracedValue h ih =>
      intro depth tail hlt htail
      have hc := ih depth tail (by simp at hlt ⊢; omega)
      cases h with
      | emptyBraces | coveredBraces _ | skippedBraces _ _ _ => exact value_reads_braced hc
  | plain h ih =>
      intro depth tail hlt htail
      exact tagItem_reads_plain (h.isForm.not_colon rfl htail)
        (ih depth tail (by simp at hlt ⊢; omega) htail)
  | spaced h ih =>
      intro depth tail hlt htail
      exact tagItem_reads_spaced (ih depth tail (by simp at hlt ⊢; omega) htail)
  | spread hbalanced =>
      intro depth tail hlt htail
      simpa using tagItem_reads_spread hbalanced
  | noItems => exact fun depth tail _ hstop _ => many_stop (tagItem_fails hstop)
  | items h hothers ih ih' => exact Phrase.isReadAs_items h hothers ih ih'
  | prose => exact fun depth tail _ => child_reads_prose (elementTo_fails rfl)
  | elementChild h ih => exact fun depth tail hlt => child_reads_element (ih depth tail hlt)
  | bracedChild h ih =>
      intro depth tail hlt
      have hc := ih depth tail hlt
      cases h with
      | emptyBraces | coveredBraces _ | skippedBraces _ _ _ =>
          exact child_reads_braced (elementTo_fails rfl) hc
  | noChildren =>
      exact fun depth left slash tail _ => many_stop (child_fails_closing elementTo_fails_closing)
  | @children us vs first others h hothers ih ih' =>
      intro depth left slash tail hlt
      rw [List.append_assoc] at hlt ⊢
      have hpos := length_pos_of_tokens h.isForm.ne_nil
      exact many_step (ih depth _ hlt) (by simp only [List.length_append]; omega)
        (ih' depth left slash tail (by simp at hlt ⊢; omega))
  | single hproper hne hname hitems ih => exact Phrase.isReadAs_single hproper hne hname hitems ih
  | pair hproper hplain hname hitems _ hclosing ih ih' =>
      exact Phrase.isReadAs_pair hproper hplain hname hitems hclosing ih ih'
  | noElements => exact fun depth _ => many_stop (elementTo_fails rfl)
  | @elements us vs first others h hothers ih ih' =>
      intro depth hlt
      have hpos := length_pos_of_tokens h.isForm.ne_nil
      exact many_step (ih depth vs hlt) (by simp only [List.length_append]; omega)
        (ih' depth (by simp at hlt ⊢; omega))

/-- A document is read from the lexemes that spell it. -/
theorem reads_document_of_spells {ts : List Lexeme} {d : Document}
    (h : Spells ts (.elements d.elements)) : document.Reads ts d [] :=
  reads_document.2 ⟨rfl, h.isReadAs (ts.length + 1) (Nat.lt_succ_self _)⟩

end RoleAudit.Markup
