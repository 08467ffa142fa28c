import RoleAudit.Proofs.BracedProse
import RoleAudit.Proofs.BracedRoles
import RoleAudit.Proofs.Relocation

/-!
# Sums of pieces

A role in braces may be put together from texts in quotes and templates with plus signs, and
parentheses may group what stands between them in any way.  They decide which tree is read: a sum
groups to the left, and a group is an operand.  What is known of the role does not depend on the
tree, since texts are joined in the order in which they are written however they are grouped.  Nor
does it matter how deep an operand lies whose text is not known: then nothing is known of the sum.

`Summed` says how operands are put together.  Any sum of operands is spelled by an expression
(`Summed.spelled`): to add a sum on the right, its operands are added one by one.  As lexemes spell
one expression only, it is the one that is read.

Main statements: `Summed.spelled`, `IsSum.exists_summed`, `Written.hasPieces` and
`sums_concatenate`.
-/

namespace RoleAudit.Markup

open RoleAudit.Audit
open RoleAudit.Text
open Reader Grammar

/-! ### Operands put together -/

/-- The lexemes are operands with plus signs between them, grouped by parentheses in any way.  What
the relation says of each operand is listed in their order. -/
inductive Summed {α : Type} (P : List Lexeme → α → Prop) : List Lexeme → List α → Prop
  | operand {ts : List Lexeme} {a : α} (h : P ts a) : Summed P ts [a]
  | grouped {left right : Span} {ts : List Lexeme} {as : List α} (h : Summed P ts as) :
      Summed P (⟨.openParen, left⟩ :: (ts ++ [⟨.closeParen, right⟩])) as
  | joined {plus : Span} {ts us : List Lexeme} {as bs : List α} (h : Summed P ts as)
      (h' : Summed P us bs) : Summed P (ts ++ ⟨.plus, plus⟩ :: us) (as ++ bs)

/-- The text that a token is by itself: a text in quotes, or a template without a substitution. -/
def Token.text? : Token → Option String
  | quoted value => some value
  | template value => if hasSubstitution value.toList then none else some value
  | _ => none

/-- The lexemes are one literal with a text. -/
inductive IsPiece : List Lexeme → String → Prop
  | mk {t : Lexeme} {value : String} (h : t.token.text? = some value) : IsPiece [t] value

/-- The lexemes are pieces put together. -/
abbrev IsSum : List Lexeme → List String → Prop :=
  Summed IsPiece

/-- The lexemes spell an expression that no operator is part of, and the text that it computes, if
it computes one. -/
def IsOperand (ts : List Lexeme) (text : Option String) : Prop :=
  ∃ e, Spells ts (.expr .primary e) ∧ staticText? e = text

theorem Token.exists_literal?_of_text? {t : Token} {value : String} (h : t.text? = some value) :
    ∃ e, literal? t = some e ∧ staticText? e = some value := by
  cases t with
  | quoted text => exact ⟨.quoted text, rfl, h⟩
  | template text => exact ⟨.template text, rfl, h⟩
  | _ => cases h

theorem IsPiece.isOperand {ts : List Lexeme} {value : String} (h : IsPiece ts value) :
    IsOperand ts (some value) := by
  cases h with
  | @mk t value h =>
      obtain ⟨e, hliteral, htext⟩ := Token.exists_literal?_of_text? h
      exact ⟨e, .literal hliteral, htext⟩

/-- An expression in parentheses is an operand. -/
theorem isOperand_grouped {left right : Span} {ts : List Lexeme} {e : Expr}
    (h : Spells ts (.expr .full e)) :
    IsOperand (⟨.openParen, left⟩ :: (ts ++ [⟨.closeParen, right⟩])) (staticText? e) :=
  ⟨e, .grouped h, rfl⟩

/-! ### Texts put together -/

/-- The text that texts make up one after the other, if all of them are known. -/
def joinTexts : List (Option String) → Option String
  | [] => some ""
  | text :: others => text.bind fun first => (joinTexts others).map fun rest => first ++ rest

theorem joinTexts_append (texts others : List (Option String)) : joinTexts (texts ++ others) =
    (joinTexts texts).bind fun first => (joinTexts others).map fun rest => first ++ rest := by
  induction texts with
  | nil => cases h : joinTexts others <;> simp [joinTexts, h]
  | cons text texts ih =>
      rw [List.cons_append, joinTexts, joinTexts, ih]
      cases text <;> cases joinTexts texts <;> cases joinTexts others <;>
        simp [String.append_assoc]

@[simp] theorem joinTexts_single (text : Option String) : joinTexts [text] = text := by
  cases text <;> simp [joinTexts]

theorem joinTexts_some (values : List String) :
    joinTexts (values.map some) = some (String.join values) := by
  induction values with
  | nil => rfl
  | cons value values ih => simp [joinTexts, ih, String.join_cons]

theorem joinTexts_none {texts : List (Option String)} (h : none ∈ texts) :
    joinTexts texts = none := by
  obtain ⟨front, back, rfl⟩ := List.append_of_mem h
  rw [joinTexts_append, joinTexts]
  cases joinTexts front <;> rfl

/-! ### Expressions for sums -/

theorem Written.prefixed_of_primary {skip : List Lexeme → Prop} {ts : List Lexeme} {e : Expr}
    (h : Written skip ts (.expr .primary e)) : Written skip ts (.expr .prefixed e) :=
  h.loosen (by decide)

/-- A sum and an operand on its right. -/
theorem Spells.plus {ts us : List Lexeme} {left right : Expr} (h : Spells ts (.expr .sum left))
    (h' : Spells us (.expr .primary right)) (plus : Span) :
    Spells (ts ++ ⟨.plus, plus⟩ :: us) (.expr .sum (.binary .add left right)) :=
  .joined rfl h h'.prefixed_of_primary

/-- A sum is spelled by an expression, alone and on the right of what is a sum already.  Its text is
that of the operands, and of two operands or more it is an addition. -/
theorem Summed.spelled {ts : List Lexeme} {texts : List (Option String)}
    (h : Summed IsOperand ts texts) :
    (∃ e, Spells ts (.expr .sum e) ∧ staticText? e = joinTexts texts ∧
      (2 ≤ texts.length → ∃ left right, e = .binary .add left right)) ∧
    ∀ (front : List Lexeme) (plus : Span) (first : Expr), Spells front (.expr .sum first) →
      ∃ left right, Spells (front ++ ⟨.plus, plus⟩ :: ts) (.expr .sum (.binary .add left right)) ∧
        staticText? (.binary .add left right) = joinTexts (staticText? first :: texts) := by
  induction h with
  | operand h =>
      obtain ⟨e, he, rfl⟩ := h
      refine ⟨⟨e, .tighter he.prefixed_of_primary, by simp, by simp⟩, fun front plus first h => ?_⟩
      exact ⟨first, e, h.plus he plus, by simp [staticText?, joinTexts]⟩
  | @grouped left right ts texts _ ih =>
      -- on the right of a sum the group is one operand
      obtain ⟨⟨e, he, htext, hadd⟩, -⟩ := ih
      have hgroup : Spells (⟨.openParen, left⟩ :: (ts ++ [⟨.closeParen, right⟩]))
          (.expr .primary e) := .grouped (he.loosen Level.sum.rank_le_full)
      refine ⟨⟨e, .tighter hgroup.prefixed_of_primary, htext, hadd⟩, fun front plus first h => ?_⟩
      exact ⟨first, e, Spells.plus h hgroup plus, by rw [staticText?, joinTexts, htext]⟩
  | @joined plus' ts us texts others _ _ ih ih' =>
      -- the operands on the right are added after those on the left
      obtain ⟨⟨e, he, htext, -⟩, hfront⟩ := ih
      obtain ⟨-, hfront'⟩ := ih'
      constructor
      · obtain ⟨left, right, hsum, hsumText⟩ := hfront' ts plus' e he
        refine ⟨.binary .add left right, hsum, ?_, fun _ => ⟨left, right, rfl⟩⟩
        rw [hsumText, htext, joinTexts_append, joinTexts]
      · intro front plus first h
        obtain ⟨left, right, hsum, hsumText⟩ := hfront front plus first h
        obtain ⟨left', right', hsum', hsumText'⟩ := hfront' _ plus' _ hsum
        refine ⟨left', right', by simpa using hsum', ?_⟩
        rw [hsumText', hsumText, ← List.cons_append, joinTexts_append (staticText? first :: texts),
          joinTexts]

/-! ### An operand in the place of a piece -/

theorem Summed.map {α β : Type} {P : List Lexeme → α → Prop} {Q : List Lexeme → β → Prop}
    {f : α → β} (hoperand : ∀ ts a, P ts a → Q ts (f a)) {ts : List Lexeme} {as : List α}
    (h : Summed P ts as) : Summed Q ts (as.map f) := by
  induction h with
  | operand h => exact .operand (hoperand _ _ h)
  | grouped _ ih => exact .grouped ih
  | joined _ _ ih ih' =>
      rw [List.map_append]
      exact .joined ih ih'

theorem IsSum.summed {ts : List Lexeme} {values : List String} (h : IsSum ts values) :
    Summed IsOperand ts (values.map some) :=
  h.map fun _ _ h => IsPiece.isOperand h

/-- A member of two lists, one after the other, is one of the first or one of the second. -/
theorem append_eq_append_cons {α : Type} {as bs front back : List α} {a : α}
    (h : as ++ bs = front ++ a :: back) :
    (∃ after, as = front ++ a :: after ∧ back = after ++ bs) ∨
      ∃ before, front = as ++ before ∧ bs = before ++ a :: back := by
  rcases List.append_eq_append_iff.1 h with hbefore | ⟨_ | ⟨b, after⟩, rfl, hback⟩
  · exact Or.inr hbefore
  · exact Or.inr ⟨[], by simp, by simpa using hback.symm⟩
  · obtain ⟨rfl, rfl⟩ := List.cons.inj hback
    exact Or.inl ⟨after, rfl, rfl⟩

/-- If an operand stands in the place of a piece, the lexemes are operands put together, as many as
there were pieces. -/
theorem IsSum.exists_summed {ts : List Lexeme} {values : List String} (h : IsSum ts values)
    {front back : List Lexeme} {piece : Lexeme} (hts : ts = front ++ piece :: back)
    (hpiece : piece.token.text?.isSome = true) {group : List Lexeme} {text : Option String}
    (hgroup : IsOperand group text) : ∃ texts, Summed IsOperand (front ++ (group ++ back)) texts ∧
      texts.length = values.length ∧ text ∈ texts := by
  induction h generalizing front back with
  | operand h =>
      obtain ⟨rfl, rfl⟩ : front = [] ∧ back = [] := by
        cases h
        cases front <;> simp_all
      exact ⟨[text], by simpa using Summed.operand hgroup, rfl, List.mem_singleton_self text⟩
  | @grouped left right us values _ ih =>
      cases front with
      | nil =>
          obtain ⟨rfl, -⟩ := List.cons.inj hts
          cases hpiece
      | cons first front =>
          obtain ⟨rfl, htail⟩ := List.cons.inj hts
          rcases append_eq_append_cons htail with ⟨after, hus, rfl⟩ | ⟨before, rfl, hclose⟩
          · obtain ⟨texts, hsummed, hlength, hmem⟩ := ih hus
            refine ⟨texts, ?_, hlength, hmem⟩
            simpa using @Summed.grouped _ _ left right _ _ hsummed
          · -- the closing parenthesis is no piece
            cases before <;> simp at hclose
            rw [← hclose.1] at hpiece
            cases hpiece
  | @joined plus us vs values others hus hvs ih ih' =>
      rcases append_eq_append_cons hts with ⟨after, hus', rfl⟩ | ⟨before, rfl, hrest⟩
      · obtain ⟨texts, hsummed, hlength, hmem⟩ := ih hus'
        refine ⟨texts ++ others.map some, ?_, by simp [hlength], by simp [hmem]⟩
        simpa using @Summed.joined _ _ plus _ _ _ _ hsummed (IsSum.summed hvs)
      · cases before with
        | nil =>
            obtain ⟨rfl, -⟩ := List.cons.inj hrest
            cases hpiece
        | cons first before =>
            obtain ⟨rfl, hvs'⟩ := List.cons.inj hrest
            obtain ⟨texts, hsummed, hlength, hmem⟩ := ih' hvs'
            refine ⟨values.map some ++ texts, ?_, by simp [hlength], by simp [hmem]⟩
            simpa using @Summed.joined _ _ plus _ _ _ _ (IsSum.summed hus) hsummed

/-! ### Pieces of a text that is known -/

theorem Token.text?_of_literal? {t : Token} {e : Expr} {text : String} (h : literal? t = some e)
    (htext : staticText? e = some text) : t.text? = some text := by
  cases t <;> cases h
  case quoted value => exact htext
  case template value => exact htext
  all_goals cases htext

/-- What a phrase says about its lexemes: those of an expression with a known text are pieces put
together. -/
def Phrase.HasPieces : Phrase → List Lexeme → Prop
  | .expr _ e => fun ts => (staticText? e).isSome = true → ∃ values, IsSum ts values
  | _ => fun _ => True

theorem Written.hasPieces {ts : List Lexeme} {phrase : Phrase} (h : Derives ts phrase) :
    phrase.HasPieces ts := by
  induction h with
  | literal h =>
      intro htext
      obtain ⟨text, htext⟩ := Option.isSome_iff_exists.1 htext
      exact ⟨[text], .operand (.mk (Token.text?_of_literal? h htext))⟩
  | grouped _ ih =>
      intro htext
      obtain ⟨values, hvalues⟩ := ih htext
      exact ⟨values, .grouped hvalues⟩
  | nested | member | call | unary | conditional =>
      intro htext
      cases htext
  | joined hop _ _ ih ih' =>
      intro htext
      obtain ⟨rfl, hleft, hright⟩ := eq_plus_of_join? hop (Expr.isKnown_of_staticText? htext)
      obtain ⟨values, hvalues⟩ := ih hleft
      obtain ⟨others, hothers⟩ := ih' hright
      exact ⟨values ++ others, .joined hvalues hothers⟩
  | tighter _ ih => exact ih
  | _ => trivial

/-- An expression that is no sum of pieces is spelled by an expression without a known text. -/
theorem exists_spells_of_not_isSum {ts : List Lexeme} {e : Expr} (h : Derives ts (.expr .full e))
    (hno : ∀ values, ¬ IsSum ts values) :
    ∃ e', Spells ts (.expr .full e') ∧ staticText? e' = none := by
  obtain ⟨e', he'⟩ := h.isSpelled
  refine ⟨e', he', ?_⟩
  by_contra hknown
  obtain ⟨values, hvalues⟩ := (Spells.derives he').hasPieces (Option.isSome_iff_ne_none.2 hknown)
  exact hno values hvalues

/-! ### Braces around an expression -/

/-- Lexemes spell one pair of braces only. -/
theorem Spells.container_unique {ts : List Lexeme} {c c' : Container}
    (h : Spells ts (.container c)) (h' : Spells ts (.container c')) : c = c' := by
  have hreads := h.isReadAs (ts.length + 1) [] (by simp)
  have hreads' := h'.isReadAs (ts.length + 1) [] (by simp)
  exact (hreads.unique hreads').1

/-- In a parsed source, braces hold the expression that is spelled between them. -/
theorem Container.content_eq {source : String} {d : Document} (h : Document.parse source = .ok d)
    {e : Element} (he : Among d.elements e) {c : Container} (hc : .container c ∈ e.parts)
    {inner : Expr} (hinner : Spells (c.inside source) (.expr .full inner)) :
    c.content = .expr inner := by
  obtain ⟨left, right, hcontainer⟩ := Container.written_of_among (spells_of_parse h) he hc
  rw [Spells.container_unique hcontainer (.coveredBraces hinner)]

/-- The pieces before what stands in the braces of a role. -/
def beforeBracedRole : List Piece :=
  [⟨some .less, ['<']⟩, ⟨some (.word "div"), ['d', 'i', 'v']⟩, ⟨none, [' ']⟩,
    ⟨some (.word "role"), ['r', 'o', 'l', 'e']⟩, ⟨some .equals, ['=']⟩,
    ⟨some .openBrace, ['\x7b']⟩]

/-- The pieces after it. -/
def afterBracedRole : List Piece :=
  [⟨some .closeBrace, ['\x7d']⟩, ⟨none, [' ']⟩, ⟨some .slash, ['/']⟩, ⟨some .greater, ['>']⟩]

theorem bitten_beforeBracedRole (rest : List Char) : Bitten [] beforeBracedRole rest inBraces :=
  .step rfl (.step rfl (.step rfl (.step rfl (.step rfl (.step rfl .done)))))

theorem bitten_afterBracedRole : Bitten inBraces afterBracedRole [] [] :=
  .step rfl (.step rfl (.step rfl (.step rfl .done)))

/-- Nothing is left open where a source ends: no stray piece, which might go on, and no mode. -/
structure LeavesNothingOpen (source : String) : Prop where
  known : ∀ t ∈ lexemes source, t.token.isStray = false
  modes : finalModes source = []

theorem Token.isStray_of_isStatic {t : Token} (h : t.isStatic = true) : t.isStray = false := by
  cases t <;> first | rfl | cases h

theorem Modes.after_nil_of_isStatic {t : Token} (h : t.isStatic = true) :
    Modes.after [] t = [] := by
  cases t <;> first | rfl | cases h

/-- Tokens that stand for themselves open nothing. -/
theorem AllStatic.leavesNothingOpen {source : String} (h : AllStatic (lexemes source)) :
    LeavesNothingOpen source where
  known := fun t ht => Token.isStray_of_isStatic (h.2 t ht)
  modes := by
    have hthrough : ∀ ts : List Lexeme, (∀ t ∈ ts, t.token.isStatic = true) →
        Modes.through [] ts = [] := by
      intro ts
      induction ts with
      | nil => exact fun _ => rfl
      | cons t ts ih =>
          intro hts
          obtain ⟨ht, hothers⟩ := List.forall_mem_cons.1 hts
          rw [Modes.through_cons, Modes.after_nil_of_isStatic ht, ih hothers]
    rw [finalModes_eq, hthrough _ h.2]

/-- The lexemes of a role in braces are those of what stands in them, alone. -/
theorem lexemes_bracedRoleSource {inside : String} (hopen : LeavesNothingOpen inside)
    (hbalanced : Balanced ((lexemes inside).map Lexeme.token)) :
    lexemes (bracedRoleSource inside) = beforeRole ++
      (roleBraces inside ((lexemes inside).map (Lexeme.relocate (11 + ·))) ++
        afterRole (bracedRoleStop inside)) := by
  obtain ⟨ps, htext, hlexemes, hbitten⟩ := exists_bitten_before hopen.known
  have halone := hbitten (textOf afterBracedRole ++ []) (by rintro c ⟨⟩; rfl)
    (by rintro - c ⟨⟩; rfl)
  -- in the braces, the same pieces lead back to the modes of the braces
  obtain ⟨-, hthrough, habreast⟩ := @Balanced.framed _ hbalanced [.tag ⟨false, false, false⟩] []
    (lexemes inside) rfl
  rw [← finalModes_eq, hopen.modes] at hthrough
  rw [hlexemes] at habreast hthrough
  have hinside : Bitten inBraces ps (textOf afterBracedRole ++ []) inBraces := by
    have hunder := halone.under habreast
    rwa [hthrough] at hunder
  have hall := (bitten_beforeBracedRole _).append (hinside.append bitten_afterBracedRole)
  have hsource : textOf (beforeBracedRole ++ (ps ++ afterBracedRole)) =
      (bracedRoleSource inside).toList := by
    simp [bracedRoleSource, beforeBracedRole, afterBracedRole, htext]
  have hfront : ∀ qs, lexemesAt 0 (beforeBracedRole ++ qs) =
      beforeRole ++ ⟨.openBrace, ⟨10, 11⟩⟩ :: lexemesAt 11 qs := fun qs => rfl
  have hback : lexemesAt (11 + byteLength inside.toList) afterBracedRole =
      ⟨.closeBrace, ⟨11 + byteLength inside.toList, bracedRoleStop inside⟩⟩ ::
        afterRole (bracedRoleStop inside) := by
    have hstop : 11 + byteLength inside.toList + 1 = bracedRoleStop inside := by
      rw [bracedRoleStop]
      omega
    rw [← hstop]
    rfl
  rw [hall.lexemes_eq hsource, hfront, lexemesAt_append, htext, hback, lexemesAt_eq 11, ← hlexemes]
  simp [roleBraces]

/-- What is spelled by the lexemes of a text that leaves nothing open is the role, put elsewhere. -/
theorem parse_braced {inside : String} (hopen : LeavesNothingOpen inside) {e : Expr}
    (h : Spells (lexemes inside) (.expr .full e)) :
    Document.parse (bracedRoleSource inside) =
      .ok ⟨[bracedRoleElement inside (e.relocate (11 + ·))]⟩ := by
  have hinv : ∀ n, 11 + n - 11 = n := by omega
  have helsewhere := Spells.relocate (g := (· - 11)) hinv h
  exact @parse_of_role_lexemes _ _ (.braced ⟨_, ⟨10, bracedRoleStop inside⟩⟩)
    (lexemes_bracedRoleSource hopen h.balanced) (.bracedValue (spells_roleBraces _ helsewhere))

end RoleAudit.Markup

namespace RoleAudit.Audit

open RoleAudit.Markup
open RoleAudit.Text

/-! ### What is known of a sum -/

/-- A sum of pieces is spelled by an expression of which the text is known that the pieces make up
in their order. -/
theorem exists_spells_of_isSum {ts : List Lexeme} {values : List String} (h : IsSum ts values) :
    ∃ e, Spells ts (.expr .full e) ∧ RoleValue.ofExpr e = .text (String.join values) := by
  obtain ⟨⟨e, he, htext, -⟩, -⟩ := h.summed.spelled
  rw [joinTexts_some] at htext
  exact ⟨e, he.loosen Level.sum.rank_le_full, ofExpr_of_staticText? htext⟩

/-- Of two operands or more, one of which has no known text, nothing is known. -/
theorem exists_spells_of_summed {ts : List Lexeme} {texts : List (Option String)}
    (h : Summed IsOperand ts texts) (hlength : 2 ≤ texts.length) (hnone : none ∈ texts) :
    ∃ e, Spells ts (.expr .full e) ∧ RoleValue.ofExpr e = .unresolvable := by
  obtain ⟨⟨e, he, htext, hadd⟩, -⟩ := h.spelled
  obtain ⟨left, right, rfl⟩ := hadd hlength
  rw [joinTexts_none hnone] at htext
  refine ⟨_, he.loosen Level.sum.rank_le_full, ?_⟩
  rw [RoleValue.ofExpr, htext]
  all_goals simp

/-- The lexemes, in the braces of a role, make it a role of this value. -/
structure StandsFor (ts : List Lexeme) (value : RoleValue) : Prop where
  /-- In every parsed source, a role has the value if its braces hold the lexemes. -/
  read : ∀ source d, Document.parse source = .ok d → ∀ e attr c, Among d.elements e →
    e.tag.attributeIgnoringCase? "role" = some attr → attr.value = some (.braced c) →
      c.inside source = ts → RoleValue.ofAttribute (some attr) = value
  /-- A text with these lexemes that leaves nothing open is accepted as a role. -/
  accepted : ∀ inside, lexemes inside = ts → LeavesNothingOpen inside → ∃ e attr,
    Document.parse (bracedRoleSource inside) = .ok ⟨[e]⟩ ∧
      e.tag.attributeIgnoringCase? "role" = some attr ∧ RoleValue.ofAttribute (some attr) = value

/-- Lexemes stand for what is known of the expression that they spell. -/
theorem standsFor_of_spells {ts : List Lexeme} {e : Expr} (h : Spells ts (.expr .full e)) :
    StandsFor ts (RoleValue.ofExpr e) where
  read := by
    intro source d hparse f attr c hf hrole hc hinside
    have hcontent := Container.content_eq hparse hf (container_mem_parts hrole hc) (hinside ▸ h)
    obtain ⟨space, name, value, span⟩ := attr
    obtain rfl : value = some (.braced c) := hc
    rw [RoleValue.ofAttribute, hcontent, RoleValue.ofContent]
  accepted := by
    intro inside hlexemes hopen
    refine ⟨_, _, parse_braced hopen (hlexemes ▸ h), role_bracedRoleElement _ _, ?_⟩
    exact RoleValue.ofExpr_relocate e

/-- The tokens of a sum of pieces stand for themselves or put such tokens together. -/
theorem allStatic_of_isSum {ts : List Lexeme} {values : List String} (h : IsSum ts values) :
    AllStatic ts := by
  obtain ⟨e, he, hvalue⟩ := exists_spells_of_isSum h
  have hknown : e.IsKnown := by
    rw [Expr.IsKnown, hvalue]
    exact RoleValue.noConfusion
  exact (Spells.derives he).static hknown

/-- What a sum of texts in quotes and templates stands for depends only on the sequence of its
pieces: they are joined in their order, however they are grouped by parentheses.  And if an
expression that is no such sum stands, in parentheses, in the place of a piece, nothing is known of
a sum of two pieces or more, however deep the piece lies. -/
theorem sums_concatenate :
    (∀ (ts : List Lexeme) (values : List String), IsSum ts values →
      StandsFor ts (.text (String.join values)) ∧
        ∀ inside, lexemes inside = ts → LeavesNothingOpen inside) ∧
    ∀ (front us back : List Lexeme) (piece : Lexeme) (values : List String) (e : Expr)
      (left right : Span), IsSum (front ++ piece :: back) values → 2 ≤ values.length →
        piece.token.text?.isSome = true → Derives us (.expr .full e) →
          (∀ others, ¬ IsSum us others) →
            StandsFor (front ++ ⟨.openParen, left⟩ :: (us ++ ⟨.closeParen, right⟩ :: back))
              .unresolvable := by
  constructor
  · intro ts values hsum
    obtain ⟨e, he, hvalue⟩ := exists_spells_of_isSum hsum
    refine ⟨hvalue ▸ standsFor_of_spells he, fun inside hlexemes => ?_⟩
    exact AllStatic.leavesNothingOpen (hlexemes ▸ allStatic_of_isSum hsum)
  · intro front us back piece values e left right hsum hlength hpiece hus hno
    obtain ⟨inner, hinner, hnone⟩ := exists_spells_of_not_isSum hus hno
    have hgroup : IsOperand (⟨.openParen, left⟩ :: (us ++ [⟨.closeParen, right⟩])) none :=
      hnone ▸ isOperand_grouped hinner
    obtain ⟨texts, hsummed, hlength', hmem⟩ := hsum.exists_summed rfl hpiece hgroup
    obtain ⟨e', he', hvalue⟩ := exists_spells_of_summed hsummed (hlength' ▸ hlength) hmem
    rw [List.cons_append, List.append_assoc, List.singleton_append] at he'
    exact hvalue ▸ standsFor_of_spells he'

/-- A sum of three pieces, the first two of them in parentheses. -/
def sumText : String :=
  "(\"a\" + \x60b\x60) + \"c\""

/-- The same with a name in the place of the second piece. -/
def blurredText : String :=
  "(\"a\" + (x)) + \"c\""

theorem sums_concatenate_sample :
    (∃ e attr, Document.parse (bracedRoleSource sumText) = .ok ⟨[e]⟩ ∧
      e.tag.attributeIgnoringCase? "role" = some attr ∧
        RoleValue.ofAttribute (some attr) = .text "abc") ∧
    ∃ e attr, Document.parse (bracedRoleSource blurredText) = .ok ⟨[e]⟩ ∧
      e.tag.attributeIgnoringCase? "role" = some attr ∧
        RoleValue.ofAttribute (some attr) = .unresolvable := by
  let front : List Lexeme := [⟨.openParen, ⟨0, 1⟩⟩, ⟨.quoted "a", ⟨1, 4⟩⟩, ⟨.plus, ⟨5, 6⟩⟩]
  let piece : Lexeme := ⟨.template "b", ⟨7, 10⟩⟩
  let back : List Lexeme := [⟨.closeParen, ⟨10, 11⟩⟩, ⟨.plus, ⟨12, 13⟩⟩, ⟨.quoted "c", ⟨14, 17⟩⟩]
  have hlexemes : lexemes sumText = front ++ piece :: back := by with_unfolding_all rfl
  have hlexemes' : lexemes blurredText = front ++ ⟨.openParen, ⟨7, 8⟩⟩ ::
      ([⟨.word "x", ⟨8, 9⟩⟩] ++ ⟨.closeParen, ⟨9, 10⟩⟩ :: back) := by with_unfolding_all rfl
  have hsum : IsSum (front ++ piece :: back) ["a", "b", "c"] := by
    have hgroup : IsSum _ ["a", "b"] := @Summed.joined _ _ ⟨5, 6⟩ [⟨.quoted "a", ⟨1, 4⟩⟩] [piece] _ _
      (.operand (.mk rfl)) (.operand (.mk rfl))
    exact .joined (.grouped hgroup) (.operand (.mk rfl))
  have hname : Derives [⟨.word "x", ⟨8, 9⟩⟩] (.expr .full (.name "x")) :=
    Written.loosen (.literal rfl) Level.primary.rank_le_full
  have hno : ∀ others, ¬ IsSum [⟨.word "x", ⟨8, 9⟩⟩] others := fun others h =>
    absurd ((allStatic_of_isSum h).2 _ (List.mem_singleton_self _)) (by decide)
  obtain ⟨hsums, hblurred⟩ := sums_concatenate
  obtain ⟨hstands, hopen⟩ := hsums _ _ hsum
  have hstands' := hblurred front _ back piece _ _ ⟨7, 8⟩ ⟨9, 10⟩ hsum (by decide) rfl hname hno
  have hopen' : LeavesNothingOpen blurredText :=
    ⟨by rw [hlexemes']; decide, by rw [finalModes_eq, hlexemes']; rfl⟩
  exact ⟨hstands.accepted _ hlexemes (hopen _ hlexemes), hstands'.accepted _ hlexemes' hopen'⟩

end RoleAudit.Audit
