import RoleAudit.Proofs.QuotedRoles
import RoleAudit.Proofs.Templates

/-!
# Roles in braces

A role in braces is the expression that stands there.  If it is a template, the rule knows its text
unless it holds a substitution, and whether it does is told from the value of the token, in which
escapes are resolved.  So a dollar sign and a brace count as the start of a substitution in
whichever way they are written.

Main statements: `parse_bracedRoleSource` and `template_dynamic_iff`.
-/

namespace RoleAudit.Markup

open RoleAudit.Text

/-! ### Pieces of a template -/

namespace Quoted

/-- The first piece that denotes anything denotes the character. -/
def StartsWith (c : Char) (pieces : List (List Char)) : Prop :=
  ∃ between piece others, pieces = between ++ piece :: others ∧
    (∀ line ∈ between, Denotes IsSignedNumeral '\x60' true line []) ∧
      Denotes IsSignedNumeral '\x60' true piece [c]

/-- A piece that denotes a dollar sign comes before one that denotes a brace, with nothing but
continued lines between them. -/
def SpellsSubstitution (pieces : List (List Char)) : Prop :=
  ∃ front dollar others, pieces = front ++ dollar :: others ∧
    Denotes IsSignedNumeral '\x60' true dollar ['$'] ∧ StartsWith '\x7b' others

section Templates

variable {back piece value value' : List Char} {pieces : List (List Char)} {c : Char}

/-- A dollar sign and a brace that stand for themselves spell the start of a substitution. -/
theorem spellsSubstitution_of_unescaped (h : [['$'], ['\x7b']] <:+: pieces) :
    SpellsSubstitution pieces := by
  obtain ⟨front, others, rfl⟩ := h
  have hplain : ∀ c, c ≠ '\x60' → c ≠ '\\' → Denotes IsSignedNumeral '\x60' true [c] [c] :=
    fun c hquote hslash => .plain hquote hslash fun _ => rfl
  exact ⟨front, ['$'], ['\x7b'] :: others, by simp, hplain '$' (by decide) (by decide),
    [], ['\x7b'], others, rfl, by simp, hplain '\x7b' (by decide) (by decide)⟩

theorem startsWith_cons : StartsWith c (piece :: pieces) ↔
    Denotes IsSignedNumeral '\x60' true piece [c] ∨
      Denotes IsSignedNumeral '\x60' true piece [] ∧ StartsWith c pieces := by
  constructor
  · rintro ⟨between, piece', others, hpieces, hbetween, hpiece⟩
    cases between with
    | nil =>
        obtain ⟨rfl, -⟩ := List.cons.inj hpieces
        exact Or.inl hpiece
    | cons line between =>
        obtain ⟨rfl, rfl⟩ := List.cons.inj hpieces
        obtain ⟨hline, hbetween⟩ := List.forall_mem_cons.1 hbetween
        exact Or.inr ⟨hline, between, piece', others, rfl, hbetween, hpiece⟩
  · rintro (hpiece | ⟨hline, between, piece', others, rfl, hbetween, hpiece⟩)
    · exact ⟨[], piece, pieces, rfl, by simp, hpiece⟩
    · exact ⟨piece :: between, piece', others, rfl, List.forall_mem_cons.2 ⟨hline, hbetween⟩,
        hpiece⟩

theorem spellsSubstitution_cons : SpellsSubstitution (piece :: pieces) ↔
    Denotes IsSignedNumeral '\x60' true piece ['$'] ∧ StartsWith '\x7b' pieces ∨
      SpellsSubstitution pieces := by
  constructor
  · rintro ⟨front, dollar, others, hpieces, hdollar, hothers⟩
    cases front with
    | nil =>
        obtain ⟨rfl, rfl⟩ := List.cons.inj hpieces
        exact Or.inl ⟨hdollar, hothers⟩
    | cons first front =>
        obtain ⟨rfl, rfl⟩ := List.cons.inj hpieces
        exact Or.inr ⟨front, dollar, others, rfl, hdollar, hothers⟩
  · rintro (⟨hdollar, hothers⟩ | ⟨front, dollar, others, rfl, hdollar, hothers⟩)
    · exact ⟨[], piece, pieces, rfl, hdollar, hothers⟩
    · exact ⟨piece :: front, dollar, others, rfl, hdollar, hothers⟩

theorem Denotes.iff_eq (h : Denotes IsSignedNumeral '\x60' true piece value) :
    Denotes IsSignedNumeral '\x60' true piece value' ↔ value' = value :=
  ⟨fun h' => h'.unique h rfl, fun heq => heq ▸ h⟩

theorem Denotes.nil_or_single (h : Denotes IsSignedNumeral '\x60' true piece value) :
    value = [] ∨ ∃ c, value = [c] := by
  cases h with
  | continued => exact Or.inl rfl
  | plain | escaped => exact Or.inr ⟨_, rfl⟩

theorem Segmented.startsWith_iff
    (h : Segmented IsSignedNumeral '\x60' true back pieces value) :
    StartsWith c pieces ↔ value.head? = some c := by
  induction h with
  | nil => simp [StartsWith]
  | cons hpiece _ _ ih =>
      rw [startsWith_cons, hpiece.iff_eq, hpiece.iff_eq, ih]
      obtain rfl | ⟨d, rfl⟩ := hpiece.nil_or_single
      · simp
      · simp [eq_comm]

/-- What pieces denote holds the start of a substitution if they spell it. -/
theorem Segmented.spellsSubstitution_iff
    (h : Segmented IsSignedNumeral '\x60' true back pieces value) :
    SpellsSubstitution pieces ↔ ['$', '\x7b'] <:+: value := by
  induction h with
  | nil => simp [SpellsSubstitution]
  | @cons _ _ _ others hpiece _ hrest ih =>
      have hprefix : ['\x7b'] <+: others ↔ others.head? = some '\x7b' := by
        cases others <;> simp [eq_comm]
      rw [spellsSubstitution_cons, hpiece.iff_eq, hrest.startsWith_iff, ih]
      obtain rfl | ⟨d, rfl⟩ := hpiece.nil_or_single
      · simp
      · rw [List.singleton_append, List.infix_cons_iff, List.cons_prefix_cons, hprefix]
        simp

end Templates

end Quoted

/-! ### Sources with a role in braces -/

/-- A tag with a role in braces. -/
def bracedRoleSource (inside : String) : String :=
  "<div role=\x7b" ++ inside ++ "\x7d />"

/-- Where the role in braces stops. -/
def bracedRoleStop (inside : String) : Nat :=
  12 + byteLength inside.toList

/-- The role of the tag, if what stands in the braces is an expression. -/
def bracedRoleAttribute (inside : String) (e : Expr) : Attribute :=
  ⟨none, "role", some (.braced ⟨.expr e, ⟨10, bracedRoleStop inside⟩⟩), ⟨5, bracedRoleStop inside⟩⟩

/-- The element that the tag is. -/
def bracedRoleElement (inside : String) (e : Expr) : Element :=
  .single ⟨.plain "div", [.plain (bracedRoleAttribute inside e)], ⟨0, bracedRoleStop inside + 3⟩⟩

theorem role_bracedRoleElement (inside : String) (e : Expr) :
    (bracedRoleElement inside e).tag.attributeIgnoringCase? "role" =
      some (bracedRoleAttribute inside e) := by
  simp [bracedRoleElement, Element.tag, Tag.attributeIgnoringCase?, Tag.attributes,
    bracedRoleAttribute]

/-- The modes between the braces. -/
def inBraces : Modes :=
  [.code, .tag ⟨false, false, false⟩]

/-- Lexemes in the braces of the role, with the two braces. -/
def roleBraces (inside : String) (ts : List Lexeme) : List Lexeme :=
  ⟨.openBrace, ⟨10, 11⟩⟩ ::
    (ts ++ [⟨.closeBrace, ⟨11 + byteLength inside.toList, bracedRoleStop inside⟩⟩])

theorem spells_roleBraces (inside : String) {ts : List Lexeme} {e : Expr}
    (h : Spells ts (.expr .full e)) :
    Spells (roleBraces inside ts) (.container ⟨.expr e, ⟨10, bracedRoleStop inside⟩⟩) :=
  @Written.coveredBraces _ ⟨10, 11⟩ ⟨11 + byteLength inside.toList, bracedRoleStop inside⟩ ts e h

/-- A role in braces is the expression that its lexemes spell. -/
theorem parse_bracedRoleSource {inside : String} {ts : List Lexeme} {e : Expr}
    (hlexes : Lexes inBraces 11 (inside.toList ++ ['\x7d', ' ', '/', '>']) ts inBraces
      (11 + byteLength inside.toList) ['\x7d', ' ', '/', '>'])
    (hspells : Spells ts (.expr .full e)) :
    Document.parse (bracedRoleSource inside) = .ok ⟨[bracedRoleElement inside e]⟩ := by
  have htext : (bracedRoleSource inside).toList = '<' :: 'd' :: 'i' :: 'v' :: ' ' :: 'r' :: 'o' ::
      'l' :: 'e' :: '=' :: '\x7b' :: (inside.toList ++ ['\x7d', ' ', '/', '>']) := by
    simp [bracedRoleSource]
  have hstop : 11 + byteLength inside.toList + 1 = bracedRoleStop inside := by
    rw [bracedRoleStop]
    omega
  have hclose : Lexes inBraces (11 + byteLength inside.toList) ['\x7d', ' ', '/', '>']
      [⟨.closeBrace, ⟨11 + byteLength inside.toList, bracedRoleStop inside⟩⟩]
      [.tag ⟨false, false, false⟩] (bracedRoleStop inside) [' ', '/', '>'] := by
    rw [← hstop]
    exact .token .closeBrace 1 rfl rfl .done
  exact @parse_role _ _ _ (.braced ⟨.expr e, ⟨10, bracedRoleStop inside⟩⟩) htext rfl
    (.token .openBrace 1 rfl rfl (hlexes.append hclose)) (.bracedValue (spells_roleBraces _ hspells))

/-- A template as a role is what its pieces denote. -/
theorem parse_template {inside value : String} {pieces : List (List Char)}
    (h : Quoted.Segmented Quoted.IsSignedNumeral '\x60' true ['\x60', '\x7d', ' ', '/', '>'] pieces
      value.toList) (hinside : inside.toList = '\x60' :: (pieces.flatten ++ ['\x60'])) :
    Document.parse (bracedRoleSource inside) =
      .ok ⟨[bracedRoleElement inside (.template value)]⟩ := by
  have hread := Quoted.read_of_segmented (by decide) h
  rw [Quoted.read_quote, Option.map_some] at hread
  have hbite := codeBite_template false hread
  have htick : ('\x60' : Char).utf8Size = 1 := rfl
  have hwidth : 1 + (byteLength pieces.flatten + 1) = byteLength inside.toList := by
    simp [hinside, htick]
  rw [List.append_nil, String.ofList_toList, htick, hwidth] at hbite
  have hlexes : Lexes inBraces 11 (inside.toList ++ ['\x7d', ' ', '/', '>'])
      [⟨.template value, ⟨11, 11 + byteLength inside.toList⟩⟩] inBraces
      (11 + byteLength inside.toList) ['\x7d', ' ', '/', '>'] := by
    rw [hinside, List.cons_append, List.append_assoc, ← hinside]
    exact .token (.template value) _ hbite rfl .done
  exact parse_bracedRoleSource hlexes
    (Written.loosen (.literal rfl) Level.primary.rank_le_full)

/-! ### A text as a template -/

/-- How the characters of a text are written in a template: a backslash comes before each backslash,
each backtick, and the dollar sign of what would be a substitution. -/
def escapedPieces : List Char → List (List Char)
  | [] => []
  | c :: rest =>
      (if c = '\\' ∨ c = '\x60' ∨ c = '$' ∧ rest.head? = some '\x7b' then ['\\', c] else [c]) ::
        escapedPieces rest

/-- A text as a template literal. -/
def templateLiteral (value : String) : String :=
  String.ofList ('\x60' :: ((escapedPieces value.toList).flatten ++ ['\x60']))

theorem escapedPieces_spell (text : List Char) :
    List.Forall₂ (Quoted.IsSpelling '\x60' true) text (escapedPieces text) := by
  induction text with
  | nil => exact .nil
  | cons c rest ih =>
      rw [escapedPieces]
      split
      · next hescaped =>
          have hitself : Quoted.opensEscape c = false := by
            rcases hescaped with rfl | rfl | ⟨rfl, -⟩ <;> rfl
          exact .cons (.escaped (.itself hitself)) ih
      · next hplain =>
          rw [not_or, not_or] at hplain
          exact .cons (.plain hplain.2.1 hplain.1 fun _ => rfl) ih

theorem parse_templateLiteral (value : String) :
    Document.parse (bracedRoleSource (templateLiteral value)) =
      .ok ⟨[bracedRoleElement (templateLiteral value) (.template value)]⟩ :=
  parse_template (Quoted.segmented_of_spellings (escapedPieces_spell _) _).signed
    (by simp [templateLiteral])

example : bracedRoleSource (templateLiteral "$\x7bx\x7d") =
    "<div role=\x7b\x60\\$\x7bx\x7d\x60\x7d />" := by
  decide

end RoleAudit.Markup

namespace RoleAudit.Audit

open RoleAudit.Markup
open RoleAudit.Markup.Quoted

/-! ### Dynamic templates -/

/-- A substitution is told by its first two characters. -/
theorem hasSubstitution_iff {text : List Char} :
    hasSubstitution text = true ↔ ['$', '\x7b'] <:+: text := by
  fun_induction hasSubstitution text with
  | case1 rest => exact iff_of_true rfl ⟨[], rest, rfl⟩
  | case2 c rest hstart ih =>
      have hprefix : ¬ ['$', '\x7b'] <+: c :: rest := by
        rintro ⟨others, hothers⟩
        obtain ⟨rfl, rfl⟩ := List.cons.inj hothers
        exact hstart others rfl rfl
      rw [ih, List.infix_cons_iff, or_iff_right hprefix]
  | case3 => simp

theorem value_bracedTemplate (inside value : String) :
    RoleValue.ofAttribute (some (bracedRoleAttribute inside (.template value))) =
      if hasSubstitution value.toList then .unresolvable else .text value := by
  cases h : hasSubstitution value.toList <;>
    simp [bracedRoleAttribute, RoleValue.ofAttribute, RoleValue.ofContent, RoleValue.ofExpr,
      staticText?, h]

/-- A text that is written as a template is known unless it holds a dollar sign before a brace, even
though a backslash comes before this dollar sign.  In a source, a template with this value counts as
one with a substitution if its pieces spell the start of one, with escapes or without. -/
theorem template_dynamic_iff (value : String) :
    (∃ e attr, Document.parse (bracedRoleSource (templateLiteral value)) = .ok ⟨[e]⟩ ∧
      e.tag.attributeIgnoringCase? "role" = some attr ∧
      (RoleValue.ofAttribute (some attr) = .text value ↔ ¬ ['$', '\x7b'] <:+: value.toList) ∧
      (RoleValue.ofAttribute (some attr) = .unresolvable ↔ ['$', '\x7b'] <:+: value.toList)) ∧
    ∀ (source : String) (l : Lexeme), l ∈ lexemes source → l.token = .template value →
      ∃ pieces back, Segmented IsSignedNumeral '\x60' true ('\x60' :: back) pieces value.toList ∧
        Cut source.toList l.span ('\x60' :: (pieces.flatten ++ ['\x60'])) back ∧
        (isInterpolated (.template value) = true ↔ SpellsSubstitution pieces) ∧
        ([['$'], ['\x7b']] <:+: pieces → isInterpolated (.template value) = true) := by
  constructor
  · refine ⟨_, _, parse_templateLiteral value, role_bracedRoleElement _ _, ?_⟩
    rw [value_bracedTemplate, ← hasSubstitution_iff]
    cases hasSubstitution value.toList <;> simp
  · intro source l hl hvalue
    obtain ⟨pieces, back, hpieces, hcut⟩ := exists_segmented_of_template hl hvalue
    have hiff : isInterpolated (.template value) = true ↔ SpellsSubstitution pieces := by
      rw [hpieces.spellsSubstitution_iff, ← hasSubstitution_iff]
      rfl
    exact ⟨pieces, back, hpieces, hcut, hiff, fun h => hiff.2 (spellsSubstitution_of_unescaped h)⟩

/-- A dollar sign that is written as a number before a brace. -/
def numberedSubstitution : String :=
  "\x60\\u0024\x7b\x60"

theorem template_dynamic_iff_sample :
    ⟨.template "$\x7b", ⟨0, 9⟩⟩ ∈ lexemes numberedSubstitution ∧ ∃ pieces back,
      Cut numberedSubstitution.toList ⟨0, 9⟩ ('\x60' :: (pieces.flatten ++ ['\x60'])) back ∧
        SpellsSubstitution pieces := by
  have hmem : ⟨.template "$\x7b", ⟨0, 9⟩⟩ ∈ lexemes numberedSubstitution := by
    have hlexemes : lexemes numberedSubstitution = [⟨.template "$\x7b", ⟨0, 9⟩⟩] := by
      with_unfolding_all rfl
    rw [hlexemes]
    exact List.mem_cons_self
  obtain ⟨pieces, back, -, hcut, hiff, -⟩ := (template_dynamic_iff _).2 _ _ hmem rfl
  exact ⟨hmem, pieces, back, hcut, hiff.1 (by decide)⟩

/-- A text that looks like a substitution is not known, whatever comes before its dollar sign. -/
theorem escaped_substitution_is_dynamic : ¬ ∀ value : String, ∃ e attr,
    Document.parse (bracedRoleSource (templateLiteral value)) = .ok ⟨[e]⟩ ∧
      e.tag.attributeIgnoringCase? "role" = some attr ∧
      RoleValue.ofAttribute (some attr) = .text value := by
  intro h
  obtain ⟨e, attr, hparse, hrole, hvalue⟩ := h "$\x7b"
  rw [parse_templateLiteral] at hparse
  cases hparse
  rw [role_bracedRoleElement] at hrole
  cases hrole
  rw [value_bracedTemplate] at hvalue
  revert hvalue
  decide

end RoleAudit.Audit
