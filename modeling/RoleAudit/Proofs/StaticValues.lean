import RoleAudit.Proofs.Offences

/-!
# Values that are known

The rule on roles reports a value in braces only if it can be told from the expression.  Then the
braces hold nothing that depends on a run of the program: literals, templates without a
substitution, plus signs and parentheses.

Main statements: `Written.static`, by induction on how the expression is written, and
`reported_values_static`.
-/

namespace RoleAudit.Markup

open RoleAudit.Audit
open Grammar

/-- Whether a token stands for itself, or only puts such tokens together. -/
def Token.isStatic : Token → Bool
  | quoted _ | number _ | boolean _ | null | plus | openParen | closeParen => true
  | template value => !hasSubstitution value.toList
  | _ => false

/-- The lexemes are tokens that stand for themselves, and there are some. -/
def AllStatic (ts : List Lexeme) : Prop :=
  ts ≠ [] ∧ ∀ t ∈ ts, t.token.isStatic = true

theorem AllStatic.single {t : Lexeme} (h : t.token.isStatic = true) : AllStatic [t] :=
  ⟨by simp, by simpa using h⟩

theorem AllStatic.append {ts us : List Lexeme} (h : AllStatic ts) (h' : AllStatic us) :
    AllStatic (ts ++ us) :=
  ⟨by simp [h.1], fun t ht => (List.mem_append.1 ht).elim (h.2 t) (h'.2 t)⟩

theorem AllStatic.cons {t : Lexeme} {ts : List Lexeme} (h : t.token.isStatic = true)
    (h' : AllStatic ts) : AllStatic (t :: ts) :=
  (AllStatic.single h).append h'

/-- Something is known about the value of an expression. -/
def Expr.IsKnown (e : Expr) : Prop :=
  RoleValue.ofExpr e ≠ .unresolvable

theorem ofExpr_of_staticText? {e : Expr} {text : String} (h : staticText? e = some text) :
    RoleValue.ofExpr e = .text text := by
  cases e with
  | null | number digits | boolean value => cases h
  | _ => simp [RoleValue.ofExpr, h]

theorem Expr.isKnown_of_staticText? {e : Expr} (h : (staticText? e).isSome = true) :
    e.IsKnown := by
  obtain ⟨text, htext⟩ := Option.isSome_iff_exists.1 h
  rw [IsKnown, ofExpr_of_staticText? htext]
  exact RoleValue.noConfusion

/-- Of the operators only the sum of two known texts is known. -/
theorem Expr.isSome_of_isKnown_binary {op : BinaryOp} {left right : Expr}
    (h : (Expr.binary op left right).IsKnown) :
    op = .add ∧ (staticText? left).isSome = true ∧ (staticText? right).isSome = true := by
  cases op with
  | add =>
      cases hleft : staticText? left with
      | none => exact absurd (by simp [RoleValue.ofExpr, staticText?, hleft]) h
      | some first =>
          cases hright : staticText? right with
          | none => exact absurd (by simp [RoleValue.ofExpr, staticText?, hleft, hright]) h
          | some second => exact ⟨rfl, rfl, rfl⟩
  | subtract | other text => exact absurd rfl h

theorem isStatic_of_literal? {t : Token} {e : Expr} (h : literal? t = some e) (he : e.IsKnown) :
    t.isStatic = true := by
  cases t <;> cases h
  case template value =>
    cases hvalue : hasSubstitution value.toList with
    | false => simp [Token.isStatic, hvalue]
    | true => exact absurd (by simp [RoleValue.ofExpr, staticText?, hvalue]) he
  case word text => exact absurd rfl he
  all_goals rfl

/-- Of the operators that join two operands only the plus sign can make a known value, and only of
known texts. -/
theorem eq_plus_of_join? {level : Level} {t : Token} {build : Expr → Expr → Expr}
    {left right : Expr} (h : level.join? t = some build) (he : (build left right).IsKnown) :
    t = .plus ∧ (staticText? left).isSome = true ∧ (staticText? right).isSome = true := by
  cases level with
  | primary | suffixed | prefixed | full => cases h
  | conjunction | disjunction => cases t <;> cases h <;> exact absurd rfl he
  | comparison =>
      cases t <;> cases h
      cases (Expr.isSome_of_isKnown_binary he).1
  | sum =>
      cases t <;> cases h
      · exact ⟨rfl, (Expr.isSome_of_isKnown_binary he).2⟩
      · cases (Expr.isSome_of_isKnown_binary he).1

/-- What a phrase says about its lexemes: those of a known expression stand for themselves. -/
def Phrase.IsStatic : Phrase → List Lexeme → Prop
  | .expr _ e => fun ts => e.IsKnown → AllStatic ts
  | _ => fun _ => True

theorem Written.static {ts : List Lexeme} {phrase : Phrase} (h : Derives ts phrase) :
    phrase.IsStatic ts := by
  induction h with
  | literal h => exact fun he => .single (isStatic_of_literal? h he)
  | grouped _ ih => exact fun he => .cons rfl ((ih he).append (.single rfl))
  | nested | member | call | unary | conditional => exact fun he => absurd rfl he
  | joined hop _ _ ih ih' =>
      intro he
      obtain ⟨rfl, hleft, hright⟩ := eq_plus_of_join? hop he
      exact (ih (Expr.isKnown_of_staticText? hleft)).append
        (.cons rfl (ih' (Expr.isKnown_of_staticText? hright)))
  | tighter _ ih => exact ih
  | _ => trivial

/-- Braces around a value that is known hold static tokens. -/
theorem Written.static_of_container {ts : List Lexeme} {c : Container}
    (h : Derives ts (.container c)) (hc : RoleValue.ofContent c.content ≠ .unresolvable) :
    ∃ left inside right, ts = ⟨.openBrace, left⟩ :: (inside ++ [⟨.closeBrace, right⟩]) ∧
      AllStatic inside := by
  cases h with
  | emptyBraces | skippedBraces _ _ _ => exact absurd rfl hc
  | @coveredBraces left right inside e h => exact ⟨left, inside, right, rfl, h.static hc⟩

/-- The lexemes between the braces of a container. -/
def Container.inside (source : String) (container : Container) : List Lexeme :=
  (lexemes source).filter fun t => StrictlyWithin t.span container.span

/-- A pair of braces in a forest that the lexemes of a source write is written by the lexemes between
the braces and the two braces around them. -/
theorem Container.written_of_among {skip : List Lexeme → Prop} {source : String}
    {es : List Element} (h : Written skip (lexemes source) (.elements es)) {e : Element}
    (he : Among es e) {c : Container} (hc : .container c ∈ e.parts) : ∃ left right,
      Written skip (⟨.openBrace, left⟩ :: (c.inside source ++ [⟨.closeBrace, right⟩]))
        (.container c) := by
  obtain ⟨ts, hts, helement⟩ := h.scattered.exists_of_among he
  obtain ⟨us, hus, hcontainer⟩ := helement.container_of_parts hc
  obtain ⟨front, back, hsource⟩ := hus.trans hts
  obtain ⟨left, inside, right, rfl, hspan, -⟩ := hcontainer.container_ends
  have hlexemes : lexemes source =
      front ++ ⟨.openBrace, left⟩ :: (inside ++ ⟨.closeBrace, right⟩ :: back) := by
    simpa using hsource.symm
  have hinside : c.inside source = inside := by
    rw [Container.inside, hspan, hlexemes]
    exact (hlexemes ▸ ordered_lexemes source).filter_strictlyWithin
  rw [hinside]
  exact ⟨left, right, hcontainer⟩

/-- In a parsed source, the braces around a value that is known hold static tokens. -/
theorem Container.static_of_among {source : String} {d : Document}
    (h : Document.parse source = .ok d) {e : Element} (he : Among d.elements e) {c : Container}
    (hc : .container c ∈ e.parts) (hknown : RoleValue.ofContent c.content ≠ .unresolvable) :
    AllStatic (c.inside source) := by
  obtain ⟨left, right, hcontainer⟩ := Container.written_of_among (derives_of_parse h) he hc
  obtain ⟨_, inside, _, hts, hstatic⟩ := hcontainer.static_of_container hknown
  obtain ⟨-, htail⟩ := List.cons.inj hts
  rwa [List.append_inj_left' htail rfl]

end RoleAudit.Markup

namespace RoleAudit.Audit

open RoleAudit.Markup

/-- An attribute that breaks the rule is the role of its tag, and its value is known. -/
theorem RoleRule.known_of_offending? {r : RoleRule} {tag : Tag} {attr : Attribute}
    (h : r.offending? tag = some attr) : tag.attributeIgnoringCase? "role" = some attr ∧
      RoleValue.ofAttribute (some attr) ≠ .unresolvable := by
  unfold offending? at h
  split at h
  · cases h
  · obtain ⟨hattr, hinvalid⟩ := Option.filter_eq_some_iff.1 h
    refine ⟨hattr, fun hvalue => ?_⟩
    rw [hvalue] at hinvalid
    cases hinvalid

theorem container_mem_parts {e : Element} {attr : Attribute} {c : Container}
    (hattr : e.tag.attributeIgnoringCase? "role" = some attr)
    (hc : attr.value = some (.braced c)) : .container c ∈ e.parts := by
  have hitem := Tag.mem_attributes.1 (List.mem_of_find?_eq_some hattr)
  have hgroup : .container c ∈ (TagItem.plain attr).groups := by
    simp [TagItem.groups, valueGroups, hc]
  exact List.mem_cons_of_mem _
    (List.mem_append_left _ (List.mem_flatMap.2 ⟨_, hitem, hgroup⟩))

/-- On every source that is parsed, the rule reports the value in a pair of braces only if they hold
static tokens, and at least one. -/
theorem reported_values_static (source : String) (d : Document)
    (h : Document.parse source = .ok d) (r : RoleRule) (front back : List Rule)
    (hnames : ∀ rule ∈ front ++ back, rule.name ≠ r.rule.name) :
    ∃ found, auditSource (front ++ r.rule :: back) source = .ok found ∧
      r.ReportsInOrder source d found ∧
        ∀ e attr, Among d.elements e → r.offending? e.tag = some attr →
          e.tag.attributeIgnoringCase? "role" = some attr ∧
            ∀ c, attr.value = some (.braced c) → AllStatic (c.inside source) := by
  obtain ⟨found, hfound, hreports⟩ := r.exists_found h hnames
  refine ⟨found, hfound, hreports, fun e attr he hoffending => ?_⟩
  obtain ⟨hrole, hknown⟩ := RoleRule.known_of_offending? hoffending
  refine ⟨hrole, fun c hc => Container.static_of_among h he (container_mem_parts hrole hc) ?_⟩
  obtain ⟨space, name, value, span⟩ := attr
  dsimp only at hc
  subst hc
  exact hknown

/-- The braces around the role of the outermost element of `nestedDocument`. -/
def nestedBraces : Container :=
  ⟨.expr (.binary .add (.quoted "x") (.template "y")), ⟨8, 21⟩⟩

theorem reported_values_static_sample : Document.parse nestedSource = .ok nestedDocument ∧
    (∃ found, auditSource ([tagsRule] ++ buttonRule.rule :: []) nestedSource = .ok found ∧
      buttonRule.ReportsInOrder nestedSource nestedDocument found) ∧
        AllStatic (nestedBraces.inside nestedSource) := by
  obtain ⟨found, hfound, hreports, hstatic⟩ := reported_values_static nestedSource nestedDocument
    parse_nestedSource buttonRule [tagsRule] [] tagsRule_name_ne
  let role : Attribute := ⟨none, "role", some (.braced nestedBraces), ⟨3, 21⟩⟩
  obtain ⟨-, hrole⟩ := hstatic _ role (.here List.mem_cons_self) (by with_unfolding_all rfl)
  exact ⟨parse_nestedSource, ⟨found, hfound, hreports⟩, hrole nestedBraces rfl⟩

end RoleAudit.Audit
