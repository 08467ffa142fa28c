import RoleAudit.Markup.Walk
import RoleAudit.Proofs.Completeness

/-!
# Printing

A printed document is the list of tokens that writes it with no more parentheses than the levels of
its operators demand.  A tree keeps only the place of a prose, of a spread and of what no expression
covers, so a `Filler` says what to print for them.

Reading what is printed returns the document again, up to the spans, for which a tree and its
printed form have different numbers.  The proof follows the printer: each phrase is spelled by its
tokens, and what is spelled is read.

Main statement: `ofLexemes_tokens`.
-/

namespace RoleAudit.Markup

open RoleAudit.Text (Span)
open Reader Grammar

/-! ### Trees without spans -/

mutual

/-- An element with all spans set to nought, and so for the parts of which elements are made. -/
def Element.withoutSpans : Element → Element
  | .single tag => .single tag.withoutSpans
  | .pair tag children _ => .pair tag.withoutSpans (childrenWithoutSpans children) ⟨0, 0⟩

def Tag.withoutSpans : Tag → Tag
  | ⟨name, items, _⟩ => ⟨name, itemsWithoutSpans items, ⟨0, 0⟩⟩

def itemsWithoutSpans : List TagItem → List TagItem
  | [] => []
  | item :: others => item.withoutSpans :: itemsWithoutSpans others

def TagItem.withoutSpans : TagItem → TagItem
  | .plain attr => .plain attr.withoutSpans
  | .spread _ => .spread ⟨0, 0⟩

def Attribute.withoutSpans : Attribute → Attribute
  | ⟨space, name, some value, _⟩ => ⟨space, name, some value.withoutSpans, ⟨0, 0⟩⟩
  | ⟨space, name, none, _⟩ => ⟨space, name, none, ⟨0, 0⟩⟩

def AttributeValue.withoutSpans : AttributeValue → AttributeValue
  | .quoted value _ => .quoted value ⟨0, 0⟩
  | .braced container => .braced container.withoutSpans

def Container.withoutSpans : Container → Container
  | ⟨content, _⟩ => ⟨content.withoutSpans, ⟨0, 0⟩⟩

def Content.withoutSpans : Content → Content
  | .empty => .empty
  | .expr expr => .expr expr.withoutSpans
  | .other => .other

def childrenWithoutSpans : List Child → List Child
  | [] => []
  | child :: others => child.withoutSpans :: childrenWithoutSpans others

def Child.withoutSpans : Child → Child
  | .prose _ => .prose ⟨0, 0⟩
  | .element element => .element element.withoutSpans
  | .braced container => .braced container.withoutSpans

def Expr.withoutSpans : Expr → Expr
  | .member object property => .member object.withoutSpans property
  | .call callee arguments => .call callee.withoutSpans (exprsWithoutSpans arguments)
  | .unary op operand => .unary op operand.withoutSpans
  | .binary op left right => .binary op left.withoutSpans right.withoutSpans
  | .logical op left right => .logical op left.withoutSpans right.withoutSpans
  | .conditional test yes no => .conditional test.withoutSpans yes.withoutSpans no.withoutSpans
  | .element element => .element element.withoutSpans
  | .quoted value => .quoted value
  | .template value => .template value
  | .number text => .number text
  | .boolean value => .boolean value
  | .null => .null
  | .name name => .name name

def exprsWithoutSpans : List Expr → List Expr
  | [] => []
  | expr :: others => expr.withoutSpans :: exprsWithoutSpans others

end

/-- A document with all spans set to nought. -/
def Document.withoutSpans (document : Document) : Document :=
  ⟨document.elements.map Element.withoutSpans⟩

/-! ### The printer -/

/-- What is printed where a tree keeps only the place of a text. -/
structure Filler where
  prose : Span → String
  /-- What follows the dots of a spread. -/
  spread : Span → List Token
  /-- A token that no expression covers. -/
  other : Span → Token
  spread_balanced (span : Span) : Balanced (spread span)
  other_not_brace (span : Span) : (other span).isBrace = false
  other_not_literal (span : Span) : literal? (other span) = none

def UnaryOp.token : UnaryOp → Token
  | not => .bang
  | negate => .minus
  | plus => .plus

def BinaryOp.token : BinaryOp → Token
  | add => .plus
  | subtract => .minus
  | other text => .operator text

def LogicalOp.token : LogicalOp → Token
  | and => .and
  | or => .or
  | coalesce => .coalesce

def BinaryOp.level : BinaryOp → Level
  | add | subtract => .sum
  | other _ => .comparison

def LogicalOp.level : LogicalOp → Level
  | and => .conjunction
  | or | coalesce => .disjunction

/-- The tightest level at which an expression can stand as it is. -/
def Expr.level : Expr → Level
  | .member _ _ | .call _ _ => .suffixed
  | .unary _ _ => .prefixed
  | .binary op _ _ => op.level
  | .logical op _ _ => op.level
  | .conditional _ _ _ => .full
  | .quoted _ | .template _ | .number _ | .boolean _ | .null | .name _ | .element _ => .primary

/-- The tokens of an expression of level `inner` in a place for `outer`: in parentheses if the
expression is too loose for the place. -/
def fitted (outer inner : Level) (ts : List Token) : List Token :=
  if inner.rank ≤ outer.rank then ts else .openParen :: (ts ++ [.closeParen])

section Printer

variable (f : Filler)

mutual

/-- The tokens of an element, and so for the parts of which elements are made. -/
def Element.tokens : Element → List Token
  | .single tag => tag.tokens ++ [.slash, .greater]
  | .pair tag children _ =>
      tag.tokens ++ .greater ::
        (childrenTokens children ++ .less :: .slash :: (tag.name.tokens ++ [.greater]))

/-- A tag up to its end, which depends on whether the tag closes itself. -/
def Tag.tokens : Tag → List Token
  | ⟨name, items, _⟩ => .less :: (name.tokens ++ itemsTokens items)

def itemsTokens : List TagItem → List Token
  | [] => []
  | item :: others => item.tokens ++ itemsTokens others

def TagItem.tokens : TagItem → List Token
  | .plain attr => attr.tokens
  | .spread span => .openBrace :: .spread :: (f.spread span ++ [.closeBrace])

def Attribute.tokens : Attribute → List Token
  | ⟨none, name, value, _⟩ => .word name :: valueTokens value
  | ⟨some space, name, value, _⟩ => .word space :: .colon :: .word name :: valueTokens value

def valueTokens : Option AttributeValue → List Token
  | none => []
  | some value => .equals :: value.tokens

def AttributeValue.tokens : AttributeValue → List Token
  | .quoted value _ => [.quoted value]
  | .braced container => container.tokens

def Container.tokens : Container → List Token
  | ⟨.empty, _⟩ => [.openBrace, .closeBrace]
  | ⟨.expr expr, _⟩ => .openBrace :: (expr.tokens ++ [.closeBrace])
  | ⟨.other, span⟩ => [.openBrace, f.other span, .closeBrace]

def childrenTokens : List Child → List Token
  | [] => []
  | child :: others => child.tokens ++ childrenTokens others

def Child.tokens : Child → List Token
  | .prose span => [.prose (f.prose span)]
  | .element element => element.tokens
  | .braced container => container.tokens

def Expr.tokens : Expr → List Token
  | .quoted value => [.quoted value]
  | .template value => [.template value]
  | .number text => [.number text]
  | .boolean value => [.boolean value]
  | .null => [.null]
  | .name name => [.word name]
  | .member object property =>
      fitted .suffixed object.level object.tokens ++ [.dot, .word property]
  | .call callee arguments =>
      fitted .suffixed callee.level callee.tokens ++
        .openParen :: (argumentsTokens arguments ++ [.closeParen])
  | .unary op operand => op.token :: fitted .prefixed operand.level operand.tokens
  | .binary op left right =>
      fitted op.level left.level left.tokens ++
        op.token :: fitted op.level.tighter right.level right.tokens
  | .logical op left right =>
      fitted op.level left.level left.tokens ++
        op.token :: fitted op.level.tighter right.level right.tokens
  | .conditional test yes no =>
      fitted .disjunction test.level test.tokens ++
        .question :: (yes.tokens ++ .colon :: no.tokens)
  | .element element => element.tokens

def argumentsTokens : List Expr → List Token
  | [] => []
  | first :: others => first.tokens ++ furtherTokens others

def furtherTokens : List Expr → List Token
  | [] => []
  | expr :: others => .comma :: (expr.tokens ++ furtherTokens others)

end

/-- The tokens of a document. -/
def Document.tokens (document : Document) : List Token :=
  document.elements.flatMap fun element => element.tokens f

end Printer

/-! ### Well-formed documents -/

/-- Whether the tags of an element can be written: names hold together, a tag that closes itself has
one, and the attributes of a tag without a name begin with a spread. -/
def Element.IsProper : Element → Prop
  | .single tag => tag.name.IsProper ∧ tag.name ≠ .fragment
  | .pair tag _ _ => tag.name.IsProper ∧ (tag.name = .fragment → startsPlain tag.items = false)

instance : DecidablePred Name.IsProper
  | .member parts => inferInstanceAs (Decidable (2 ≤ parts.length))
  | .plain _ => inferInstanceAs (Decidable True)
  | .namespaced _ _ => inferInstanceAs (Decidable True)
  | .fragment => inferInstanceAs (Decidable True)

instance : DecidablePred Element.IsProper
  | .single tag => inferInstanceAs (Decidable (tag.name.IsProper ∧ tag.name ≠ .fragment))
  | .pair tag _ _ => inferInstanceAs
      (Decidable (tag.name.IsProper ∧ (tag.name = .fragment → startsPlain tag.items = false)))

/-- Whether all elements that a walk enters are proper. -/
def ProperWalk (events : List Event) : Prop :=
  ∀ element, .enter element ∈ events → element.IsProper

/-- Whether all elements of a document, at any depth, are proper. -/
def Document.IsWellFormed (document : Document) : Prop :=
  ∀ element ∈ document.entered, element.IsProper

instance : DecidablePred Document.IsWellFormed := fun document =>
  inferInstanceAs (Decidable (∀ element ∈ document.entered, element.IsProper))

@[simp] theorem properWalk_append {events others : List Event} :
    ProperWalk (events ++ others) ↔ ProperWalk events ∧ ProperWalk others := by
  simp only [ProperWalk, List.mem_append, or_imp, forall_and]

theorem properWalk_enter {element : Element} {events : List Event} :
    ProperWalk (.enter element :: (events ++ [.leave element])) ↔
      element.IsProper ∧ ProperWalk events := by
  simp only [ProperWalk, List.mem_cons, List.mem_append, List.not_mem_nil, or_false, reduceCtorEq,
    Event.enter.injEq, or_imp, forall_and, forall_eq]

/-! ### Levels of what is printed -/

theorem BinaryOp.join?_token (op : BinaryOp) : op.level.join? op.token = some (.binary op) := by
  cases op <;> rfl

theorem LogicalOp.join?_token (op : LogicalOp) : op.level.join? op.token = some (.logical op) := by
  cases op <;> rfl

theorem UnaryOp.unaryOp?_token (op : UnaryOp) : unaryOp? op.token = some op := by
  cases op <;> rfl

theorem Level.eq_or_rank_le_tighter {level outer : Level} (h : level.rank ≤ outer.rank) :
    level = outer ∨ level.rank ≤ outer.tighter.rank ∧ outer.tighter.rank < outer.rank := by
  cases level <;> cases outer <;> revert h <;> decide

/-- What is written at a level is written at every looser one. -/
theorem Written.loosen {skip : List Lexeme → Prop} {ts : List Lexeme} {level outer : Level}
    {e : Expr} (h : Written skip ts (.expr level e)) (hle : level.rank ≤ outer.rank) :
    Written skip ts (.expr outer e) := by
  induction hrank : outer.rank using Nat.strongRecOn generalizing outer with
  | ind rank ih =>
      rcases Level.eq_or_rank_le_tighter hle with rfl | ⟨hle', hlt⟩
      · exact h
      · exact .tighter (ih _ (hrank ▸ hlt) hle' rfl)

theorem Level.rank_le_full (level : Level) : level.rank ≤ full.rank := by
  cases level <;> decide

theorem spells_fitted {outer inner : Level} {toks : List Token} {e : Expr} {ts : List Lexeme}
    (hts : ts.map Lexeme.token = fitted outer inner toks)
    (h : ∀ us : List Lexeme, us.map Lexeme.token = toks →
      ∃ e', Spells us (.expr inner e') ∧ e'.withoutSpans = e.withoutSpans) :
    ∃ e', Spells ts (.expr outer e') ∧ e'.withoutSpans = e.withoutSpans := by
  unfold fitted at hts
  split at hts
  · next hle =>
      obtain ⟨e', he', heq⟩ := h ts hts
      exact ⟨e', he'.loosen hle, heq⟩
  · -- in parentheses every expression is an operand
    obtain ⟨left, _, rfl, hts'⟩ := lexemes_cons hts
    obtain ⟨us, _, rfl, hus, hright⟩ := List.map_eq_append_iff.1 hts'
    obtain ⟨right, rfl⟩ := lexemes_single hright
    obtain ⟨e', he', heq⟩ := h us hus
    exact ⟨e', (Written.grouped (he'.loosen inner.rank_le_full)).loosen (Nat.zero_le _), heq⟩

theorem Written.length_pos {skip : List Lexeme → Prop} {ts : List Lexeme} {level : Level} {e : Expr}
    (h : Written skip ts (.expr level e)) : 0 < ts.length := by
  cases ts with
  | nil => cases h.starts
  | cons t ts => simp

/-- A single token is no expression unless it is a literal or a name. -/
theorem Written.literal?_of_single {skip : List Lexeme → Prop} {t : Lexeme} {level : Level}
    {e : Expr} (h : Written skip [t] (.expr level e)) : literal? t.token ≠ none := by
  generalize hphrase : Phrase.expr level e = phrase at h
  generalize hts : [t] = ts at h
  have hlength := congrArg List.length hts
  induction h generalizing level e with
  | literal h =>
      obtain ⟨rfl, -⟩ := List.cons.inj hts
      simp [h]
  | tighter _ ih =>
      cases hphrase
      exact ih rfl hts hlength
  | unary _ h _ | member h _ | call h _ _ _ | joined _ h _ _ _ | conditional h _ _ _ _ _ =>
      have hpos := h.length_pos
      simp only [List.length_append, List.length_cons, List.length_nil] at hlength
      omega
  | nested h _ => cases h <;> simp at hlength
  | grouped => simp at hlength
  | _ => cases hphrase

/-- Two operands and the operator between them, each operand in a place of its own. -/
theorem spells_joined {level inner inner' : Level} {t : Token} {build : Expr → Expr → Expr}
    (hop : level.join? t = some build)
    (hbuild : ∀ left right : Expr, (build left right).withoutSpans =
      build left.withoutSpans right.withoutSpans)
    {toks toks' : List Token} {left right : Expr} {ts : List Lexeme}
    (hts : ts.map Lexeme.token =
      fitted level inner toks ++ t :: fitted level.tighter inner' toks')
    (hleft : ∀ us : List Lexeme, us.map Lexeme.token = toks →
      ∃ e, Spells us (.expr inner e) ∧ e.withoutSpans = left.withoutSpans)
    (hright : ∀ us : List Lexeme, us.map Lexeme.token = toks' →
      ∃ e, Spells us (.expr inner' e) ∧ e.withoutSpans = right.withoutSpans) :
    ∃ e, Spells ts (.expr level e) ∧ e.withoutSpans = (build left right).withoutSpans := by
  obtain ⟨us, _, rfl, hus, hop'⟩ := List.map_eq_append_iff.1 hts
  obtain ⟨span, vs, rfl, hvs⟩ := lexemes_cons hop'
  obtain ⟨left', hus', heq⟩ := spells_fitted hus hleft
  obtain ⟨right', hvs', heq'⟩ := spells_fitted hvs hright
  exact ⟨build left' right', .joined hop hus' hvs', by rw [hbuild, hbuild, heq, heq']⟩

/-! ### What is printed is spelled -/

theorem Attribute.withoutSpans_eq (space : Option String) (name : String)
    (value : Option AttributeValue) (span : Span) :
    Attribute.withoutSpans ⟨space, name, value, span⟩ =
      ⟨space, name, value.map AttributeValue.withoutSpans, ⟨0, 0⟩⟩ := by
  cases value <;> rfl

theorem startsPlain_withoutSpans (items : List TagItem) :
    startsPlain (itemsWithoutSpans items) = startsPlain items := by
  cases items with
  | nil => rfl
  | cons item others => cases item <;> rfl

mutual

theorem Expr.spelled (f : Filler) : ∀ (e : Expr) (ts : List Lexeme), ProperWalk e.events →
    ts.map Lexeme.token = e.tokens f →
      ∃ e', Spells ts (.expr e.level e') ∧ e'.withoutSpans = e.withoutSpans
  | .quoted _ | .template _ | .number _ | .boolean _ | .null | .name _ => by
      intro ts _ hts
      obtain ⟨span, rfl⟩ := lexemes_single hts
      exact ⟨_, .literal rfl, rfl⟩
  | .element e => by
      intro ts h hts
      obtain ⟨e', he', heq⟩ := e.spelled f ts h hts
      exact ⟨_, .nested he', by simp [Expr.withoutSpans, heq]⟩
  | .member object property => by
      intro ts h hts
      obtain ⟨us, _, rfl, hus, hdot⟩ := List.map_eq_append_iff.1 hts
      obtain ⟨dot, _, rfl, hname⟩ := lexemes_cons hdot
      obtain ⟨span, rfl⟩ := lexemes_single hname
      obtain ⟨object', hus', heq⟩ := spells_fitted hus fun vs => object.spelled f vs h
      exact ⟨_, .member hus', by simp [Expr.withoutSpans, heq]⟩
  | .call callee all => by
      intro ts h hts
      obtain ⟨hcallee, hall⟩ := properWalk_append.1 h
      obtain ⟨us, _, rfl, hus, hopen⟩ := List.map_eq_append_iff.1 hts
      obtain ⟨left, _, rfl, hinside⟩ := lexemes_cons hopen
      obtain ⟨vs, _, rfl, hvs, hclose⟩ := List.map_eq_append_iff.1 hinside
      obtain ⟨right, rfl⟩ := lexemes_single hclose
      obtain ⟨callee', hus', heq⟩ := spells_fitted hus fun ws => callee.spelled f ws hcallee
      obtain ⟨all', hvs', heq'⟩ := arguments_spelled f all vs hall hvs
      exact ⟨_, .call hus' hvs', by simp [Expr.withoutSpans, heq, heq']⟩
  | .unary op operand => by
      intro ts h hts
      obtain ⟨span, us, rfl, hus⟩ := lexemes_cons hts
      obtain ⟨operand', hus', heq⟩ := spells_fitted hus fun vs => operand.spelled f vs h
      exact ⟨_, .unary op.unaryOp?_token hus', by simp [Expr.withoutSpans, heq]⟩
  | .binary op left right => by
      intro ts h hts
      obtain ⟨hleft, hright⟩ := properWalk_append.1 h
      have hbuild : ∀ l r : Expr, (Expr.binary op l r).withoutSpans =
          .binary op l.withoutSpans r.withoutSpans := fun _ _ => rfl
      exact spells_joined op.join?_token hbuild hts (fun us => left.spelled f us hleft)
        fun us => right.spelled f us hright
  | .logical op left right => by
      intro ts h hts
      obtain ⟨hleft, hright⟩ := properWalk_append.1 h
      have hbuild : ∀ l r : Expr, (Expr.logical op l r).withoutSpans =
          .logical op l.withoutSpans r.withoutSpans := fun _ _ => rfl
      exact spells_joined op.join?_token hbuild hts (fun us => left.spelled f us hleft)
        fun us => right.spelled f us hright
  | .conditional test yes no => by
      intro ts h hts
      obtain ⟨hboth, hno⟩ := properWalk_append.1 h
      obtain ⟨htest, hyes⟩ := properWalk_append.1 hboth
      obtain ⟨us, _, rfl, hus, hbranches⟩ := List.map_eq_append_iff.1 hts
      obtain ⟨question, _, rfl, hbranches'⟩ := lexemes_cons hbranches
      obtain ⟨vs, _, rfl, hvs, hcolon⟩ := List.map_eq_append_iff.1 hbranches'
      obtain ⟨colon, ws, rfl, hws⟩ := lexemes_cons hcolon
      obtain ⟨test', hus', heq⟩ := spells_fitted hus fun xs => test.spelled f xs htest
      obtain ⟨yes', hvs', heq'⟩ := yes.spelled f vs hyes hvs
      obtain ⟨no', hws', heq''⟩ := no.spelled f ws hno hws
      exact ⟨_, .conditional hus' (hvs'.loosen yes.level.rank_le_full)
        (hws'.loosen no.level.rank_le_full), by simp [Expr.withoutSpans, heq, heq', heq'']⟩

theorem arguments_spelled (f : Filler) : ∀ (es : List Expr) (ts : List Lexeme),
    ProperWalk (exprsEvents es) → ts.map Lexeme.token = argumentsTokens f es →
      ∃ es', Spells ts (.arguments es') ∧ exprsWithoutSpans es' = exprsWithoutSpans es
  | [] => by
      intro ts _ hts
      obtain rfl := List.map_eq_nil_iff.1 hts
      exact ⟨_, .noArguments, rfl⟩
  | e :: others => by
      intro ts h hts
      obtain ⟨he, hothers⟩ := properWalk_append.1 h
      obtain ⟨us, vs, rfl, hus, hvs⟩ := List.map_eq_append_iff.1 hts
      obtain ⟨e', hus', heq⟩ := e.spelled f us he hus
      obtain ⟨others', hvs', heq'⟩ := furtherArguments_spelled f others vs hothers hvs
      exact ⟨_, .arguments (hus'.loosen e.level.rank_le_full) hvs',
        by simp [exprsWithoutSpans, heq, heq']⟩

theorem furtherArguments_spelled (f : Filler) : ∀ (es : List Expr) (ts : List Lexeme),
    ProperWalk (exprsEvents es) → ts.map Lexeme.token = furtherTokens f es →
      ∃ es', Spells ts (.furtherArguments es') ∧ exprsWithoutSpans es' = exprsWithoutSpans es
  | [] => by
      intro ts _ hts
      obtain rfl := List.map_eq_nil_iff.1 hts
      exact ⟨_, .lastArgument, rfl⟩
  | e :: others => by
      intro ts h hts
      obtain ⟨he, hothers⟩ := properWalk_append.1 h
      obtain ⟨comma, _, rfl, hts'⟩ := lexemes_cons hts
      obtain ⟨us, vs, rfl, hus, hvs⟩ := List.map_eq_append_iff.1 hts'
      obtain ⟨e', hus', heq⟩ := e.spelled f us he hus
      obtain ⟨others', hvs', heq'⟩ := furtherArguments_spelled f others vs hothers hvs
      exact ⟨_, .furtherArgument (hus'.loosen e.level.rank_le_full) hvs',
        by simp [exprsWithoutSpans, heq, heq']⟩

theorem Container.spelled (f : Filler) : ∀ (c : Container) (ts : List Lexeme),
    ProperWalk c.events → ts.map Lexeme.token = c.tokens f →
      ∃ c', Spells ts (.container c') ∧ c'.withoutSpans = c.withoutSpans
  | ⟨.empty, _⟩ => by
      intro ts _ hts
      obtain ⟨left, _, rfl, hts'⟩ := lexemes_cons hts
      obtain ⟨right, rfl⟩ := lexemes_single hts'
      exact ⟨_, .emptyBraces, rfl⟩
  | ⟨.expr e, _⟩ => by
      intro ts h hts
      obtain ⟨left, _, rfl, hinside⟩ := lexemes_cons hts
      obtain ⟨us, _, rfl, hus, hright⟩ := List.map_eq_append_iff.1 hinside
      obtain ⟨right, rfl⟩ := lexemes_single hright
      obtain ⟨e', hus', heq⟩ := e.spelled f us h hus
      exact ⟨_, .coveredBraces (hus'.loosen e.level.rank_le_full),
        by simp [Container.withoutSpans, Content.withoutSpans, heq]⟩
  | ⟨.other, span⟩ => by
      intro ts _ hts
      obtain ⟨left, _, rfl, hinside⟩ := lexemes_cons hts
      obtain ⟨inner, _, rfl, hright⟩ := lexemes_cons hinside
      obtain ⟨right, rfl⟩ := lexemes_single hright
      -- the token in the braces is no expression, so nothing but skipping it is left
      have hbalanced : Balanced [f.other span] := .single (f.other_not_brace span) .nil
      refine ⟨_, @Written.skippedBraces _ left right [⟨f.other span, inner⟩] (by simp) hbalanced ?_,
        rfl⟩
      rintro ⟨e, he⟩
      exact he.literal?_of_single (f.other_not_literal span)

theorem value_spelled (f : Filler) : ∀ (value : Option AttributeValue) (ts : List Lexeme),
    (∀ v ∈ value, ProperWalk v.events) → ts.map Lexeme.token = valueTokens f value →
      ∃ value', Spells ts (.value value') ∧
        value'.map AttributeValue.withoutSpans = value.map AttributeValue.withoutSpans
  | none => by
      intro ts _ hts
      obtain rfl := List.map_eq_nil_iff.1 hts
      exact ⟨_, .noValue, rfl⟩
  | some (.quoted value _) => by
      intro ts _ hts
      obtain ⟨equals, _, rfl, hts'⟩ := lexemes_cons hts
      obtain ⟨span, rfl⟩ := lexemes_single hts'
      exact ⟨_, .quotedValue, rfl⟩
  | some (.braced c) => by
      intro ts h hts
      obtain ⟨equals, us, rfl, hus⟩ := lexemes_cons hts
      obtain ⟨c', hus', heq⟩ := c.spelled f us (h _ rfl) hus
      exact ⟨_, .bracedValue hus', by simp [AttributeValue.withoutSpans, heq]⟩

theorem TagItem.spelled (f : Filler) : ∀ (item : TagItem) (ts : List Lexeme),
    ProperWalk item.events → ts.map Lexeme.token = item.tokens f →
      ∃ item', Spells ts (.item item') ∧ item'.withoutSpans = item.withoutSpans
  | .plain ⟨none, name, value, _⟩ => by
      intro ts h hts
      obtain ⟨span, us, rfl, hus⟩ := lexemes_cons hts
      obtain ⟨value', hus', heq⟩ := value_spelled f value us (by rintro v ⟨⟩; exact h) hus
      exact ⟨_, .plain hus', by simp [TagItem.withoutSpans, Attribute.withoutSpans_eq, heq]⟩
  | .plain ⟨some space, name, value, _⟩ => by
      intro ts h hts
      obtain ⟨first, _, rfl, hts'⟩ := lexemes_cons hts
      obtain ⟨colon, _, rfl, hts''⟩ := lexemes_cons hts'
      obtain ⟨second, us, rfl, hus⟩ := lexemes_cons hts''
      obtain ⟨value', hus', heq⟩ := value_spelled f value us (by rintro v ⟨⟩; exact h) hus
      exact ⟨_, .spaced hus', by simp [TagItem.withoutSpans, Attribute.withoutSpans_eq, heq]⟩
  | .spread span => by
      intro ts _ hts
      obtain ⟨left, _, rfl, hts'⟩ := lexemes_cons hts
      obtain ⟨dots, _, rfl, hts''⟩ := lexemes_cons hts'
      obtain ⟨us, _, rfl, hus, hright⟩ := List.map_eq_append_iff.1 hts''
      obtain ⟨right, rfl⟩ := lexemes_single hright
      exact ⟨_, .spread (hus ▸ f.spread_balanced span), rfl⟩

theorem items_spelled (f : Filler) : ∀ (items : List TagItem) (ts : List Lexeme),
    ProperWalk (itemsEvents items) → ts.map Lexeme.token = itemsTokens f items →
      ∃ items', Spells ts (.items items') ∧ itemsWithoutSpans items' = itemsWithoutSpans items
  | [] => by
      intro ts _ hts
      obtain rfl := List.map_eq_nil_iff.1 hts
      exact ⟨_, .noItems, rfl⟩
  | item :: others => by
      intro ts h hts
      obtain ⟨hitem, hothers⟩ := properWalk_append.1 h
      obtain ⟨us, vs, rfl, hus, hvs⟩ := List.map_eq_append_iff.1 hts
      obtain ⟨item', hus', heq⟩ := item.spelled f us hitem hus
      obtain ⟨others', hvs', heq'⟩ := items_spelled f others vs hothers hvs
      exact ⟨_, .items hus' hvs', by simp [itemsWithoutSpans, heq, heq']⟩

theorem Child.spelled (f : Filler) : ∀ (child : Child) (ts : List Lexeme),
    ProperWalk child.events → ts.map Lexeme.token = child.tokens f →
      ∃ child', Spells ts (.child child') ∧ child'.withoutSpans = child.withoutSpans
  | .prose _ => by
      intro ts _ hts
      obtain ⟨span, rfl⟩ := lexemes_single hts
      exact ⟨_, .prose, rfl⟩
  | .element e => by
      intro ts h hts
      obtain ⟨e', he', heq⟩ := e.spelled f ts h hts
      exact ⟨_, .elementChild he', by simp [Child.withoutSpans, heq]⟩
  | .braced c => by
      intro ts h hts
      obtain ⟨c', hc', heq⟩ := c.spelled f ts h hts
      exact ⟨_, .bracedChild hc', by simp [Child.withoutSpans, heq]⟩

theorem children_spelled (f : Filler) : ∀ (children : List Child) (ts : List Lexeme),
    ProperWalk (childrenEvents children) → ts.map Lexeme.token = childrenTokens f children →
      ∃ children', Spells ts (.children children') ∧
        childrenWithoutSpans children' = childrenWithoutSpans children
  | [] => by
      intro ts _ hts
      obtain rfl := List.map_eq_nil_iff.1 hts
      exact ⟨_, .noChildren, rfl⟩
  | child :: others => by
      intro ts h hts
      obtain ⟨hchild, hothers⟩ := properWalk_append.1 h
      obtain ⟨us, vs, rfl, hus, hvs⟩ := List.map_eq_append_iff.1 hts
      obtain ⟨child', hus', heq⟩ := child.spelled f us hchild hus
      obtain ⟨others', hvs', heq'⟩ := children_spelled f others vs hothers hvs
      exact ⟨_, .children hus' hvs', by simp [childrenWithoutSpans, heq, heq']⟩

theorem Element.spelled (f : Filler) : ∀ (e : Element) (ts : List Lexeme),
    ProperWalk e.events → ts.map Lexeme.token = e.tokens f →
      ∃ e', Spells ts (.element e') ∧ e'.withoutSpans = e.withoutSpans
  | .single ⟨name, items, _⟩ => by
      intro ts h hts
      obtain ⟨⟨hproper, hname⟩, hitems⟩ := properWalk_enter.1 h
      obtain ⟨_, _, rfl, hopen, hclose⟩ := List.map_eq_append_iff.1 hts
      obtain ⟨left, _, rfl, hopen'⟩ := lexemes_cons hopen
      obtain ⟨names, us, rfl, hnames, hus⟩ := List.map_eq_append_iff.1 hopen'
      obtain ⟨slash, _, rfl, hclose'⟩ := lexemes_cons hclose
      obtain ⟨right, rfl⟩ := lexemes_single hclose'
      obtain ⟨items', hus', heq⟩ := items_spelled f items us hitems hus
      have hsingle := @Written.single _ left slash right _ _ _ _ hproper hname hnames hus'
      rw [List.cons_append, List.append_assoc]
      exact ⟨_, hsingle, by simp [Element.withoutSpans, Tag.withoutSpans, heq]⟩
  | .pair ⟨name, items, _⟩ children _ => by
      intro ts h hts
      obtain ⟨⟨hproper, hplain⟩, hinside⟩ := properWalk_enter.1 h
      obtain ⟨hitems, hchildren⟩ := properWalk_append.1 hinside
      obtain ⟨_, _, rfl, hopen, hrest⟩ := List.map_eq_append_iff.1 hts
      obtain ⟨left, _, rfl, hopen'⟩ := lexemes_cons hopen
      obtain ⟨names, us, rfl, hnames, hus⟩ := List.map_eq_append_iff.1 hopen'
      obtain ⟨right, _, rfl, hrest'⟩ := lexemes_cons hrest
      obtain ⟨vs, _, rfl, hvs, hclosing⟩ := List.map_eq_append_iff.1 hrest'
      obtain ⟨left', _, rfl, hclosing'⟩ := lexemes_cons hclosing
      obtain ⟨slash, _, rfl, hclosing''⟩ := lexemes_cons hclosing'
      obtain ⟨names', _, rfl, hnames', hclose⟩ := List.map_eq_append_iff.1 hclosing''
      obtain ⟨right', rfl⟩ := lexemes_single hclose
      obtain ⟨items', hus', heq⟩ := items_spelled f items us hitems hus
      obtain ⟨children', hvs', heq'⟩ := children_spelled f children vs hchildren hvs
      -- what is read has the attributes of what is printed, up to spans
      have hplain' : name = .fragment → startsPlain items' = false := by
        intro hfragment
        rw [← startsPlain_withoutSpans, heq, startsPlain_withoutSpans]
        exact hplain hfragment
      have hpair := @Written.pair _ left right left' slash right' _ _ _ _ _ _ _ hproper hplain'
        hnames hus' hvs' hnames'
      rw [List.cons_append, List.append_assoc]
      exact ⟨_, hpair, by simp [Element.withoutSpans, Tag.withoutSpans, heq, heq']⟩

end

theorem elements_spelled (f : Filler) (elements : List Element) (ts : List Lexeme)
    (h : ProperWalk (elements.flatMap Element.events))
    (hts : ts.map Lexeme.token = elements.flatMap fun element => element.tokens f) :
    ∃ elements', Spells ts (.elements elements') ∧
      elements'.map Element.withoutSpans = elements.map Element.withoutSpans := by
  induction elements generalizing ts with
  | nil =>
      obtain rfl := List.map_eq_nil_iff.1 hts
      exact ⟨_, .noElements, rfl⟩
  | cons element others ih =>
      rw [List.flatMap_cons] at h hts
      obtain ⟨helement, hothers⟩ := properWalk_append.1 h
      obtain ⟨us, vs, rfl, hus, hvs⟩ := List.map_eq_append_iff.1 hts
      obtain ⟨element', hus', heq⟩ := element.spelled f us helement hus
      obtain ⟨others', hvs', heq'⟩ := ih vs hothers hvs
      exact ⟨_, .elements hus' hvs', by simp [heq, heq']⟩

theorem Document.properWalk_of_isWellFormed (d : Document) (h : d.IsWellFormed) :
    ProperWalk d.events := by
  intro element hmem
  refine h element ?_
  rw [entered, List.mem_filterMap]
  exact ⟨_, hmem, rfl⟩

/-- Reading what is printed for a well-formed document returns it, up to spans. -/
theorem ofLexemes_tokens (f : Filler) (d : Document) (h : d.IsWellFormed) (ts : List Lexeme)
    (hts : ts.map Lexeme.token = d.tokens f) (source : String) :
    ∃ d', Document.ofLexemes ts source = .ok d' ∧ d'.withoutSpans = d.withoutSpans := by
  obtain ⟨elements, hspells, heq⟩ :=
    elements_spelled f d.elements ts (d.properWalk_of_isWellFormed h) hts
  refine ⟨⟨elements⟩, ofLexemes_eq_ok_iff.2 (reads_document_of_spells hspells), ?_⟩
  rw [Document.withoutSpans, Document.withoutSpans, heq]

/-- A component with a spread, an attribute whose value needs parentheses, and a fragment in it. -/
def printingSample : Document :=
  let operand := Expr.conditional (.name "a") (.number "1") (.number "2")
  let value := Expr.logical .coalesce (.member operand "b")
    (.binary .subtract (.name "c") (.binary .add (.unary .not (.name "d")) (.null)))
  ⟨[.pair ⟨.member ["Tabs", "List"],
      [.spread ⟨0, 0⟩, .plain ⟨none, "role", some (.braced ⟨.expr value, ⟨0, 0⟩⟩), ⟨0, 0⟩⟩], ⟨0, 0⟩⟩
    [.prose ⟨0, 0⟩, .braced ⟨.other, ⟨0, 0⟩⟩,
      .element (.pair ⟨.fragment, [], ⟨0, 0⟩⟩ [.braced ⟨.empty, ⟨0, 0⟩⟩] ⟨0, 0⟩)] ⟨0, 0⟩]⟩

/-- Fills in a word for a prose and for what is spread, and a semicolon elsewhere. -/
def printingFiller : Filler where
  prose _ := "text"
  spread _ := [.word "props"]
  other _ := .semicolon
  spread_balanced _ := .single rfl .nil
  other_not_brace _ := rfl
  other_not_literal _ := rfl

theorem ofLexemes_tokens_sample :
    printingSample.IsWellFormed ∧ ∃ d', Document.ofLexemes
      ((printingSample.tokens printingFiller).map fun t => ⟨t, ⟨0, 0⟩⟩) "" = .ok d' ∧
        d'.withoutSpans = printingSample.withoutSpans := by
  have hproper : printingSample.IsWellFormed := by decide
  exact ⟨hproper, ofLexemes_tokens printingFiller printingSample hproper _ rfl ""⟩

end RoleAudit.Markup
