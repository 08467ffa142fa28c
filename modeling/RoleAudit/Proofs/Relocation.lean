import RoleAudit.Proofs.Relexing
import RoleAudit.Proofs.Spelling
import RoleAudit.Proofs.Offences

/-!
# Trees elsewhere

A tree says where its parts stand, and nothing else in it depends on that.  If all lexemes are put
elsewhere, they write the same tree, put elsewhere in the same way; and the trees that are nested in
it, the order in which they are entered and what the rule on roles says about each of them stay the
same.

Main statements: `Written.relocate`, `Spells.relocate`, `enteredOf_walk_relocate` and
`offences_relocate`.
-/

namespace RoleAudit.Markup

open RoleAudit.Text (Span)
open Reader Grammar

/-! ### Spans elsewhere -/

mutual

/-- An element with the ends of all spans in it put elsewhere, and so for the parts of which
elements are made. -/
def Element.relocate (f : Nat → Nat) : Element → Element
  | .single tag => .single (tag.relocate f)
  | .pair tag children closing =>
      .pair (tag.relocate f) (relocateChildren f children) (closing.relocate f)

def Tag.relocate (f : Nat → Nat) : Tag → Tag
  | ⟨name, items, span⟩ => ⟨name, relocateItems f items, span.relocate f⟩

def relocateItems (f : Nat → Nat) : List TagItem → List TagItem
  | [] => []
  | item :: others => item.relocate f :: relocateItems f others

def TagItem.relocate (f : Nat → Nat) : TagItem → TagItem
  | .plain attr => .plain (attr.relocate f)
  | .spread span => .spread (span.relocate f)

def Attribute.relocate (f : Nat → Nat) : Attribute → Attribute
  | ⟨space, name, some value, span⟩ => ⟨space, name, some (value.relocate f), span.relocate f⟩
  | ⟨space, name, none, span⟩ => ⟨space, name, none, span.relocate f⟩

def AttributeValue.relocate (f : Nat → Nat) : AttributeValue → AttributeValue
  | .quoted value span => .quoted value (span.relocate f)
  | .braced container => .braced (container.relocate f)

def Container.relocate (f : Nat → Nat) : Container → Container
  | ⟨content, span⟩ => ⟨content.relocate f, span.relocate f⟩

def Content.relocate (f : Nat → Nat) : Content → Content
  | .empty => .empty
  | .expr expr => .expr (expr.relocate f)
  | .other => .other

def relocateChildren (f : Nat → Nat) : List Child → List Child
  | [] => []
  | child :: others => child.relocate f :: relocateChildren f others

def Child.relocate (f : Nat → Nat) : Child → Child
  | .prose span => .prose (span.relocate f)
  | .element element => .element (element.relocate f)
  | .braced container => .braced (container.relocate f)

def Expr.relocate (f : Nat → Nat) : Expr → Expr
  | .member object property => .member (object.relocate f) property
  | .call callee arguments => .call (callee.relocate f) (relocateExprs f arguments)
  | .unary op operand => .unary op (operand.relocate f)
  | .binary op left right => .binary op (left.relocate f) (right.relocate f)
  | .logical op left right => .logical op (left.relocate f) (right.relocate f)
  | .conditional test yes no => .conditional (test.relocate f) (yes.relocate f) (no.relocate f)
  | .element element => .element (element.relocate f)
  | .quoted value => .quoted value
  | .template value => .template value
  | .number text => .number text
  | .boolean value => .boolean value
  | .null => .null
  | .name name => .name name

def relocateExprs (f : Nat → Nat) : List Expr → List Expr
  | [] => []
  | expr :: others => expr.relocate f :: relocateExprs f others

end

attribute [simp] Element.relocate Tag.relocate TagItem.relocate Container.relocate Content.relocate
  Child.relocate Expr.relocate

variable {f : Nat → Nat}

@[simp] theorem relocateItems_eq (items : List TagItem) :
    relocateItems f items = items.map (TagItem.relocate f) := by
  induction items with
  | nil => rfl
  | cons item others ih => rw [relocateItems, ih, List.map_cons]

@[simp] theorem relocateChildren_eq (children : List Child) :
    relocateChildren f children = children.map (Child.relocate f) := by
  induction children with
  | nil => rfl
  | cons child others ih => rw [relocateChildren, ih, List.map_cons]

@[simp] theorem relocateExprs_eq (exprs : List Expr) :
    relocateExprs f exprs = exprs.map (Expr.relocate f) := by
  induction exprs with
  | nil => rfl
  | cons expr others ih => rw [relocateExprs, ih, List.map_cons]

@[simp] theorem Attribute.relocate_eq (space : Option String) (name : String)
    (value : Option AttributeValue) (span : Span) :
    Attribute.relocate f ⟨space, name, value, span⟩ =
      ⟨space, name, value.map (AttributeValue.relocate f), span.relocate f⟩ := by
  cases value <;> rfl

@[simp] theorem Attribute.relocate_span (attr : Attribute) :
    (attr.relocate f).span = attr.span.relocate f := by
  obtain ⟨space, name, value, span⟩ := attr
  rw [relocate_eq]

@[simp] theorem AttributeValue.relocate_span (value : AttributeValue) :
    (value.relocate f).span = value.span.relocate f := by
  cases value with
  | quoted value span => rfl
  | braced container => obtain ⟨content, span⟩ := container; rfl

theorem Element.relocate_tag (e : Element) : (e.relocate f).tag = e.tag.relocate f := by
  cases e <;> simp [tag]

theorem startsPlain_relocate (items : List TagItem) :
    startsPlain (items.map (TagItem.relocate f)) = startsPlain items := by
  cases items with
  | nil => rfl
  | cons item others => cases item <;> rfl

theorem relocate_of_literal? {t : Token} {e : Expr} (h : literal? t = some e) :
    e.relocate f = e := by
  cases t <;> cases h <;> rfl

theorem relocate_of_join? {level : Level} {t : Token} {build : Expr → Expr → Expr}
    (h : level.join? t = some build) (left right : Expr) :
    (build left right).relocate f = build (left.relocate f) (right.relocate f) := by
  cases level with
  | primary | suffixed | prefixed | full => cases h
  | sum | comparison | conjunction | disjunction => cases t <;> cases h <;> rfl

/-! ### What lexemes write elsewhere -/

/-- A phrase with the ends of all spans in it put elsewhere. -/
@[simp] def Phrase.relocate (f : Nat → Nat) : Phrase → Phrase
  | .expr level e => .expr level (e.relocate f)
  | .arguments es => .arguments (es.map (Expr.relocate f))
  | .furtherArguments es => .furtherArguments (es.map (Expr.relocate f))
  | .container c => .container (c.relocate f)
  | .value v => .value (v.map (AttributeValue.relocate f))
  | .item i => .item (i.relocate f)
  | .items is => .items (is.map (TagItem.relocate f))
  | .child c => .child (c.relocate f)
  | .children cs => .children (cs.map (Child.relocate f))
  | .element e => .element (e.relocate f)
  | .elements es => .elements (es.map (Element.relocate f))

/-- The end of an attribute moves with the end of its value. -/
theorem relocate_stop (value : Option AttributeValue) (start stop : Nat) :
    Span.relocate f ⟨start, (value.map fun v => v.span.stop).getD stop⟩ = ⟨f start,
      ((value.map (AttributeValue.relocate f)).map fun v => v.span.stop).getD (f stop)⟩ := by
  cases value <;> simp

/-- Lexemes elsewhere write the same phrase elsewhere. -/
theorem Written.relocate {skip skip' : List Lexeme → Prop}
    (hskip : ∀ ts, skip ts → skip' (ts.map (Lexeme.relocate f))) {ts : List Lexeme}
    {phrase : Phrase} (h : Written skip ts phrase) :
    Written skip' (ts.map (Lexeme.relocate f)) (phrase.relocate f) := by
  induction h with
  | literal h =>
      rw [Phrase.relocate, relocate_of_literal? h]
      exact .literal h
  | grouped _ ih => simpa using Written.grouped ih
  | nested _ ih => exact .nested ih
  | member _ ih => simpa using Written.member ih
  | call _ _ ih ih' => simpa using Written.call ih ih'
  | unary hop _ ih => exact .unary hop ih
  | joined hop _ _ ih ih' =>
      rw [Phrase.relocate, relocate_of_join? hop]
      simpa using Written.joined hop ih ih'
  | conditional _ _ _ ih ih' ih'' => simpa using Written.conditional ih ih' ih''
  | tighter _ ih => exact .tighter ih
  | noArguments => exact .noArguments
  | arguments _ _ ih ih' => simpa using Written.arguments ih ih'
  | lastArgument => exact .lastArgument
  | trailingComma => exact .trailingComma
  | furtherArgument _ _ ih ih' => simpa using Written.furtherArgument ih ih'
  | emptyBraces => exact .emptyBraces
  | @coveredBraces left right _ _ _ ih =>
      simpa using @Written.coveredBraces _ (left.relocate f) (right.relocate f) _ _ ih
  | @skippedBraces left right inside hne hbalanced h =>
      simpa using @Written.skippedBraces _ (left.relocate f) (right.relocate f)
        (inside.map (Lexeme.relocate f)) (by simpa using hne) (by rwa [map_token_relocate])
        (hskip _ h)
  | noValue => exact .noValue
  | quotedValue => exact .quotedValue
  | bracedValue _ ih => exact .bracedValue ih
  | plain _ ih =>
      rw [Phrase.relocate, TagItem.relocate, Attribute.relocate_eq, relocate_stop]
      exact .plain ih
  | spaced _ ih =>
      rw [Phrase.relocate, TagItem.relocate, Attribute.relocate_eq, relocate_stop]
      exact .spaced ih
  | @spread left dots right inside hbalanced =>
      simpa using @Written.spread skip' (left.relocate f) (dots.relocate f) (right.relocate f)
        (inside.map (Lexeme.relocate f)) (by rwa [map_token_relocate])
  | noItems => exact .noItems
  | items _ _ ih ih' => simpa using Written.items ih ih'
  | prose => exact .prose
  | elementChild _ ih => exact .elementChild ih
  | bracedChild _ ih => exact .bracedChild ih
  | noChildren => exact .noChildren
  | children _ _ ih ih' => simpa using Written.children ih ih'
  | @single left slash right names _ name items hproper hne hname _ ih =>
      simpa using @Written.single _ (left.relocate f) (slash.relocate f) (right.relocate f)
        (names.map (Lexeme.relocate f)) _ name _ hproper hne (by rwa [map_token_relocate]) ih
  | @pair left right left' slash right' names _ _ names' name items children hproper hplain hname
      _ _ hclosing ih ih' =>
      simpa using @Written.pair _ (left.relocate f) (right.relocate f) (left'.relocate f)
        (slash.relocate f) (right'.relocate f) (names.map (Lexeme.relocate f)) _ _
        (names'.map (Lexeme.relocate f)) name _ _ hproper
        (fun h => by rw [startsPlain_relocate, hplain h]) (by rwa [map_token_relocate]) ih ih'
        (by rwa [map_token_relocate])
  | noElements => exact .noElements
  | elements _ _ ih ih' => simpa using Written.elements ih ih'

theorem Lexeme.relocate_relocate {g : Nat → Nat} (hinv : ∀ n, g (f n) = n) (ts : List Lexeme) :
    (ts.map (Lexeme.relocate f)).map (Lexeme.relocate g) = ts := by
  have hid : Lexeme.relocate g ∘ Lexeme.relocate f = id := by
    funext t
    obtain ⟨token, start, stop⟩ := t
    simp [Lexeme.relocate, Span.relocate, hinv]
  rw [List.map_map, hid, List.map_id]

theorem Written.derives_relocate (f : Nat → Nat) {skip : List Lexeme → Prop} {ts : List Lexeme}
    {phrase : Phrase} (h : Written skip ts phrase) :
    Derives (ts.map (Lexeme.relocate f)) (phrase.relocate f) :=
  h.relocate fun _ _ => trivial

/-- What is spelled is spelled elsewhere, if no two places become one. -/
theorem Spells.relocate {g : Nat → Nat} (hinv : ∀ n, g (f n) = n) {ts : List Lexeme}
    {phrase : Phrase} (h : Spells ts phrase) :
    Spells (ts.map (Lexeme.relocate f)) (phrase.relocate f) := by
  refine Written.relocate (fun inside hno hyes => hno ?_) h
  -- an expression elsewhere would be one here, put back
  obtain ⟨e, he⟩ := hyes
  have hback := he.derives_relocate g
  rw [Lexeme.relocate_relocate hinv] at hback
  exact ⟨_, hback⟩

/-! ### Elements in elements elsewhere -/

mutual

theorem Expr.elements_relocate : ∀ e : Expr,
    (e.relocate f).elements = e.elements.map (Element.relocate f)
  | .element e => by simp [Expr.elements]
  | .member object _ => by simp [Expr.elements, Expr.elements_relocate object]
  | .call callee arguments => by
      have harguments := exprsElements_relocate arguments
      simp [Expr.elements, Expr.elements_relocate callee, harguments]
  | .unary _ operand => by simp [Expr.elements, Expr.elements_relocate operand]
  | .binary _ left right | .logical _ left right => by
      simp [Expr.elements, Expr.elements_relocate left, Expr.elements_relocate right]
  | .conditional test yes no => by
      simp [Expr.elements, Expr.elements_relocate test, Expr.elements_relocate yes,
        Expr.elements_relocate no]
  | .quoted _ | .template _ | .number _ | .boolean _ | .null | .name _ => rfl

theorem exprsElements_relocate : ∀ es : List Expr,
    exprsElements (es.map (Expr.relocate f)) = (exprsElements es).map (Element.relocate f)
  | [] => rfl
  | e :: es => by simp [exprsElements, Expr.elements_relocate e, exprsElements_relocate es]

end

theorem Container.elements_relocate (c : Container) :
    (c.relocate f).elements = c.elements.map (Element.relocate f) := by
  obtain ⟨_ | e | _, span⟩ := c
  · rfl
  · exact e.elements_relocate
  · rfl

theorem TagItem.elements_relocate (item : TagItem) :
    (item.relocate f).elements = item.elements.map (Element.relocate f) := by
  match item with
  | .plain ⟨_, _, some (.braced c), _⟩ => exact c.elements_relocate
  | .plain ⟨_, _, some (.quoted _ _), _⟩ | .plain ⟨_, _, none, _⟩ | .spread _ => rfl

theorem Child.elements_relocate (child : Child) :
    (child.relocate f).elements = child.elements.map (Element.relocate f) := by
  cases child with
  | prose span => rfl
  | element e => rfl
  | braced c => exact c.elements_relocate

theorem Element.nested_relocate (e : Element) :
    (e.relocate f).nested = e.nested.map (Element.relocate f) := by
  have hitems : ∀ items : List TagItem,
      (items.map (TagItem.relocate f)).flatMap TagItem.elements =
        (items.flatMap TagItem.elements).map (Element.relocate f) := by
    intro items
    simp [List.flatMap_map, List.map_flatMap, TagItem.elements_relocate]
  have hchildren : ∀ children : List Child,
      (children.map (Child.relocate f)).flatMap Child.elements =
        (children.flatMap Child.elements).map (Element.relocate f) := by
    intro children
    simp [List.flatMap_map, List.map_flatMap, Child.elements_relocate]
  cases e with
  | single tag =>
      obtain ⟨name, items, span⟩ := tag
      simp [hitems]
  | pair tag children closing =>
      obtain ⟨name, items, span⟩ := tag
      simp [hitems, hchildren]

/-- Elements elsewhere are entered in the same order. -/
theorem enteredOf_walk_relocate (es : List Element) :
    enteredOf (walk (es.map (Element.relocate f))) =
      (enteredOf (walk es)).map (Element.relocate f) := by
  induction es using forest_induction with
  | nil => rfl
  | cons e es ih ih' =>
      rw [List.map_cons, enteredOf_walk_cons, enteredOf_walk_cons, e.nested_relocate, ih, ih']
      simp

end RoleAudit.Markup

namespace RoleAudit.Audit

open RoleAudit.Markup
open RoleAudit.Text (Span)

/-! ### Roles elsewhere -/

variable {f : Nat → Nat}

/-- The text of an expression does not depend on where the expression stands. -/
theorem staticText?_relocate (e : Expr) : staticText? (e.relocate f) = staticText? e := by
  fun_induction staticText? e with
  | case1 | case2 | case3 => simp_all [staticText?]
  | case4 left right ih ih' => simp [staticText?, ih, ih']
  | case5 e hquoted htemplate hadd =>
      unfold staticText?
      cases e <;> simp_all

theorem RoleValue.ofExpr_relocate (e : Expr) : ofExpr (e.relocate f) = ofExpr e := by
  have htext := staticText?_relocate (f := f) e
  cases e <;> first | rfl | simp_all [ofExpr]

theorem RoleValue.ofAttribute_relocate (attr : Attribute) :
    ofAttribute (some (attr.relocate f)) = ofAttribute (some attr) := by
  match attr with
  | ⟨_, _, none, _⟩ | ⟨_, _, some (.quoted _ _), _⟩ => rfl
  | ⟨_, _, some (.braced ⟨.empty, _⟩), _⟩ | ⟨_, _, some (.braced ⟨.other, _⟩), _⟩ => rfl
  | ⟨_, _, some (.braced ⟨.expr e, _⟩), _⟩ => exact ofExpr_relocate e

theorem attributes_relocate (tag : Tag) :
    (tag.relocate f).attributes = tag.attributes.map (Attribute.relocate f) := by
  obtain ⟨name, items, span⟩ := tag
  simp only [Tag.relocate, Tag.attributes, relocateItems_eq, List.filterMap_map, List.map_filterMap]
  congr 1
  funext item
  cases item <;> rfl

theorem attributeIgnoringCase?_relocate (tag : Tag) (name : String) :
    (tag.relocate f).attributeIgnoringCase? name =
      (tag.attributeIgnoringCase? name).map (Attribute.relocate f) := by
  rw [Tag.attributeIgnoringCase?, attributes_relocate, List.find?_map]
  congr 2
  funext attr
  obtain ⟨space, name, value, span⟩ := attr
  simp

namespace RoleRule

variable (r : RoleRule)

theorem offending?_relocate (tag : Tag) :
    r.offending? (tag.relocate f) = (r.offending? tag).map (Attribute.relocate f) := by
  have hname : (tag.relocate f).name = tag.name := by
    obtain ⟨name, items, span⟩ := tag
    rfl
  rw [offending?, offending?, hname, attributeIgnoringCase?_relocate]
  split
  · rfl
  · cases tag.attributeIgnoringCase? "role" with
    | none => rfl
    | some attr =>
        simp only [Option.map_some, Option.filter_some, RoleValue.ofAttribute_relocate]
        split <;> rfl

/-- Elements elsewhere break the rule by the same attributes. -/
theorem offences_relocate (es : List Element) : r.offences (es.map (Element.relocate f)) =
    (r.offences es).map fun offence => (offence.1.relocate f, offence.2.relocate f) := by
  simp only [offences, List.filterMap_map, List.map_filterMap]
  congr 1
  funext e
  simp only [Function.comp_apply, Element.relocate_tag, offending?_relocate, Option.map_map]
  rfl

end RoleRule

end RoleAudit.Audit
