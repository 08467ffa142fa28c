import RoleAudit.Markup.SyntaxError
import RoleAudit.Proofs.Forward

/-!
# The language of documents

Which token lists are documents, said without trees and without a reader.  The rules are those of
the grammar, with what decides between them made explicit: a tag that closes itself has a name; a
word after `<` belongs to the name, so that the first attribute of a tag without a name can only be
spread; the two tags of an element have the same name; and a pair of braces may hold any balanced
list.

Main statement: `ofLexemes_ok_iff_isDocument`.  A list of lexemes is parsed into a document exactly
if its tokens are a document.  No choice of the readers loses one: neither which of the two forms of
an element is tried first, nor that options and repetitions take as much as they can, nor that an
expression is preferred to a skipped group.
-/

namespace RoleAudit.Markup

open RoleAudit.Text (Span)
open Reader Grammar

/-- Lists put together from any number of lists with the property. -/
def Repeated (P : List Token → Prop) (ts : List Token) : Prop :=
  ∃ parts : List (List Token), (∀ part ∈ parts, P part) ∧ ts = parts.flatten

/-- A pair of braces around a balanced list. -/
inductive IsContainer : List Token → Prop
  | braces {inside : List Token} (h : Balanced inside) :
      IsContainer (.openBrace :: (inside ++ [.closeBrace]))

/-- What may follow the name of an attribute. -/
inductive IsValue : List Token → Prop
  | none : IsValue []
  | quoted {text : String} : IsValue [.equals, .quoted text]
  | braced {ts : List Token} (h : IsContainer ts) : IsValue (.equals :: ts)

/-- What may follow the name of a tag. -/
inductive IsItem : List Token → Prop
  | plain {name : String} {ts : List Token} (h : IsValue ts) : IsItem (.word name :: ts)
  | spaced {space name : String} {ts : List Token} (h : IsValue ts) :
      IsItem (.word space :: .colon :: .word name :: ts)
  | spread {inside : List Token} (h : Balanced inside) :
      IsItem (.openBrace :: .spread :: (inside ++ [.closeBrace]))

mutual

/-- Elements. -/
inductive IsElement : List Token → Prop
  | single {name : Name} {items : List Token} (hproper : name.IsProper) (hname : name ≠ .fragment)
      (hitems : Repeated IsItem items) :
      IsElement (.less :: (name.tokens ++ (items ++ [.slash, .greater])))
  | pair {name : Name} {items : List Token} {children : List (List Token)}
      (hproper : name.IsProper)
      (hfirst : name = .fragment → ∀ text others, items ≠ .word text :: others)
      (hitems : Repeated IsItem items) (hchildren : ∀ c ∈ children, IsChild c) :
      IsElement (.less :: (name.tokens ++ (items ++ .greater :: (children.flatten ++
        .less :: .slash :: (name.tokens ++ [.greater])))))

/-- What may stand between an opening and a closing tag. -/
inductive IsChild : List Token → Prop
  | element {ts : List Token} (h : IsElement ts) : IsChild ts
  | braced {ts : List Token} (h : IsContainer ts) : IsChild ts
  | prose {text : String} : IsChild [.prose text]

end

/-- A document is any number of elements. -/
def IsDocument : List Token → Prop :=
  Repeated IsElement

/-! ### What is read is in the language -/

theorem Repeated.nil {P : List Token → Prop} : Repeated P [] :=
  ⟨[], by simp, rfl⟩

theorem Repeated.cons {P : List Token → Prop} {ts us : List Token} (h : P ts)
    (h' : Repeated P us) : Repeated P (ts ++ us) := by
  obtain ⟨parts, hparts, rfl⟩ := h'
  exact ⟨ts :: parts, by simpa using ⟨h, hparts⟩, rfl⟩

/-- The tokens of a phrase are of the form that the language has for phrases of its kind. -/
def Phrase.IsForm : Phrase → List Token → Prop
  | .expr _ _ | .arguments _ | .furtherArguments _ => fun _ => True
  | .container _ => IsContainer
  | .value _ => IsValue
  | .item _ => IsItem
  | .items _ => Repeated IsItem
  | .child _ => IsChild
  | .children _ => Repeated IsChild
  | .element _ => IsElement
  | .elements _ => IsDocument

theorem Written.not_word_of_not_startsPlain {skip : List Lexeme → Prop} {ts : List Lexeme}
    {items : List TagItem} (h : Written skip ts (.items items))
    (hplain : startsPlain items = false) : next Token.isWord ts = false := by
  cases h with
  | noItems => rfl
  | items hfirst hothers =>
      cases hfirst with
      | plain hvalue => simp [startsPlain] at hplain
      | spaced hvalue => simp [startsPlain] at hplain
      | spread hbalanced => rfl

theorem Written.isForm {skip : List Lexeme → Prop} {ts : List Lexeme} {phrase : Phrase}
    (h : Written skip ts phrase) : phrase.IsForm (ts.map Lexeme.token) := by
  induction h with
  | emptyBraces => exact .braces .nil
  | coveredBraces h ih => simpa [Phrase.IsForm] using IsContainer.braces h.balanced
  | skippedBraces _ hbalanced _ => simpa [Phrase.IsForm] using IsContainer.braces hbalanced
  | noValue => exact .none
  | quotedValue => exact .quoted
  | bracedValue _ ih => exact .braced ih
  | plain _ ih => exact .plain ih
  | spaced _ ih => exact .spaced ih
  | spread hbalanced => simpa [Phrase.IsForm] using IsItem.spread hbalanced
  | noItems | noChildren | noElements => exact .nil
  | items _ _ ih ih' | children _ _ ih ih' | elements _ _ ih ih' =>
      rw [List.map_append]
      exact .cons ih ih'
  | prose => exact .prose
  | elementChild _ ih => exact .element ih
  | bracedChild _ ih => exact .braced ih
  | single hproper hne hname _ ih =>
      simpa [Phrase.IsForm, hname] using IsElement.single hproper hne ih
  | @pair left right left' slash right' names ts us names' name items children hproper hplain hname
      hitems _ hclosing ih ih' =>
      obtain ⟨parts, hparts, hflatten⟩ := ih'
      have hfirst : name = .fragment → ∀ text others,
          ts.map Lexeme.token ≠ .word text :: others := by
        intro heq text others hword
        have hnext := hitems.not_word_of_not_startsPlain (hplain heq)
        obtain ⟨span, us, rfl, -⟩ := lexemes_cons hword
        cases hnext
      simpa [Phrase.IsForm, hname, hclosing, hflatten] using
        IsElement.pair hproper hfirst ih hparts
  | _ => trivial

/-! ### What is in the language is read -/

/-- A repetition reads lists one after the other that its reader reads one by one, where what
follows each of them has a property `P` that the reader needs. -/
theorem many_reads_parts {α : Type} {p : Reader α} {P : List Lexeme → Prop} {bound : Nat}
    {parts : List (List Token)} (hparts : ∀ part ∈ parts, ∀ ts tail, ts.map Lexeme.token = part →
      P tail → ts ≠ [] ∧ P (ts ++ tail) ∧
        ((ts ++ tail).length < bound → ∃ a, p.Reads (ts ++ tail) a tail))
    {ts tail : List Lexeme} (hts : ts.map Lexeme.token = parts.flatten) (hstop : p.Fails tail)
    (htail : P tail) (hlt : (ts ++ tail).length < bound) :
    P (ts ++ tail) ∧ ∃ as, (many p).Reads (ts ++ tail) as tail := by
  induction parts generalizing ts with
  | nil =>
      obtain rfl := List.map_eq_nil_iff.1 hts
      exact ⟨htail, [], many_stop hstop⟩
  | cons part parts ih =>
      obtain ⟨us, vs, rfl, hus, hvs⟩ := List.map_eq_append_iff.1 hts
      rw [List.append_assoc] at hlt ⊢
      obtain ⟨hmid, as, has⟩ := ih (fun part hpart => hparts part (by simp [hpart])) hvs
        (by simp at hlt ⊢; omega)
      obtain ⟨hne, hfront, hread⟩ := hparts part (by simp) us (vs ++ tail) hus hmid
      obtain ⟨a, ha⟩ := hread hlt
      have hpos := List.length_pos_iff.2 hne
      exact ⟨hfront, a :: as, many_step ha (by simp; omega) has⟩

/-- A repetition reads what its reader reads one by one, whatever follows. -/
theorem Repeated.reads {α : Type} {p : Reader α} {P : List Token → Prop} {bound : Nat}
    {toks : List Token} (h : Repeated P toks) (hne : ∀ part, P part → part ≠ [])
    (hp : ∀ part, P part → ∀ ts tail, ts.map Lexeme.token = part → (ts ++ tail).length < bound →
      ∃ a, p.Reads (ts ++ tail) a tail)
    {ts tail : List Lexeme} (hts : ts.map Lexeme.token = toks) (hstop : p.Fails tail)
    (hlt : (ts ++ tail).length < bound) : ∃ as, (many p).Reads (ts ++ tail) as tail := by
  obtain ⟨parts, hparts, rfl⟩ := h
  refine (many_reads_parts (P := fun _ => True) (fun part hpart us rest hus _ => ?_) hts hstop
    trivial hlt).2
  refine ⟨?_, trivial, hp part (hparts part hpart) us rest hus⟩
  rintro rfl
  exact hne part (hparts part hpart) hus.symm

/-- What stands in a tag without a name starts with no word, and neither does what follows. -/
theorem next_isWord_append {toks : List Token}
    (hfirst : ∀ text others, toks ≠ .word text :: others) {us rest : List Lexeme}
    (hus : us.map Lexeme.token = toks) (hrest : next Token.isWord rest = false) :
    next Token.isWord (us ++ rest) = false := by
  cases us with
  | nil => exact hrest
  | cons u us =>
      obtain ⟨u, span⟩ := u
      cases u with
      | word text => exact absurd hus.symm (hfirst text _)
      | _ => rfl

/-- No colon follows the name of an attribute that lies in no namespace. -/
theorem IsValue.not_colon {toks : List Token} (h : IsValue toks) {ts tail : List Lexeme}
    (hts : ts.map Lexeme.token = toks) (htail : next Token.continuesItem tail = false) :
    next (fun t => t = .colon) (ts ++ tail) = false := by
  cases h with
  | none =>
      obtain rfl := List.map_eq_nil_iff.1 hts
      exact next_of_kind rfl htail
  | quoted | braced _ =>
      obtain ⟨equals, us, rfl, -⟩ := lexemes_cons hts
      rfl

theorem IsItem.starts {toks : List Token} (h : IsItem toks) {ts : List Lexeme}
    (hts : ts.map Lexeme.token = toks) : ∃ t us, ts = t :: us ∧ t.token.startsItem = true := by
  cases h with
  | plain _ | spaced _ | spread _ =>
      obtain ⟨t, us, rfl, ht, -⟩ := List.map_eq_cons_iff.1 hts
      exact ⟨t, us, rfl, by rw [ht]; rfl⟩

/-- After its name a tag goes on with an attribute or a spread, or ends. -/
theorem next_items_append {toks : List Token} (h : Repeated IsItem toks) {ts tail : List Lexeme}
    (hts : ts.map Lexeme.token = toks) {kind : Token → Bool}
    (hkind : ∀ {t : Token}, t.startsItem = true → kind t = false) (htail : next kind tail = false) :
    next kind (ts ++ tail) = false := by
  obtain ⟨parts, hparts, rfl⟩ := h
  cases parts with
  | nil =>
      obtain rfl := List.map_eq_nil_iff.1 hts
      exact htail
  | cons part parts =>
      obtain ⟨us, vs, rfl, hus, -⟩ := List.map_eq_append_iff.1 hts
      obtain ⟨t, us, rfl, ht⟩ := (hparts part (by simp)).starts hus
      exact hkind ht

section Reading

variable {expr : Reader Expr} (hexpr : expr.Takes fun used e => Derives used (.expr .full e))
include hexpr

theorem IsContainer.reads {toks : List Token} (h : IsContainer toks) {ts tail : List Lexeme}
    (hts : ts.map Lexeme.token = toks) : ∃ c, (container expr).Reads (ts ++ tail) c tail := by
  obtain ⟨hbalanced⟩ := h
  obtain ⟨left, _, rfl, hts'⟩ := lexemes_cons hts
  obtain ⟨inside, _, rfl, rfl, hclose⟩ := List.map_eq_append_iff.1 hts'
  obtain ⟨right, rfl⟩ := lexemes_single hclose
  simpa using container_reads_of_balanced hexpr hbalanced

theorem IsValue.reads {toks : List Token} (h : IsValue toks) {ts tail : List Lexeme}
    (hts : ts.map Lexeme.token = toks) (htail : next Token.continuesItem tail = false) :
    ∃ value, (optional do
      let _ ← token .equals
      attributeValue expr).Reads (ts ++ tail) value tail := by
  cases h with
  | none =>
      obtain rfl := List.map_eq_nil_iff.1 hts
      exact ⟨_, value_reads_none htail⟩
  | quoted =>
      obtain ⟨equals, _, rfl, hts'⟩ := lexemes_cons hts
      obtain ⟨span, _, rfl, hnil⟩ := lexemes_cons hts'
      obtain rfl := List.map_eq_nil_iff.1 hnil
      exact ⟨_, value_reads_quoted⟩
  | braced h =>
      obtain ⟨equals, us, rfl, hus⟩ := lexemes_cons hts
      obtain ⟨c, hc⟩ : ∃ c, (container expr).Reads (us ++ tail) c tail := h.reads hexpr hus
      obtain ⟨hbalanced⟩ := h
      obtain ⟨left, us, rfl, -⟩ := lexemes_cons hus
      exact ⟨_, value_reads_braced hc⟩

theorem IsItem.reads {toks : List Token} (h : IsItem toks) {ts tail : List Lexeme}
    (hts : ts.map Lexeme.token = toks) (htail : next Token.continuesItem tail = false) :
    ∃ item, (tagItem expr).Reads (ts ++ tail) item tail := by
  cases h with
  | plain h =>
      obtain ⟨span, us, rfl, hus⟩ := lexemes_cons hts
      obtain ⟨value, hvalue⟩ := h.reads hexpr hus htail
      exact ⟨_, tagItem_reads_plain (h.not_colon hus htail) hvalue⟩
  | spaced h =>
      obtain ⟨first, _, rfl, hts'⟩ := lexemes_cons hts
      obtain ⟨colon, _, rfl, hts''⟩ := lexemes_cons hts'
      obtain ⟨second, us, rfl, hus⟩ := lexemes_cons hts''
      obtain ⟨value, hvalue⟩ := h.reads hexpr hus htail
      exact ⟨_, tagItem_reads_spaced hvalue⟩
  | spread hbalanced =>
      obtain ⟨left, _, rfl, hts'⟩ := lexemes_cons hts
      obtain ⟨dots, _, rfl, hts''⟩ := lexemes_cons hts'
      obtain ⟨inside, _, rfl, rfl, hclose⟩ := List.map_eq_append_iff.1 hts''
      obtain ⟨right, rfl⟩ := lexemes_single hclose
      exact ⟨_, by simpa using tagItem_reads_spread hbalanced⟩

theorem items_read {toks : List Token} (h : Repeated IsItem toks) {ts tail : List Lexeme}
    (hts : ts.map Lexeme.token = toks) (hstop : next Token.startsItem tail = false)
    (htail : next Token.continuesItem tail = false) :
    ∃ items, (many (tagItem expr)).Reads (ts ++ tail) items tail := by
  obtain ⟨parts, hparts, rfl⟩ := h
  refine (many_reads_parts (P := fun us => next Token.continuesItem us = false) ?_ hts
    (tagItem_fails hstop) htail (Nat.lt_succ_self _)).2
  intro part hpart us rest hus hrest
  obtain ⟨t, vs, rfl, ht⟩ := (hparts part hpart).starts hus
  exact ⟨by simp, continuesItem_of_startsItem ht,
    fun _ => (hparts part hpart).reads hexpr hus hrest⟩

end Reading

/-- Every element has a first lexeme. -/
theorem IsElement.ne_nil {toks : List Token} (h : IsElement toks) : toks ≠ [] := by
  cases h <;> simp

theorem IsChild.ne_nil {toks : List Token} (h : IsChild toks) : toks ≠ [] := by
  cases h with
  | element h => exact h.ne_nil
  | braced h =>
      obtain ⟨-⟩ := h
      simp
  | prose => simp

mutual

/-- Every element is read, whatever follows it, if the depth of nesting is bounded by more than the
number of lexemes. -/
theorem IsElement.reads {toks : List Token} : IsElement toks → ∀ (ts tail : List Lexeme)
    (depth : Nat), ts.map Lexeme.token = toks → (ts ++ tail).length < depth →
      ∃ e, (elementTo depth).Reads (ts ++ tail) e tail
  | .single hproper hname hitems => by
      intro ts tail depth hts hlt
      obtain ⟨left, _, rfl, hts'⟩ := lexemes_cons hts
      obtain ⟨names, _, rfl, hnames, hts''⟩ := List.map_eq_append_iff.1 hts'
      obtain ⟨us, _, rfl, hus, hclose⟩ := List.map_eq_append_iff.1 hts''
      obtain ⟨slash, _, rfl, hright⟩ := lexemes_cons hclose
      obtain ⟨right, rfl⟩ := lexemes_single hright
      cases depth with
      | zero => simp at hlt
      | succ depth =>
          obtain ⟨items, hread⟩ := items_read (takes_to depth).2 hitems hus
            (show next Token.startsItem (⟨.slash, slash⟩ :: ⟨.greater, right⟩ :: tail) = false
              from rfl) rfl
          have hstart := next_items_append hitems hus continuesName_of_startsItem
            (show next Token.continuesName (⟨.slash, slash⟩ :: ⟨.greater, right⟩ :: tail) = false
              from rfl)
          simp only [List.cons_append, List.append_assoc, List.nil_append]
          exact ⟨_, elementWith_reads_single hproper hname hnames hstart hread⟩
  | @IsElement.pair name _ _ hproper hfirst hitems hchildren => by
      intro ts tail depth hts hlt
      obtain ⟨left, _, rfl, hts'⟩ := lexemes_cons hts
      obtain ⟨names, _, rfl, hnames, hts''⟩ := List.map_eq_append_iff.1 hts'
      obtain ⟨us, _, rfl, hus, hopen⟩ := List.map_eq_append_iff.1 hts''
      obtain ⟨right, _, rfl, hinside⟩ := lexemes_cons hopen
      obtain ⟨vs, _, rfl, hvs, hclosing⟩ := List.map_eq_append_iff.1 hinside
      obtain ⟨left', _, rfl, hslash⟩ := lexemes_cons hclosing
      obtain ⟨slash, _, rfl, hclosing'⟩ := lexemes_cons hslash
      obtain ⟨names', _, rfl, hnames', hclose⟩ := List.map_eq_append_iff.1 hclosing'
      obtain ⟨right', rfl⟩ := lexemes_single hclose
      cases depth with
      | zero => simp at hlt
      | succ depth =>
          -- what follows the attributes, and what follows the children
          let closing := ⟨.less, left'⟩ :: ⟨.slash, slash⟩ :: (names' ++ ⟨.greater, right'⟩ :: tail)
          let rest := ⟨.greater, right⟩ :: (vs ++ closing)
          obtain ⟨items, hread⟩ : ∃ items, (many (tagItem (exprTo depth))).Reads (us ++ rest) items
              rest := items_read (takes_to depth).2 hitems hus rfl rfl
          have hstart : next Token.continuesName (us ++ rest) = false :=
            next_items_append hitems hus continuesName_of_startsItem rfl
          have hword : name = .fragment → next Token.isWord (us ++ rest) = false := fun heq =>
            next_isWord_append (hfirst heq) hus rfl
          obtain ⟨children, hchildren'⟩ : ∃ children, (many (child (elementTo depth)
              (exprTo depth))).Reads (vs ++ closing) children closing :=
            (many_reads_parts (P := fun _ => True) (fun part hpart ws rest hws _ =>
              ⟨by rintro rfl; exact (hchildren part hpart).ne_nil hws.symm, trivial,
                fun hlt => (hchildren part hpart).reads ws rest depth hws hlt⟩)
              hvs (child_fails_closing elementTo_fails_closing) trivial
              (by simp at hlt ⊢; omega)).2
          simp only [List.cons_append, List.append_assoc, List.nil_append]
          exact ⟨_, elementWith_reads_pair hproper hnames hnames' hstart hword hread hchildren'⟩

theorem IsChild.reads {toks : List Token} : IsChild toks → ∀ (ts tail : List Lexeme)
    (depth : Nat), ts.map Lexeme.token = toks → (ts ++ tail).length < depth →
      ∃ c, (child (elementTo depth) (exprTo depth)).Reads (ts ++ tail) c tail
  | .element h => by
      intro ts tail depth hts hlt
      obtain ⟨e, he⟩ := h.reads ts tail depth hts hlt
      exact ⟨_, child_reads_element he⟩
  | .braced h => by
      intro ts tail depth hts hlt
      obtain ⟨c, hc⟩ : ∃ c, (container (exprTo depth)).Reads (ts ++ tail) c tail :=
        h.reads (takes_to depth).2 hts
      obtain ⟨hbalanced⟩ := h
      obtain ⟨left, us, rfl, -⟩ := lexemes_cons hts
      exact ⟨_, child_reads_braced (elementTo_fails rfl) hc⟩
  | .prose => by
      intro ts tail depth hts hlt
      obtain ⟨span, rfl⟩ := lexemes_single hts
      exact ⟨_, child_reads_prose (elementTo_fails rfl)⟩

end

theorem IsDocument.reads {toks : List Token} (h : IsDocument toks) {ts : List Lexeme}
    (hts : ts.map Lexeme.token = toks) : ∃ d, document.Reads ts d [] := by
  have hstop : (elementTo (ts.length + 1)).Fails [] := elementTo_fails rfl
  obtain ⟨elements, hread⟩ := Repeated.reads h (fun _ => IsElement.ne_nil)
    (fun _ hpart us rest hus hlt => hpart.reads us rest (ts.length + 1) hus hlt) hts hstop (by simp)
  rw [List.append_nil] at hread
  exact ⟨⟨elements⟩, reads_document.2 ⟨rfl, hread⟩⟩

/-- Parsing succeeds exactly if the reader of documents does, which takes up everything. -/
theorem ofLexemes_eq_ok_iff {ts : List Lexeme} {source : String} {d : Document} :
    Document.ofLexemes ts source = .ok d ↔ document.Reads ts d [] := by
  have hrest : ∀ d' rest, document.Reads ts d' rest → rest = [] := fun d' rest h =>
    (reads_document.1 h).1
  unfold Reads at hrest ⊢
  unfold Document.ofLexemes
  rcases h : document ts with ⟨_ | ⟨d', rest⟩, failure⟩
  · simp
  · obtain rfl := hrest d' rest (by rw [h])
    simp

/-- Lexemes are parsed into a document exactly if their tokens are one. -/
theorem ofLexemes_ok_iff_isDocument (ts : List Lexeme) (source : String) :
    (∃ d, Document.ofLexemes ts source = .ok d) ↔ IsDocument (ts.map Lexeme.token) := by
  simp only [ofLexemes_eq_ok_iff]
  constructor
  · rintro ⟨d, hd⟩
    exact (derives_of_reads_document hd).isForm
  · intro h
    exact h.reads rfl

end RoleAudit.Markup
