import RoleAudit.Proofs.Extents
import RoleAudit.Proofs.Printing
import RoleAudit.Proofs.Relexing

/-!
# Prose after a tag

Where prose is read, a text without `<` and braces is one piece, whatever else is in it.  Whether it
is read as prose is decided by the piece before it.  After a closing brace it is.  The `>` of a tag,
however, is read as code is, by the longest symbol, and `>=` is a symbol too: a text that starts with
an equal sign loses it to the tag before it, which then never ends, and the source is no document.

`Lexes` says that lexing goes from one place of a text to another, over some lexemes.  What is left
is part of it, as it decides where a piece ends.

Main statement: `prose_after_lead`.
-/

namespace RoleAudit.Markup

open RoleAudit.Text
open Reader

/-! ### Lexing part of a text -/

/-- Lexing leads from some modes, an offset and the text there over lexemes to others. -/
inductive Lexes : Modes → Nat → List Char → List Lexeme → Modes → Nat → List Char → Prop
  | done {modes : Modes} {offset : Nat} {text : List Char} :
      Lexes modes offset text [] modes offset text
  | token {modes modes' : Modes} {offset offset' : Nat} {text rest rest' : List Char}
      {ts : List Lexeme} (t : Token) (width : Nat)
      (h : modes.scanner.bite text = some ⟨some t, width, rest⟩) (ht : Step.isBlankProse t = false)
      (hrest : Lexes (modes.after t) (offset + width) rest ts modes' offset' rest') :
      Lexes modes offset text (⟨t, ⟨offset, offset + width⟩⟩ :: ts) modes' offset' rest'
  | gap {modes modes' : Modes} {offset offset' width : Nat} {text rest rest' : List Char}
      {ts : List Lexeme} (h : modes.scanner.bite text = some ⟨none, width, rest⟩)
      (hrest : Lexes modes (offset + width) rest ts modes' offset' rest') :
      Lexes modes offset text ts modes' offset' rest'

section Lexing

variable {modes modes' modes'' : Modes} {offset offset' offset'' : Nat}
  {text text' text'' : List Char} {ts us : List Lexeme}

theorem Lexes.append (h : Lexes modes offset text ts modes' offset' text')
    (h' : Lexes modes' offset' text' us modes'' offset'' text'') :
    Lexes modes offset text (ts ++ us) modes'' offset'' text'' := by
  induction h with
  | done => exact h'
  | token t width h ht _ ih => exact .token t width h ht (ih h')
  | gap h _ ih => exact .gap h (ih h')

/-- The lexemes of a text are those that lexing goes over, and those of what is left. -/
theorem Lexes.filterMap_eq (h : Lexes modes offset text ts modes' offset' text') :
    (traceFrom modes offset text).filterMap Step.lexeme? =
      ts ++ (traceFrom modes' offset' text').filterMap Step.lexeme? := by
  induction h with
  | done => rfl
  | token t width h ht _ ih =>
      rw [traceFrom_of_bite h, List.filterMap_cons_some (by simp [Step.lexeme?, ht]; rfl)]
      exact congrArg _ ih
  | gap h _ ih =>
      rw [traceFrom_of_bite h, List.filterMap_cons_none (by simp [Step.lexeme?])]
      exact ih

end Lexing

/-- Angle brackets are symbols of their own, unless an equal sign follows them. -/
theorem codeBite_angle {c : Char} {t : Token}
    (hangle : c = '<' ∧ t = .less ∨ c = '>' ∧ t = .greater) {tail : List Char}
    (h : tail.head? ≠ some '=') (inTag : Bool) :
    codeBite inTag (c :: tail) = some ⟨some t, 1, tail⟩ := by
  have hsymbol : symbolAmong symbols (c :: tail) = some ⟨some t, 1, tail⟩ := by
    cases tail with
    | nil => rcases hangle with ⟨rfl, rfl⟩ | ⟨rfl, rfl⟩ <;> rfl
    | cons d tail =>
        have hd : '=' ≠ d := by
          rintro rfl
          exact h rfl
        rcases hangle with ⟨rfl, rfl⟩ | ⟨rfl, rfl⟩ <;>
          (simp only [symbols, symbolAmong, List.isPrefixOf, beq_eq_false_iff_ne.2 hd]; rfl)
  rcases hangle with ⟨rfl, rfl⟩ | ⟨rfl, rfl⟩ <;> simp [codeBite, isSpace, isWordStart, hsymbol]

theorem codeBite_less {tail : List Char} (h : tail.head? ≠ some '=') (inTag : Bool) :
    codeBite inTag ('<' :: tail) = some ⟨some .less, 1, tail⟩ :=
  codeBite_angle (Or.inl ⟨rfl, rfl⟩) h inTag

theorem codeBite_greater {tail : List Char} (h : tail.head? ≠ some '=') (inTag : Bool) :
    codeBite inTag ('>' :: tail) = some ⟨some .greater, 1, tail⟩ :=
  codeBite_angle (Or.inr ⟨rfl, rfl⟩) h inTag

theorem codeBite_greaterEqual (tail : List Char) (inTag : Bool) :
    codeBite inTag ('>' :: '=' :: tail) = some ⟨some (.operator ">="), 2, tail⟩ :=
  rfl

/-! ### Sources with prose -/

/-- What may stand in front of a text in an element. -/
inductive Lead where
  /-- The opening tag of the element. -/
  | opening
  /-- A tag that closes itself. -/
  | single
  /-- A closing tag. -/
  | closing
  /-- A pair of braces. -/
  | braces
  deriving DecidableEq, Repr

namespace Lead

/-- The source up to the text. -/
def text : Lead → String
  | opening => "<p>"
  | single => "<p><q />"
  | closing => "<p><q></q>"
  | braces => "<p>\x7bx\x7d"

/-- The number of bytes up to the text. -/
def width (lead : Lead) : Nat :=
  byteLength lead.text.toList

/-- The children before the text. -/
def children : Lead → List Child
  | opening => []
  | single => [.element (.single ⟨.plain "q", [], ⟨3, 8⟩⟩)]
  | closing => [.element (.pair ⟨.plain "q", [], ⟨3, 6⟩⟩ [] ⟨6, 10⟩)]
  | braces => [.braced ⟨.expr (.name "x"), ⟨3, 6⟩⟩]

/-- Whether a tag stands right before the text. -/
def endsTag : Lead → Bool
  | braces => false
  | _ => true

/-- The character right before the text, and its token. -/
def last : Lead → Char × Token
  | braces => ('\x7d', .closeBrace)
  | _ => ('>', .greater)

/-- The modes under which that character is read. -/
def modes : Lead → Modes
  | opening => [.tag ⟨false, false, false⟩]
  | single => [.tag ⟨false, false, true⟩, .prose]
  | closing => [.tag ⟨false, true, false⟩, .prose, .prose]
  | braces => [.code, .prose]

/-- The lexemes of the children before the text. -/
def inside : Lead → List Lexeme
  | opening => []
  | single => [⟨.less, ⟨3, 4⟩⟩, ⟨.word "q", ⟨4, 5⟩⟩, ⟨.slash, ⟨6, 7⟩⟩, ⟨.greater, ⟨7, 8⟩⟩]
  | closing => [⟨.less, ⟨3, 4⟩⟩, ⟨.word "q", ⟨4, 5⟩⟩, ⟨.greater, ⟨5, 6⟩⟩, ⟨.less, ⟨6, 7⟩⟩,
      ⟨.slash, ⟨7, 8⟩⟩, ⟨.word "q", ⟨8, 9⟩⟩, ⟨.greater, ⟨9, 10⟩⟩]
  | braces => [⟨.openBrace, ⟨3, 4⟩⟩, ⟨.word "x", ⟨4, 5⟩⟩, ⟨.closeBrace, ⟨5, 6⟩⟩]

/-- All lexemes before the text. -/
def lexemes (lead : Lead) : List Lexeme :=
  ⟨.less, ⟨0, 1⟩⟩ :: ⟨.word "p", ⟨1, 2⟩⟩ :: ⟨.greater, ⟨2, 3⟩⟩ :: lead.inside

/-- Up to the last character before the text, nothing depends on the text. -/
theorem lexes_front (lead : Lead) (tail : List Char) : Lexes [] 0 (lead.text.toList ++ tail)
    lead.lexemes.dropLast lead.modes (lead.width - 1) (lead.last.1 :: tail) := by
  have hopening : ∀ c rest, c ≠ '=' → Lexes [] 0 ('<' :: 'p' :: '>' :: c :: rest)
      [⟨.less, ⟨0, 1⟩⟩, ⟨.word "p", ⟨1, 2⟩⟩, ⟨.greater, ⟨2, 3⟩⟩] [.prose] 3 (c :: rest) := by
    intro c rest hc
    have hgreater : codeBite true ('>' :: c :: rest) = some ⟨some .greater, 1, c :: rest⟩ :=
      codeBite_greater (by simpa using hc) true
    exact .token .less 1 rfl rfl
      (.token (.word "p") 1 rfl rfl (.token .greater 1 hgreater rfl .done))
  cases lead with
  | opening => exact .token .less 1 rfl rfl (.token (.word "p") 1 rfl rfl .done)
  | single =>
      refine (hopening '<' _ (by decide)).append ?_
      exact .token .less 1 rfl rfl (.token (.word "q") 1 rfl rfl (.gap rfl
        (.token .slash 1 rfl rfl .done)))
  | closing =>
      refine (hopening '<' _ (by decide)).append ?_
      exact .token .less 1 rfl rfl (.token (.word "q") 1 rfl rfl (.token .greater 1 rfl rfl
        (.token .less 1 rfl rfl (.token .slash 1 rfl rfl (.token (.word "q") 1 rfl rfl .done)))))
  | braces =>
      refine (hopening '\x7b' _ (by decide)).append ?_
      exact .token .openBrace 1 rfl rfl (.token (.word "x") 1 rfl rfl .done)

theorem dropLast_append_last (lead : Lead) :
    lead.lexemes.dropLast ++ [⟨lead.last.2, ⟨lead.width - 1, lead.width⟩⟩] = lead.lexemes := by
  cases lead <;> rfl

theorem lexes_last {lead : Lead} {tail : List Char}
    (h : lead.endsTag = true → tail.head? ≠ some '=') :
    Lexes lead.modes (lead.width - 1) (lead.last.1 :: tail)
      [⟨lead.last.2, ⟨lead.width - 1, lead.width⟩⟩] [.prose] lead.width tail := by
  cases lead with
  | opening | single | closing =>
      exact .token .greater 1 (codeBite_greater (h rfl) true) rfl .done
  | braces => exact .token .closeBrace 1 rfl rfl .done

/-- The lexemes of a closing tag. -/
def closingTag (offset : Nat) : List Lexeme :=
  [⟨.less, ⟨offset, offset + 1⟩⟩, ⟨.slash, ⟨offset + 1, offset + 2⟩⟩,
    ⟨.word "p", ⟨offset + 2, offset + 3⟩⟩, ⟨.greater, ⟨offset + 3, offset + 4⟩⟩]

theorem lexes_closingTag (offset : Nat) :
    Lexes [.prose] offset ['<', '/', 'p', '>'] (closingTag offset) [] (offset + 4) [] :=
  .token .less 1 rfl rfl (.token .slash 1 rfl rfl (.token (.word "p") 1 rfl rfl
    (.token .greater 1 rfl rfl .done)))

/-- A text that is not blank is one lexeme where prose is read. -/
theorem lexes_prose {t : String} (hblank : ∃ c ∈ t.toList, isBlank c = false)
    (hplain : ∀ c ∈ t.toList, endsProse c = false) (offset : Nat) {rest : List Char}
    (hrest : ∀ c ∈ rest.head?, endsProse c = true) :
    Lexes [.prose] offset (t.toList ++ rest)
      [⟨.prose t, ⟨offset, offset + byteLength t.toList⟩⟩] [.prose]
        (offset + byteLength t.toList) rest := by
  have hne : t.toList ≠ [] := by
    obtain ⟨c, hc, -⟩ := hblank
    exact List.ne_nil_of_mem hc
  have hbite := proseBite_append hne hplain hrest
  rw [String.ofList_toList] at hbite
  refine .token (.prose t) _ hbite ?_ .done
  simpa [Step.isBlankProse] using hblank

/-- The source with a text after a lead. -/
def source (lead : Lead) (t : String) : String :=
  lead.text ++ t ++ "</p>"

/-- The lexemes of a source in which the text is prose. -/
theorem lexemes_source {lead : Lead} {t : String} (hblank : ∃ c ∈ t.toList, isBlank c = false)
    (hplain : ∀ c ∈ t.toList, endsProse c = false)
    (hlead : lead.endsTag = true → t.toList.head? ≠ some '=') :
    Markup.lexemes (lead.source t) = lead.lexemes ++
      ⟨.prose t, ⟨lead.width, lead.width + byteLength t.toList⟩⟩ ::
        closingTag (lead.width + byteLength t.toList) := by
  have htext : (lead.source t).toList = lead.text.toList ++ (t.toList ++ ['<', '/', 'p', '>']) := by
    simp [source]
  have hlast : lead.endsTag = true → (t.toList ++ ['<', '/', 'p', '>']).head? ≠ some '=' := by
    obtain ⟨c, hc, -⟩ := hblank
    rw [List.head?_append_of_ne_nil _ (List.ne_nil_of_mem hc)]
    exact hlead
  have hstop : ∀ c ∈ ['<', '/', 'p', '>'].head?, endsProse c = true := by simp [endsProse]
  have hprose := lexes_prose hblank hplain lead.width hstop
  have hall := (lexes_front lead _).append ((lexes_last hlast).append
    (hprose.append (lexes_closingTag _)))
  rw [Markup.lexemes, trace, htext, hall.filterMap_eq, traceFrom_nil, ← lead.dropLast_append_last]
  simp

/-- The children of a source in which the text is prose. -/
theorem spells_children (lead : Lead) (t : String) (span : Span) :
    Spells (lead.inside ++ [⟨.prose t, span⟩]) (.children (lead.children ++ [.prose span])) := by
  have hprose : Spells [⟨.prose t, span⟩] (.children [.prose span]) := .children .prose .noChildren
  cases lead with
  | opening => exact hprose
  | single =>
      have hsingle : Spells single.inside (.element (.single ⟨.plain "q", [], ⟨3, 8⟩⟩)) :=
        @Written.single _ ⟨3, 4⟩ ⟨6, 7⟩ ⟨7, 8⟩ [⟨.word "q", ⟨4, 5⟩⟩] [] (.plain "q") [] trivial
          (by simp) rfl .noItems
      exact .children (.elementChild hsingle) hprose
  | closing =>
      have hpair : Spells closing.inside (.element (.pair ⟨.plain "q", [], ⟨3, 6⟩⟩ [] ⟨6, 10⟩)) :=
        @Written.pair _ ⟨3, 4⟩ ⟨5, 6⟩ ⟨6, 7⟩ ⟨7, 8⟩ ⟨9, 10⟩ [⟨.word "q", ⟨4, 5⟩⟩] [] []
          [⟨.word "q", ⟨8, 9⟩⟩] (.plain "q") [] [] trivial (by simp) rfl .noItems .noChildren rfl
      exact .children (.elementChild hpair) hprose
  | braces =>
      have hname : Spells [⟨.word "x", ⟨4, 5⟩⟩] (.expr .full (.name "x")) :=
        (Written.literal rfl).loosen Level.primary.rank_le_full
      have hbraces : Spells braces.inside (.container ⟨.expr (.name "x"), ⟨3, 6⟩⟩) :=
        @Written.coveredBraces _ ⟨3, 4⟩ ⟨5, 6⟩ _ _ hname
      exact .children (.bracedChild hbraces) hprose

/-- The document that a source writes in which the text is prose. -/
def document (lead : Lead) (t : String) : Document :=
  let start := lead.width
  let stop := lead.width + byteLength t.toList
  ⟨[.pair ⟨.plain "p", [], ⟨0, 3⟩⟩ (lead.children ++ [.prose ⟨start, stop⟩]) ⟨stop, stop + 4⟩]⟩

theorem parse_source {lead : Lead} {t : String} (hblank : ∃ c ∈ t.toList, isBlank c = false)
    (hplain : ∀ c ∈ t.toList, endsProse c = false)
    (hlead : lead.endsTag = true → t.toList.head? ≠ some '=') :
    Document.parse (lead.source t) = .ok (lead.document t) := by
  let stop := lead.width + byteLength t.toList
  have hpair : Spells (lead.lexemes ++ ⟨.prose t, ⟨lead.width, stop⟩⟩ :: closingTag stop)
      (.element (.pair ⟨.plain "p", [], ⟨0, 3⟩⟩ (lead.children ++ [.prose ⟨lead.width, stop⟩])
        ⟨stop, stop + 4⟩)) := by
    have h := @Written.pair _ ⟨0, 1⟩ ⟨2, 3⟩ ⟨stop, stop + 1⟩ ⟨stop + 1, stop + 2⟩
      ⟨stop + 3, stop + 4⟩ [⟨.word "p", ⟨1, 2⟩⟩] [] _ [⟨.word "p", ⟨stop + 2, stop + 3⟩⟩]
      (.plain "p") [] _ trivial (by simp) rfl .noItems
      (lead.spells_children t ⟨lead.width, stop⟩) rfl
    simpa only [lexemes, closingTag, List.cons_append, List.append_assoc, List.nil_append] using h
  have hdocument : Spells _ (.elements (lead.document t).elements) := .elements hpair .noElements
  rw [List.append_nil] at hdocument
  rw [Document.parse, lexemes_source hblank hplain hlead, ofLexemes_eq_ok_iff]
  exact reads_document_of_spells hdocument

end Lead

/-! ### Operators in tags -/

/-- Whether a token is a comparison, a product or a remainder. -/
def Token.isOperator : Token → Bool
  | operator _ => true
  | _ => false

/-- No operator stands before the first opening brace. -/
def Guarded : List Lexeme → Prop
  | [] => True
  | t :: ts => t.token = .openBrace ∨ (t.token.isOperator = false ∧ Guarded ts)

theorem Guarded.append {ts us : List Lexeme} (h : Guarded ts) (h' : Guarded us) :
    Guarded (ts ++ us) := by
  induction ts with
  | nil => exact h'
  | cons t ts ih => exact h.imp id fun ⟨ht, hts⟩ => ⟨ht, ih hts⟩

theorem Guarded.cons {t : Token} {span : Span} {ts : List Lexeme} (ht : t.isOperator = false)
    (h : Guarded ts) : Guarded (⟨t, span⟩ :: ts) :=
  Or.inr ⟨ht, h⟩

theorem guarded_of_name {name : Name} {ts : List Lexeme} (h : ts.map Lexeme.token = name.tokens) :
    Guarded ts := by
  have hall : ∀ t ∈ ts, t.token.isOperator = false := by
    intro t ht
    rcases Name.mem_tokens (h ▸ List.mem_map_of_mem ht) with ⟨text, hword⟩ | hcolon | hdot
    · rw [hword]; rfl
    · rw [hcolon]; rfl
    · rw [hdot]; rfl
  clear h
  induction ts with
  | nil => trivial
  | cons t ts ih =>
      exact .cons (hall t List.mem_cons_self) (ih fun u hu => hall u (List.mem_cons_of_mem _ hu))

theorem not_guarded {front back : List Lexeme} {t : Lexeme} (ht : t.token.isOperator = true)
    (hfront : ∀ u ∈ front, u.token ≠ .openBrace) : ¬ Guarded (front ++ t :: back) := by
  induction front with
  | nil =>
      rintro (hbrace | ⟨hoperator, -⟩)
      · rw [hbrace] at ht
        cases ht
      · rw [ht] at hoperator
        cases hoperator
  | cons u front ih =>
      rintro (hbrace | ⟨-, hguarded⟩)
      · exact hfront u List.mem_cons_self hbrace
      · exact ih (fun v hv => hfront v (List.mem_cons_of_mem _ hv)) hguarded

/-- Outside of expressions, operators stand in braces only. -/
def Phrase.IsGuarded : Phrase → List Lexeme → Prop
  | .expr _ _ | .arguments _ | .furtherArguments _ => fun _ => True
  | _ => Guarded

theorem Written.guarded {ts : List Lexeme} {phrase : Phrase} (h : Derives ts phrase) :
    phrase.IsGuarded ts := by
  induction h with
  | emptyBraces | coveredBraces | skippedBraces | spread => exact Or.inl rfl
  | noValue | noItems | noChildren | noElements => trivial
  | quotedValue => exact .cons rfl (.cons rfl trivial)
  | prose => exact .cons rfl trivial
  | bracedValue _ ih | plain _ ih => exact .cons rfl ih
  | spaced _ ih => exact .cons rfl (.cons rfl (.cons rfl ih))
  | elementChild _ ih | bracedChild _ ih => exact ih
  | items _ _ ih ih' | children _ _ ih ih' | elements _ _ ih ih' => exact ih.append ih'
  | single _ _ hname _ ih =>
      exact .cons rfl
        ((guarded_of_name hname).append (ih.append (.cons rfl (.cons rfl trivial))))
  | @pair left right left' slash right' names us vs names' name items children _ _ hname _ _ hclosing
      ih ih' =>
      have hclose : Guarded (names' ++ [⟨.greater, right'⟩]) :=
        (guarded_of_name hclosing).append (.cons rfl trivial)
      exact .cons rfl ((guarded_of_name hname).append (ih.append (.cons rfl
        (ih'.append (.cons rfl (.cons rfl hclose))))))
  | _ => trivial

namespace Lead

/-- The `>` before the text is read together with an equal sign in it. -/
def Joins (lead : Lead) (t : String) : Prop :=
  lead.endsTag = true ∧ t.toList.head? = some '='

theorem parse_source_ne_ok {lead : Lead} {t : String} (h : lead.Joins t) (d : Document) :
    Document.parse (lead.source t) ≠ .ok d := by
  obtain ⟨htag, ht⟩ := h
  obtain ⟨rest, hrest⟩ := List.head?_eq_some_iff.1 ht
  have htext :
      (lead.source t).toList = lead.text.toList ++ '=' :: (rest ++ ['<', '/', 'p', '>']) := by
    simp [source, hrest]
  have hbite : lead.modes.scanner.bite (lead.last.1 :: '=' :: (rest ++ ['<', '/', 'p', '>'])) =
      some ⟨some (.operator ">="), 2, rest ++ ['<', '/', 'p', '>']⟩ := by
    cases lead with
    | opening | single | closing => exact codeBite_greaterEqual _ true
    | braces => cases htag
  have hfront : ∀ u ∈ lead.lexemes.dropLast, u.token ≠ .openBrace := by
    cases lead with
    | opening | single | closing => decide
    | braces => cases htag
  have hlexes := (lead.lexes_front _).append (.token _ _ hbite rfl .done)
  intro hparse
  have hguarded : Guarded (Markup.lexemes (lead.source t)) := (derives_of_parse hparse).guarded
  rw [Markup.lexemes, trace, htext, hlexes.filterMap_eq, List.append_assoc] at hguarded
  exact not_guarded rfl hfront hguarded

end Lead

/-- A text that is not blank and free of `<` and braces is prose after each of the leads, and takes up
its own bytes, unless it starts with an equal sign after a tag.  Then the source is no document. -/
theorem prose_after_lead (lead : Lead) (t : String) (hblank : ∃ c ∈ t.toList, isBlank c = false)
    (hplain : ∀ c ∈ t.toList, endsProse c = false) :
    (lead.Joins t → ∀ d, Document.parse (lead.source t) ≠ .ok d) ∧
      (¬ lead.Joins t → Document.parse (lead.source t) = .ok (lead.document t)) :=
  ⟨fun h => Lead.parse_source_ne_ok h,
    fun h => Lead.parse_source hblank hplain fun htag ht => h ⟨htag, ht⟩⟩

theorem prose_after_lead_sample : (∃ c ∈ "\"> /* é =".toList, isBlank c = false) ∧
    (∀ c ∈ "\"> /* é =".toList, endsProse c = false) ∧
      Document.parse (Lead.single.source "\"> /* é =") = .ok (Lead.single.document "\"> /* é =") := by
  have hblank : ∃ c ∈ "\"> /* é =".toList, isBlank c = false := ⟨'=', by simp, by decide⟩
  have hplain : ∀ c ∈ "\"> /* é =".toList, endsProse c = false := by simp [endsProse]
  have hjoins : ¬ Lead.single.Joins "\"> /* é =" := by
    rintro ⟨-, hstart⟩
    exact absurd hstart (by decide)
  exact ⟨hblank, hplain, (prose_after_lead .single "\"> /* é =" hblank hplain).2 hjoins⟩

/-- An equal sign alone is such a text, and is not prose after a tag. -/
theorem equals_not_prose : (∃ c ∈ "=".toList, isBlank c = false) ∧
    (∀ c ∈ "=".toList, endsProse c = false) ∧ ∀ d, Document.parse "<p>=</p>" ≠ .ok d := by
  refine ⟨⟨'=', by simp, by decide⟩, by simp [endsProse], fun d => ?_⟩
  have hsource : Lead.opening.source "=" = "<p>=</p>" := by decide
  rw [← hsource]
  exact Lead.parse_source_ne_ok ⟨rfl, by decide⟩ d

end RoleAudit.Markup
