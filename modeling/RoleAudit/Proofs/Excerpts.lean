import RoleAudit.Proofs.Concatenation
import RoleAudit.Proofs.Coupling
import RoleAudit.Proofs.ProseText

/-!
# Elements as sources of their own

An element can be cut out of a source.  In its place it is read under the modes of what is around
it, before whatever follows it; on its own it is read from the empty stack, and its text ends with
it.  Neither matters.  Its `<` is a `<` in prose and in code; from there on the two stacks are coupled
until its `>` leads back to where they were; and no piece reaches beyond that `>`.

So the text of an element is a source with that one element, put elsewhere, and an audit finds the
same in it.

Main statements: `lexemes_excerpt`, `parse_excerpt` and `enteredOf_walk_within`, which
`element_excerpt` puts together.
-/

namespace RoleAudit.Markup

open RoleAudit.Text
open Reader Grammar

/-! ### Lexemes -/

/-- Every lexeme of pieces is that of one piece. -/
theorem exists_piece {offset : Nat} {ps : List Piece} {front back : List Lexeme} {t : Lexeme}
    (h : lexemesAt offset ps = front ++ t :: back) : ∃ qs p rs, ps = qs ++ p :: rs ∧
      lexemesAt offset qs = front ∧ p.lexeme? (offset + byteLength (textOf qs)) = some t ∧
      lexemesAt (offset + byteLength (textOf qs) + byteLength p.text) rs = back := by
  induction ps generalizing offset front with
  | nil => simp at h
  | cons p ps ih =>
      cases hlexeme : p.lexeme? offset with
      | none =>
          rw [lexemesAt, hlexeme] at h
          obtain ⟨qs, q, rs, rfl, hfront, hq, hback⟩ := ih h
          refine ⟨p :: qs, q, rs, rfl, ?_, ?_, ?_⟩
          · rw [lexemesAt, hlexeme]
            exact hfront
          · simpa [Nat.add_assoc] using hq
          · simpa [Nat.add_assoc] using hback
      | some u =>
          rw [lexemesAt, hlexeme] at h
          cases front with
          | nil =>
              obtain ⟨rfl, hback⟩ := List.cons.inj h
              exact ⟨[], p, ps, rfl, rfl, hlexeme, hback⟩
          | cons v front =>
              obtain ⟨rfl, hrest⟩ := List.cons.inj h
              obtain ⟨qs, q, rs, rfl, hfront, hq, hback⟩ := ih hrest
              refine ⟨p :: qs, q, rs, rfl, ?_, ?_, ?_⟩
              · rw [lexemesAt, hlexeme, hfront]
                rfl
              · simpa [Nat.add_assoc] using hq
              · simpa [Nat.add_assoc] using hback

/-- The tokens that a piece which starts with an equal sign may stand for. -/
def Token.startsEqual : Token → Bool
  | operator _ | arrow | equals => true
  | _ => false

theorem codeBite_equals {inTag : Bool} {tail : List Char} {b : Bite}
    (h : codeBite inTag ('=' :: tail) = some b) : ∃ t, b.token = some t ∧ t.startsEqual = true := by
  have hsymbols : ∀ entry ∈ symbols, entry.1.head? = some '=' → entry.2.startsEqual = true := by
    decide
  have hsome : symbolAmong symbols ('=' :: tail) ≠ none := fun hnone =>
    symbolAmong_eq_none_iff.1 hnone (['='], .equals) (by decide) (by simp)
  obtain ⟨b', hb'⟩ := Option.ne_none_iff_exists'.1 hsome
  obtain rfl : b' = b := by simpa [codeBite, isSpace, isWordStart, hb'] using h
  obtain ⟨entry, hentry, htext, -, htoken⟩ := symbolAmong_eq_some hb'
  obtain ⟨c, spelling, hspelling⟩ := List.exists_cons_of_ne_nil (symbols_spelling entry hentry).1
  rw [hspelling] at htext
  obtain ⟨rfl, -⟩ := List.cons.inj htext
  exact ⟨entry.2, htoken, hsymbols entry hentry (by rw [hspelling]; rfl)⟩

theorem Name.head_tokens (name : Name) : ∀ t ∈ name.tokens.head?, ∃ text, t = .word text := by
  match name with
  | .plain _ | .namespaced _ _ | .member [] | .member (_ :: _) | .fragment => simp [tokens]

/-- After its `<`, an element goes on with a name, with an attribute or a spread, or with `>`. -/
theorem Written.next_after_less {skip : List Lexeme → Prop} {left : Span} {rest : List Lexeme}
    {e : Element} (h : Written skip (⟨.less, left⟩ :: rest) (.element e)) :
    next Token.startsEqual rest = false := by
  have hname : ∀ {names tail : List Lexeme} {name : Name},
      names.map Lexeme.token = name.tokens → next Token.startsEqual tail = false →
        next Token.startsEqual (names ++ tail) = false := by
    intro names tail name hname htail
    cases names with
    | nil => exact htail
    | cons t names =>
        obtain ⟨text, ht⟩ := name.head_tokens t.token (by simp [← hname])
        simp [ht, Token.startsEqual]
  have hitem : ∀ {t : Token}, t.startsItem = true → t.startsEqual = false := by
    intro t ht
    cases t <;> first | rfl | cases ht
  generalize hts : (⟨.less, left⟩ :: rest : List Lexeme) = ts at h
  cases h with
  | single _ _ hnames hitems =>
      obtain ⟨-, rfl⟩ := List.cons.inj hts
      exact hname hnames (next_items_append hitems.isForm rfl hitem rfl)
  | pair _ _ hnames hitems _ _ =>
      obtain ⟨-, rfl⟩ := List.cons.inj hts
      exact hname hnames (next_items_append hitems.isForm rfl hitem rfl)

/-- What is read in a tag does not start with an equal sign, unless its first lexeme may. -/
theorem Bitten.head_ne_equal {state : TagState} {outer after : Modes} {ps : List Piece}
    {rest : List Char} {offset : Nat} (h : Bitten (.tag state :: outer) ps rest after)
    (hnext : next Token.startsEqual (lexemesAt offset ps) = false) :
    (textOf ps).head? ≠ some '=' := by
  cases h with
  | done => simp
  | @step _ _ p ps _ hbite _ =>
      intro hhead
      obtain ⟨tail, htail⟩ := List.head?_eq_some_iff.1 hhead
      rw [textOf_cons] at htail
      rw [← List.append_assoc, htail] at hbite
      obtain ⟨t, htoken, ht⟩ := @codeBite_equals true _ _ hbite
      have hprose : Step.isBlankProse t = false := by cases t <;> first | rfl | cases ht
      have hlexeme : p.lexeme? offset = some ⟨t, ⟨offset, offset + byteLength p.text⟩⟩ := by
        simp [Piece.lexeme?, show p.token = some t from htoken, hprose]
      rw [lexemesAt, hlexeme] at hnext
      exact absurd ht (by simpa using hnext)

/-- What is read as a tag between a `<` and a `>` is read so alone: neither the modes around the `<`
nor what follows the `>` matter. -/
theorem Bitten.alone {outer after : Modes} {ps qs : List Piece} {offset : Nat}
    (h : Bitten (.tag {} :: outer) (ps ++ .greater :: qs) [] after)
    (hnext : next Token.startsEqual (lexemesAt offset (ps ++ .greater :: qs)) = false)
    (habreast : Abreast (.tag {} :: outer) [.tag {}] (lexemesAt offset ps))
    (hlast : (Modes.through (.tag {} :: outer) (lexemesAt offset ps)).InTag)
    (hlast' : (Modes.through [.tag {}] (lexemesAt offset ps)).InTag) :
    ∃ after', Bitten [] (.less :: (ps ++ [.greater])) [] after' := by
  have hequal := h.head_ne_equal hnext
  obtain ⟨mid, hps, -⟩ := h.exists_mid
  have hend : Bitten (.tag {} :: outer) ps ['>'] mid := by
    obtain ⟨state, hstate⟩ := hps.after_eq offset ▸ hlast
    refine hps.before (by simpa using Alike.greater (textOf qs) []) (fun hprose => ?_)
      (fun _ _ _ _ _ => by simp)
    rw [hstate] at hprose
    cases hprose
  have hunder := hend.under habreast
  obtain ⟨after', hclose⟩ : ∃ after',
      Bitten (Modes.through [.tag {}] (lexemesAt offset ps)) [.greater] [] after' := by
    have hin : Modes.InTag [.tag {}] := ⟨_, rfl⟩
    refine ⟨_, .step ?_ .done⟩
    rw [hlast'.scanner_eq hin]
    exact @codeBite_greater [] (by simp) true
  have htail : Bitten [.tag {}] (ps ++ [.greater]) [] after' :=
    .append (by simpa using hunder) hclose
  have hhead : (textOf (ps ++ [.greater])).head? ≠ some '=' := by
    simpa [List.head?_append] using hequal
  exact ⟨after', .step (codeBite_less (by simpa using hhead) false) htail⟩

/-- From a `<` to a `>`, what is read as a tag in its place is read so alone. -/
theorem lexemes_excerpt {source : String} {front inside back : List Lexeme} {left right : Span}
    {outer : Modes}
    (hlexemes : lexemes source =
      front ++ ⟨.less, left⟩ :: (inside ++ ⟨.greater, right⟩ :: back))
    (houter : Modes.through [] front = outer) (hmodes : ¬ outer.InTag)
    (hnext : next Token.startsEqual (inside ++ ⟨.greater, right⟩ :: back) = false)
    (habreast : Abreast (.tag {} :: outer) [.tag {}] inside)
    (hlast : (Modes.through (.tag {} :: outer) inside).InTag)
    (hlast' : (Modes.through [.tag {}] inside).InTag) :
    ∃ text, Slice source.toList ⟨left.start, right.stop⟩ text ∧
      (lexemes (String.ofList text)).map (Lexeme.relocate (left.start + ·)) =
        ⟨.less, left⟩ :: (inside ++ [⟨.greater, right⟩]) := by
  -- the pieces before the `<`, the `<`, those up to the `>`, the `>` and those after it
  obtain ⟨pieces, htext, hbitten, hpieces⟩ := exists_bitten_source source
  rw [hpieces] at hlexemes
  obtain ⟨ps, p, others, rfl, hfront, hp, hothers⟩ := exists_piece hlexemes
  obtain ⟨qs, q, rs, rfl, hinside, hq, -⟩ := exists_piece hothers
  obtain ⟨modes, hps, hrest⟩ := hbitten.exists_mid
  obtain rfl : modes = outer := by rw [hps.after_eq 0, hfront, houter]
  cases hrest with
  | step hless hrest =>
      obtain rfl : p = .less := Bitten.piece_eq hless hp rfl (by decide)
      obtain rfl : q = .greater := by
        obtain ⟨_, -, hend⟩ := hrest.exists_mid
        cases hend with
        | step hgreater _ => exact Bitten.piece_eq hgreater hq rfl (by decide)
      have hpast : modes.past .less = .tag {} :: modes := Modes.after_less hmodes
      rw [hpast] at hrest
      rw [← hinside] at habreast hlast hlast'
      obtain ⟨after', halone⟩ := hrest.alone (hothers ▸ hnext) habreast hlast hlast'
      have hleft : left = _ := (Piece.lexeme?_eq_some hp).2
      have hright : right = _ := (Piece.lexeme?_eq_some hq).2
      refine ⟨textOf (.less :: (qs ++ [.greater])), ⟨textOf rs, textOf ps, ?_, ?_, ?_⟩, ?_⟩
      · simp [← htext]
      · simp [hleft]
      · simp [hleft, hright]
        omega
      · have hstart : left.start = 0 + byteLength (textOf ps) := by rw [hleft]
        rw [halone.lexemes_eq (by simp), ← lexemesAt_eq, hstart, lexemesAt, hp, lexemesAt_append,
          hinside, lexemesAt, hq]
        rfl

/-! ### Trees -/

theorem Written.elements_single {skip : List Lexeme → Prop} {ts : List Lexeme} {e : Element}
    (h : Written skip ts (.element e)) : Written skip ts (.elements [e]) := by
  rw [← List.append_nil ts]
  exact .elements h .noElements

/-- Lexemes spell one element only. -/
theorem Spells.element_unique {ts : List Lexeme} {e e' : Element} (h : Spells ts (.element e))
    (h' : Spells ts (.element e')) : e = e' := by
  have hreads := reads_document_of_spells (d := ⟨[e]⟩) h.elements_single
  have hreads' := reads_document_of_spells (d := ⟨[e']⟩) h'.elements_single
  obtain ⟨heq, -⟩ := hreads.unique hreads'
  cases heq
  rfl

section Excerpt

variable {source : String} {d : Document} (h : Document.parse source = .ok d)
  (hplain : ∀ part ∈ d.parts, part.isSkipped = true → ∀ t ∈ lexemes source,
    Within t.span part.span → t.token ≠ .less)
  {e : Element} (he : Among d.elements e)
include h hplain he

/-- The lexemes of an element are those of its text, and spell it. -/
theorem exists_lexemes_excerpt : ∃ text, Slice source.toList e.span text ∧
    Spells ((lexemes (String.ofList text)).map (Lexeme.relocate (e.span.start + ·)))
      (.element e) := by
  have hempty := Modes.not_inTag_nil
  have hclean : Clean (lexemes source) (partsOf (walk d.elements)) := clean_lexemes hplain
  obtain ⟨front, us, back, hlexemes, hspells, hmodes⟩ :=
    ((spells_of_parse h).isCoupled [] [] hempty hempty rfl hclean).exists_of_among hclean he
  rw [hlexemes] at hclean
  obtain ⟨left, inside, right, last, last', rfl, hinside, hlast, hlast', -, -⟩ :=
    hspells.isCoupled _ [] hmodes hempty
      (hclean.right.left.mono (partsOf_subset he.events_subset_walk))
  obtain ⟨hthrough, hthrough'⟩ := hinside.through
  have hspan : e.span = ⟨left.start, right.stop⟩ := by
    simpa using (Spells.derives hspells).extent?_element.symm
  have hnext : next Token.startsEqual (inside ++ ⟨.greater, right⟩ :: back) = false := by
    have hfirst := hspells.next_after_less
    cases inside <;> exact hfirst
  obtain ⟨text, hslice, hmap⟩ := lexemes_excerpt (by simpa using hlexemes) rfl hmodes hnext
    hinside.abreast (by rwa [hthrough]) (by rwa [hthrough'])
  rw [hspan]
  exact ⟨text, hslice, hmap ▸ hspells⟩

/-- The text of an element is a source with that one element, put elsewhere. -/
theorem parse_excerpt : ∃ text, Slice source.toList e.span text ∧
    ∃ e', Document.parse (String.ofList text) = .ok ⟨[e']⟩ ∧
      e'.relocate (e.span.start + ·) = e := by
  obtain ⟨text, hslice, hspells⟩ := exists_lexemes_excerpt h hplain he
  have hinv : ∀ n, e.span.start + n - e.span.start = n := by omega
  have hback := hspells.derives_relocate (· - e.span.start)
  rw [Lexeme.relocate_relocate hinv] at hback
  -- the text spells some element, which is the one that stands elsewhere
  obtain ⟨e', he'⟩ : ∃ e', Spells (lexemes (String.ofList text)) (.element e') := hback.isSpelled
  have hparse : Document.parse (String.ofList text) = .ok ⟨[e']⟩ :=
    parse_of_spells he'.elements_single
  have hagain := Spells.relocate (g := (· - e.span.start)) hinv he'
  exact ⟨text, hslice, e', hparse, Spells.element_unique hagain hspells⟩

end Excerpt

/-! ### Elements within a stretch -/

theorem StrictlyWithin.within {inner outer : Span} (h : StrictlyWithin inner outer) :
    Within inner outer :=
  ⟨Nat.le_of_lt h.1, Nat.le_of_lt h.2⟩

theorem StrictlyWithin.not_within {inner outer : Span} (h : StrictlyWithin inner outer) :
    ¬ Within outer inner := fun hwithin =>
  absurd hwithin.1 (Nat.not_le_of_lt h.1)

/-- What ends before a stretch or starts after it does not lie in it. -/
theorem not_within_of_apart {inner outer : Span} (hne : inner.start < inner.stop)
    (h : inner.stop ≤ outer.start ∨ outer.stop ≤ inner.start) : ¬ Within inner outer := by
  rintro ⟨hstart, hstop⟩
  omega

theorem Orderly.filter_within_eq_nil {es : List Element} {span : Span} (h : Orderly es)
    (hapart : ∀ f, Among es f → f.span.stop ≤ span.start ∨ span.stop ≤ f.span.start) :
    (enteredOf (walk es)).filter (fun f => Within f.span span) = [] := by
  refine List.filter_eq_nil_iff.2 fun f hf => ?_
  have hmem := mem_enteredOf_walk.1 hf
  simpa using not_within_of_apart (h.nonempty hmem) (hapart f hmem)

/-- The elements that lie within an element of a forest are the element and what is nested in it. -/
theorem enteredOf_walk_within {es : List Element} {e : Element} (h : Orderly es) (he : Among es e) :
    (enteredOf (walk es)).filter (fun f => Within f.span e.span) = enteredOf (walk [e]) := by
  induction es using forest_induction with
  | nil => simp at he
  | cons g es ih ih' =>
      rw [enteredOf_walk_cons, List.filter_cons, List.filter_append]
      rcases among_cons.1 he with rfl | he | he
      · have hself : Within e.span e.span := ⟨Nat.le_refl _, Nat.le_refl _⟩
        have hnested : ∀ f ∈ enteredOf (walk e.nested), Within f.span e.span := fun f hf =>
          (h.within_head (mem_enteredOf_walk.1 hf)).within
        have hothers := h.tail.filter_within_eq_nil fun f hf => Or.inr (h.stop_head_le hf)
        rw [if_pos (by simpa using hself), List.filter_eq_self.2 (by simpa using hnested), hothers,
          enteredOf_walk_cons]
        simp [enteredOf]
      · have haround := h.within_head he
        have hothers := h.tail.filter_within_eq_nil fun f hf =>
          Or.inr (Nat.le_trans (Nat.le_of_lt haround.2) (h.stop_head_le hf))
        rw [if_neg (by simpa using haround.not_within), ih h.nested he, hothers, List.append_nil]
      · have hle := h.stop_head_le he
        have hnested := h.nested.filter_within_eq_nil fun f hf =>
          Or.inl (Nat.le_trans (Nat.le_of_lt (h.within_head hf).2) hle)
        have hhead := not_within_of_apart h.head_lt (Or.inl hle)
        rw [if_neg (by simpa using hhead), hnested, ih' h.tail he, List.nil_append]

end RoleAudit.Markup

namespace RoleAudit.Audit

open RoleAudit.Markup
open RoleAudit.Text

/-! ### Diagnostics -/

theorem RoleRule.offences_filter (r : RoleRule) (p : Element → Bool) (es : List Element) :
    r.offences (es.filter p) = (r.offences es).filter fun offence => p offence.1 := by
  rw [offences, offences, List.filterMap_filter, List.filter_filterMap]
  congr 1
  funext e
  cases hp : p e <;> cases r.offending? e.tag <;> simp [Option.filter_some, hp]

/-- An element means the same wherever it stands.  In a source that is parsed and in which nothing
that is skipped holds a `<`, the text of every element is a source with that one element, put
elsewhere, and an audit of it finds the offences on the elements within its stretch, in their order
and put elsewhere. -/
theorem element_excerpt (source : String) (d : Document) (h : Document.parse source = .ok d)
    (hplain : ∀ part ∈ d.parts, part.isSkipped = true → ∀ t ∈ lexemes source,
      Within t.span part.span → t.token ≠ .less)
    (e : Element) (he : Among d.elements e) :
    ∃ text, Slice source.toList e.span text ∧
      (∃ e', Document.parse (String.ofList text) = .ok ⟨[e']⟩ ∧
        e'.relocate (e.span.start + ·) = e) ∧
      ∀ r : RoleRule,
        auditSource [r.rule] source = .ok ((r.offences d.entered).map (r.report source)) ∧
        ∃ found, auditSource [r.rule] (String.ofList text) = .ok found ∧
          found.map (fun x => x.span.relocate (e.span.start + ·)) =
            ((r.offences d.entered).filter fun offence => Within offence.1.span e.span).map
              fun offence => (r.report source offence).span := by
  obtain ⟨text, hslice, e', hparse, hmoved⟩ := parse_excerpt h hplain he
  refine ⟨text, hslice, ⟨e', hparse, hmoved⟩, fun r => ⟨r.auditSource_eq h, _,
    r.auditSource_eq hparse, ?_⟩⟩
  have hentered : (d.entered.filter fun f => Within f.span e.span) =
      (Document.entered ⟨[e']⟩).map (Element.relocate (e.span.start + ·)) := by
    have hone := enteredOf_walk_relocate (f := (e.span.start + ·)) [e']
    rw [List.map_singleton, hmoved] at hone
    rw [d.entered_eq, enteredOf_walk_within (orderly_of_parse h) he, hone]
    rfl
  have hfilter := r.offences_filter (fun f => Within f.span e.span) d.entered
  rw [← hfilter, hentered, RoleRule.offences_relocate, List.map_map, List.map_map]
  exact List.map_congr_left fun offence _ => (Attribute.relocate_span offence.2).symm

/-- An element in an operand, after prose with a quote. -/
def operandSource : String :=
  "<p>it's \x7bok && <a role=\"x\"/>\x7d</p>"

/-- The element in the operand. -/
def operandElement : Element :=
  .single ⟨.plain "a", [.plain ⟨none, "role", some (.quoted "x" ⟨23, 26⟩), ⟨18, 26⟩⟩], ⟨15, 28⟩⟩

/-- What `operandSource` is parsed into. -/
def operandDocument : Document :=
  let condition : Expr := .logical .and (.name "ok") (.element operandElement)
  ⟨[.pair ⟨.plain "p", [], ⟨0, 3⟩⟩ [.prose ⟨3, 8⟩, .braced ⟨.expr condition, ⟨8, 29⟩⟩] ⟨29, 33⟩]⟩

theorem element_excerpt_sample : Document.parse operandSource = .ok operandDocument ∧
    Among operandDocument.elements operandElement ∧
    ∃ text, Slice operandSource.toList ⟨15, 28⟩ text ∧
      (∃ e, Document.parse (String.ofList text) = .ok ⟨[e]⟩ ∧
        e.relocate (15 + ·) = operandElement) ∧
      ∃ found, auditSource [buttonRule.rule] (String.ofList text) = .ok found ∧
        found.map (fun x => x.span.relocate (15 + ·)) = [⟨18, 26⟩] := by
  have hparse : Document.parse operandSource = .ok operandDocument := by with_unfolding_all rfl
  have hplain : ∀ part ∈ operandDocument.parts, part.isSkipped = true →
      ∀ t ∈ lexemes operandSource, Within t.span part.span → t.token ≠ .less := by decide +kernel
  have hamong : Among operandDocument.elements operandElement :=
    .inside List.mem_cons_self (.here List.mem_cons_self)
  obtain ⟨text, hslice, hmoved, haudit⟩ := element_excerpt operandSource operandDocument hparse
    hplain operandElement hamong
  obtain ⟨-, found, hfound, hspans⟩ := haudit buttonRule
  refine ⟨hparse, hamong, text, hslice, hmoved, found, hfound, hspans.trans ?_⟩
  with_unfolding_all rfl

end RoleAudit.Audit
