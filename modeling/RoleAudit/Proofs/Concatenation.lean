import RoleAudit.Proofs.Positions
import RoleAudit.Proofs.Relocation
import RoleAudit.Proofs.StaticValues

/-!
# One source after another

Two sources that are parsed make up one that is.  The first has to leave nothing open: no stray
piece, as what follows might close its quote or its comment, and no mode, so that the second is read
from the empty stack as it is alone.  Neither is a piece torn between the two, for the second starts
with a space, a comment or a `<`, and none of these goes on with what stands before.

Hence the lexemes, the elements and the diagnostics of the two follow one another, those of the
second moved on by the length of the first.

Main statements: `lexemes_append`, `parse_append` and `auditSource_append`, which `sources_compose`
puts together.
-/

namespace RoleAudit.Markup

open RoleAudit.Text
open Reader Grammar

/-! ### Lexemes -/

/-- The lexemes of a document start with `<`, if there are any. -/
theorem Written.starts_elements {skip : List Lexeme → Prop} {ts : List Lexeme} {es : List Element}
    (h : Written skip ts (.elements es)) : ∀ t ∈ ts.head?, t.token = .less := by
  cases h with
  | noElements => simp
  | elements h _ => cases h <;> simp

/-- A document starts with a character that goes on with nothing before it. -/
theorem not_joins_of_parse {source : String} {d : Document} (h : Document.parse source = .ok d) :
    ∀ c ∈ source.toList.head?, joins c = false := by
  obtain ⟨ps, htext, hbitten, hlexemes⟩ := exists_bitten_source source
  have hstarts := (derives_of_parse h).starts_elements
  rw [← htext]
  generalize finalModes source = after at hbitten
  cases hbitten with
  | done => simp
  | @step _ _ p ps _ hbite _ =>
      obtain ⟨hne, haccounts⟩ := Bitten.takes hbite
      obtain ⟨d, text, hp⟩ := List.exists_cons_of_ne_nil hne
      intro c hc
      obtain rfl : d = c := by simpa [hp] using hc
      cases htoken : p.token with
      | none =>
          -- a space or a comment
          rw [htoken] at haccounts
          cases hp ▸ haccounts.2 with
          | space hspace =>
              simp only [isSpace, Bool.or_eq_true, decide_eq_true_eq] at hspace
              rcases hspace with (((rfl | rfl) | rfl) | rfl) | rfl <;> rfl
          | comment _ => rfl
      | some t =>
          rw [htoken] at haccounts
          have hprose : Step.isBlankProse t = false := by
            cases t with
            | prose text => exact absurd haccounts.1 (by simp)
            | _ => rfl
          have hlexeme : p.lexeme? 0 = some ⟨t, ⟨0, 0 + byteLength p.text⟩⟩ := by
            simp [Piece.lexeme?, htoken, hprose]
          have hhead : (lexemes source).head? = some ⟨t, ⟨0, 0 + byteLength p.text⟩⟩ := by
            rw [hlexemes, lexemesAt, hlexeme]
            rfl
          obtain rfl : t = .less := hstarts _ hhead
          obtain rfl : p = .less := Bitten.piece_eq hbite hlexeme rfl (by decide)
          cases hp
          rfl

/-- The lexemes of a source that leaves nothing open are followed by those of what comes after. -/
theorem lexemes_append {first second : String}
    (hknown : ∀ t ∈ lexemes first, t.token.isStray = false) (hmodes : finalModes first = [])
    (hsecond : ∀ c ∈ second.toList.head?, joins c = false) : lexemes (first ++ second) =
      lexemes first ++
        (lexemes second).map (Lexeme.relocate (byteLength first.toList + ·)) := by
  obtain ⟨ps, htext, hlexemes, hbitten⟩ := exists_bitten_before hknown
  obtain ⟨qs, htext', hbitten', hlexemes'⟩ := exists_bitten_source second
  rw [hmodes] at hbitten
  have hfront : Bitten [] ps (textOf qs ++ []) [] :=
    hbitten _ (by rwa [List.append_nil, htext']) (by simp)
  have hall : textOf (ps ++ qs) = (first ++ second).toList := by
    rw [textOf_append, htext, htext', String.toList_append]
  rw [(hfront.append hbitten').lexemes_eq hall, lexemesAt_append, Nat.zero_add,
    lexemesAt_eq (byteLength _), hlexemes, hlexemes', htext]

/-! ### Elements -/

theorem Written.append_elements {skip : List Lexeme → Prop} {ts us : List Lexeme}
    {es fs : List Element} (h : Written skip ts (.elements es))
    (h' : Written skip us (.elements fs)) : Written skip (ts ++ us) (.elements (es ++ fs)) := by
  induction es generalizing ts with
  | nil =>
      cases h
      exact h'
  | cons e es ih =>
      cases h with
      | elements h hothers =>
          rw [List.append_assoc]
          exact .elements h (ih hothers)

/-- A document after another that leaves nothing open: their elements follow one another. -/
theorem parse_append {first second : String} {d d' : Document}
    (h : Document.parse first = .ok d) (h' : Document.parse second = .ok d')
    (hknown : ∀ t ∈ lexemes first, t.token.isStray = false) (hmodes : finalModes first = []) :
    Document.parse (first ++ second) = .ok
      ⟨d.elements ++ d'.elements.map (Element.relocate (byteLength first.toList + ·))⟩ := by
  have hinv : ∀ n, byteLength first.toList + n - byteLength first.toList = n := by omega
  refine parse_of_spells ?_
  rw [lexemes_append hknown hmodes (not_joins_of_parse h')]
  exact (spells_of_parse h).append_elements
    (Spells.relocate (g := (· - byteLength first.toList)) hinv (spells_of_parse h'))

/-- Every attribute in a source lies in it. -/
theorem attribute_stop_le {source : String} {d : Document} (h : Document.parse source = .ok d)
    {e : Element} (he : Among d.elements e) {attr : Attribute} (hattr : attr ∈ e.tag.attributes) :
    attr.span.start ≤ attr.span.stop ∧ attr.span.stop ≤ byteLength source.toList := by
  obtain ⟨ts, hts, hwrites⟩ := writes_of_among h he
  obtain ⟨us, -, hus, -, hitems, -⟩ := hwrites.element_lists
  obtain ⟨vs, hvs, hitem⟩ := hitems.scattered_items.exists_of_mem (Tag.mem_attributes.1 hattr)
  have hstretch := (hvs.trans hus).trans hts
  obtain ⟨-, ⟨t, ht, hstop⟩, hlt⟩ :=
    ((ordered_lexemes source).of_isInfix hstretch).bounds hitem.extent?_item
  refine ⟨Nat.le_of_lt hlt, ?_⟩
  obtain ⟨-, text, rest, ⟨before, hsource, hstart', hstop'⟩, -⟩ :=
    slice_of_mem_lexemes (hstretch.subset ht)
  have hstop'' : attr.span.stop = t.span.stop := hstop
  rw [hstop'', hstop', hstart', hsource, byteLength_append, byteLength_append]
  omega

end RoleAudit.Markup

namespace RoleAudit.Audit

open RoleAudit.Markup
open RoleAudit.Text

/-! ### Diagnostics -/

/-- A diagnostic that is about a stretch `offset` bytes further on, in another source. -/
def Diagnostic.moved (source : String) (offset : Nat) (found : Diagnostic) : Diagnostic :=
  let span := found.span.relocate (offset + ·)
  { found with span, location := (Lines.ofText source).location span }

namespace RoleRule

variable (r : RoleRule)

theorem offences_append (es fs : List Element) :
    r.offences (es ++ fs) = r.offences es ++ r.offences fs :=
  List.filterMap_append

theorem mem_attributes {tag : Tag} {attr : Attribute} (h : r.offending? tag = some attr) :
    attr ∈ tag.attributes :=
  List.mem_of_find?_eq_some (known_of_offending? h).1

/-- An offence elsewhere is reported elsewhere. -/
theorem report_relocate {source : String} {offset : Nat} (source' : String) (offence : Offence) :
    r.report source (offence.1.relocate (offset + ·), offence.2.relocate (offset + ·)) =
      Diagnostic.moved source offset (r.report source' offence) := by
  rw [report, Attribute.relocate_span]
  rfl

/-- An audit with the rule alone reports its offences, in their order. -/
theorem auditDocument_eq (source : String) (d : Document) :
    auditDocument [r.rule] d source = (r.offences d.entered).map (r.report source) := by
  rw [auditDocument_singleton r.rule_isLocal, flatMap_reports]

theorem auditSource_eq {source : String} {d : Document} (h : Document.parse source = .ok d) :
    auditSource [r.rule] source = .ok ((r.offences d.entered).map (r.report source)) := by
  rw [auditSource, h, ← r.auditDocument_eq]
  rfl

/-- The diagnostics of two sources, one after the other, are those of the first, as they are, and
those of the second, moved on by the length of the first. -/
theorem auditSource_append {first second : String} {d d' : Document}
    (h : Document.parse first = .ok d) (h' : Document.parse second = .ok d')
    (hknown : ∀ t ∈ lexemes first, t.token.isStray = false) (hmodes : finalModes first = []) :
    ∃ found found', auditSource [r.rule] first = .ok found ∧
      auditSource [r.rule] second = .ok found' ∧ auditSource [r.rule] (first ++ second) = .ok
        (found ++ found'.map (Diagnostic.moved (first ++ second) (byteLength first.toList))) := by
  refine ⟨_, _, r.auditSource_eq h, r.auditSource_eq h', ?_⟩
  have hentered : Document.entered
      ⟨d.elements ++ d'.elements.map (Element.relocate (byteLength first.toList + ·))⟩ =
        d.entered ++ d'.entered.map (Element.relocate (byteLength first.toList + ·)) := by
    rw [Document.entered_eq, Document.entered_eq, Document.entered_eq, walk_append, enteredOf,
      List.filterMap_append]
    exact congrArg _ (enteredOf_walk_relocate _)
  have hfirst : ∀ offence ∈ r.offences d.entered,
      r.report (first ++ second) offence = r.report first offence := by
    intro offence hoffence
    obtain ⟨he, hattr⟩ := r.mem_offences.1 hoffence
    rw [Document.entered_eq, mem_enteredOf_walk] at he
    obtain ⟨hle, hle'⟩ := attribute_stop_le h he (r.mem_attributes hattr)
    simp only [report, Rule.diagnostic, Lines.location,
      Lines.position_append (Nat.le_trans hle hle'), Lines.position_append hle']
  rw [r.auditSource_eq (parse_append h h' hknown hmodes), hentered, offences_append,
    offences_relocate, List.map_append, List.map_map, List.map_map, List.map_congr_left hfirst]
  exact congrArg (fun found => Except.ok (_ ++ found))
    (List.map_congr_left fun offence _ => r.report_relocate second offence)

end RoleRule

/-- Sources compose.  Of two sources that are parsed, the first of which leaves no piece and no mode
open, the elements and the diagnostics follow one another, those of the second moved on by the
length of the first. -/
theorem sources_compose (first second : String) (d d' : Document)
    (h : Document.parse first = .ok d) (h' : Document.parse second = .ok d')
    (hknown : ∀ t ∈ lexemes first, t.token.isStray = false) (hmodes : finalModes first = []) :
    Document.parse (first ++ second) = .ok
        ⟨d.elements ++ d'.elements.map (Element.relocate (byteLength first.toList + ·))⟩ ∧
      ∀ r : RoleRule, ∃ found found', auditSource [r.rule] first = .ok found ∧
        auditSource [r.rule] second = .ok found' ∧ auditSource [r.rule] (first ++ second) = .ok
          (found ++ found'.map (Diagnostic.moved (first ++ second) (byteLength first.toList))) :=
  ⟨parse_append h h' hknown hmodes, fun r => r.auditSource_append h h' hknown hmodes⟩

/-- A source of two lines. -/
def linesSource : String :=
  "<p\n role=\"x\" />\n"

/-- What `linesSource` is parsed into. -/
def linesDocument : Document :=
  ⟨[.single ⟨.plain "p", [.plain ⟨none, "role", some (.quoted "x" ⟨9, 12⟩), ⟨4, 12⟩⟩], ⟨0, 15⟩⟩]⟩

theorem sources_compose_sample : Document.parse linesSource = .ok linesDocument ∧
    Document.parse nestedSource = .ok nestedDocument ∧
    (∀ t ∈ lexemes linesSource, t.token.isStray = false) ∧ finalModes linesSource = [] ∧
    Document.parse (linesSource ++ nestedSource) = .ok
      ⟨linesDocument.elements ++ nestedDocument.elements.map (Element.relocate (16 + ·))⟩ ∧
    ∃ found found', auditSource [buttonRule.rule] linesSource = .ok found ∧
      auditSource [buttonRule.rule] nestedSource = .ok found' ∧
      auditSource [buttonRule.rule] (linesSource ++ nestedSource) = .ok
        (found ++ found'.map (Diagnostic.moved (linesSource ++ nestedSource) 16)) := by
  have hparse : Document.parse linesSource = .ok linesDocument := by with_unfolding_all rfl
  have hknown : ∀ t ∈ lexemes linesSource, t.token.isStray = false := by decide +kernel
  have hmodes : finalModes linesSource = [] := by decide +kernel
  have hlength : byteLength linesSource.toList = 16 := by decide +kernel
  have hcompose := sources_compose linesSource nestedSource linesDocument nestedDocument hparse
    parse_nestedSource hknown hmodes
  rw [hlength] at hcompose
  exact ⟨hparse, parse_nestedSource, hknown, hmodes, hcompose.1, hcompose.2 buttonRule⟩

end RoleAudit.Audit
