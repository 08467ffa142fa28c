import RoleAudit.Proofs.Failures
import RoleAudit.Proofs.Names
import RoleAudit.Proofs.Placement
import RoleAudit.Proofs.Positions

/-!
# Where syntax errors are

A source that is refused is refused for one reason, and the error says where in the source that is:
at a token that fits nowhere, at the end of the source, or at a closing tag that does not fit.  The
stretch that it points at is a stretch of the source, and its lines and columns are those of the two
ends of this stretch.

Main statement: `rejection_is_located`.
-/

namespace RoleAudit.Text

theorem utf8ByteSize_ofList (text : List Char) :
    (String.ofList text).utf8ByteSize = byteLength text := by
  induction text with
  | nil => rfl
  | cons c text ih =>
      rw [← List.singleton_append, String.ofList_append, String.utf8ByteSize_append, ih]
      simp

theorem byteLength_toList (text : String) : byteLength text.toList = text.utf8ByteSize := by
  rw [← utf8ByteSize_ofList, String.ofList_toList]

end RoleAudit.Text

namespace RoleAudit.Markup

open RoleAudit.Text
open Grammar

/-- What a syntax error of a source can say, and about which stretch of it. -/
inductive Complains (source : String) : String → Span → Prop
  /-- A token that fits nowhere, where it stands. -/
  | unexpected {t : Lexeme} (h : t ∈ lexemes source) :
      Complains source ("unexpected \x60" ++ t.token.spelling ++ "\x60") t.span
  /-- The end of the source, behind its last byte. -/
  | unexpectedEnd :
      Complains source "unexpected end of input" ⟨source.utf8ByteSize, source.utf8ByteSize⟩
  /-- A closing tag, from its `<` to its `>`, that spells another name than the one to be closed. -/
  | mismatch {opened closed : Name} {before names after : List Lexeme} {left slash right : Span}
      (htag : lexemes source = before ++
        ⟨.less, left⟩ :: ⟨.slash, slash⟩ :: (names ++ ⟨.greater, right⟩ :: after))
      (hname : names.map Lexeme.token = closed.tokens) (hne : opened.render ≠ closed.render) :
      Complains source ("expected closing tag for <" ++ opened.render ++ ">, found </" ++
        closed.render ++ ">") ⟨left.start, right.stop⟩

/-- An error points at a stretch of a source, and its location tells the two ends of it. -/
structure IsLocated (source : String) (span : Span) (location : Location) : Prop where
  start_le_stop : span.start ≤ span.stop
  stop_le : span.stop ≤ source.utf8ByteSize
  /-- Lines and columns are those of the texts up to the two ends. -/
  exists_texts : ∃ before inside after, source.toList = before ++ inside ++ after ∧
    span = ⟨byteLength before, byteLength (before ++ inside)⟩ ∧
      location = ⟨.afterText before, .afterText (before ++ inside)⟩

theorem Slice.isLocated {source : String} {span : Span} {text : List Char}
    (h : Slice source.toList span text) :
    IsLocated source span ((Lines.ofText source).location span) := by
  obtain ⟨after, before, hsource, hstart, hstop⟩ := h
  have hspan : span = ⟨byteLength before, byteLength (before ++ text)⟩ := by
    cases span
    simp only [byteLength_append] at hstart hstop ⊢
    rw [hstop, hstart]
  have hsource' : source.toList = before ++ (text ++ after) := by rw [hsource, List.append_assoc]
  have hsize : source.utf8ByteSize = byteLength (before ++ text) + byteLength after := by
    rw [← byteLength_toList, hsource, byteLength_append]
  refine ⟨by omega, ?_, before, text, after, hsource, hspan, ?_⟩
  · rw [hspan, hsize]
    exact Nat.le_add_right _ _
  · rw [Lines.location, hspan, Lines.position_byteLength hsource',
      Lines.position_byteLength hsource]

/-- The end of a source is the stretch after all of it. -/
theorem slice_end (source : String) :
    Slice source.toList ⟨source.utf8ByteSize, source.utf8ByteSize⟩ [] :=
  ⟨[], source.toList, by simp, (byteLength_toList source).symm, by simp⟩

/-- Lexemes stop within the source. -/
theorem stop_le_of_mem_lexemes {source : String} {t : Lexeme} (h : t ∈ lexemes source) :
    t.span.stop ≤ source.utf8ByteSize := by
  obtain ⟨_, text, rest, hcut, -⟩ := slice_of_mem_lexemes h
  exact (Slice.isLocated ⟨rest, hcut⟩).stop_le

/-- Names that are written in a source by their words have texts of their own. -/
theorem IsWrittenIn.render_inj {source : String} {front : List Lexeme} {a b : Name}
    (hfront : front ⊆ lexemes source) (ha : IsWrittenIn a front) (hb : IsWrittenIn b front)
    (h : a.render = b.render) : a = b := by
  have hwords : ∀ {n : Name}, IsWrittenIn n front → ∀ text ∈ n.words, IsWordText text := by
    intro n hn text htext
    have htoken := hn.2.subset (Name.mem_words_of_mem_tokens.2 htext)
    obtain ⟨⟨_, span⟩, ht, rfl⟩ := List.mem_map.1 htoken
    exact isWordText_of_mem_lexemes (hfront ht)
  exact Name.render_inj ha.1 hb.1 (hwords ha) (hwords hb) h

/-- Where reading a document fails, if it does. -/
theorem exists_failure_of_error {source : String} {e : SyntaxError}
    (h : Document.parse source = .error e) : ∃ f front, lexemes source = front ++ f.rest ∧
      Missed (fun _ => False) front f ∧
        (e.complaint, e.span) = f.complaint (lexemes source) source.utf8ByteSize ∧
          e.location = (Lines.ofText source).location e.span := by
  unfold Document.parse Document.ofLexemes at h
  rcases hdocument : document (lexemes source) with ⟨_ | read, failure⟩ <;> rw [hdocument] at h
  · obtain rfl := Except.error.inj h
    cases failure with
    | none => exact ⟨⟨lexemes source, .unexpected⟩, [], rfl, .here _, rfl, rfl⟩
    | some f =>
        obtain ⟨front, hfront, hmissed⟩ := meets_document (by rw [hdocument])
        exact ⟨f, front, hfront, hmissed, rfl, rfl⟩
  · cases h

/-- Every refusal of a source says what is wrong, points at it, and tells the lines and columns of
what it points at. -/
theorem rejection_is_located (source : String) (e : SyntaxError)
    (h : Document.parse source = .error e) :
    Complains source e.complaint.message e.span ∧ IsLocated source e.span e.location := by
  obtain ⟨⟨rest, cause⟩, front, hlexemes, hmissed, hcomplaint, hlocation⟩ :=
    exists_failure_of_error h
  rw [hlocation]
  dsimp only at hlexemes
  cases cause with
  | unexpected =>
      cases rest with
      | cons t rest =>
          obtain ⟨hmessage, hspan⟩ := Prod.mk.inj hcomplaint
          have ht : t ∈ lexemes source := by simp [hlexemes]
          obtain ⟨_, text, rest', hcut, -⟩ := slice_of_mem_lexemes ht
          rw [hmessage, hspan]
          exact ⟨.unexpected ht, Slice.isLocated ⟨rest', hcut⟩⟩
      | nil =>
          obtain ⟨hmessage, hspan⟩ := Prod.mk.inj hcomplaint
          -- the last lexeme does not reach beyond the source
          have hlast : max source.utf8ByteSize (((lexemes source).getLast?.map
              (·.span.stop)).getD source.utf8ByteSize) = source.utf8ByteSize := by
            cases hlast : (lexemes source).getLast? with
            | none => simp
            | some t =>
                have hle := stop_le_of_mem_lexemes (List.mem_of_getLast? hlast)
                exact Nat.max_eq_left hle
          rw [hlast] at hspan
          rw [hmessage, hspan]
          exact ⟨.unexpectedEnd, (slice_end source).isLocated⟩
  | mismatch opened closed tag =>
      obtain ⟨hmessage, hspan⟩ := Prod.mk.inj hcomplaint
      obtain ⟨hne, ⟨hproper, before, left, slash, names, right, rfl, hnames, rfl⟩,
        hfalse | hopened⟩ := hmissed.mismatch opened closed tag rfl
      · exact hfalse.elim
      have htag : lexemes source = before ++
          ⟨.less, left⟩ :: ⟨.slash, slash⟩ :: (names ++ ⟨.greater, right⟩ :: rest) := by
        rw [hlexemes]
        simp
      have hinfix : ⟨.less, left⟩ :: ((⟨.slash, slash⟩ :: names) ++ [⟨.greater, right⟩]) <:+:
          lexemes source := ⟨before, rest, by rw [htag]; simp⟩
      obtain ⟨text, hslice⟩ := slice_between hinfix
      have hle := hslice.isLocated.start_le_stop
      have hclosed : IsWrittenIn closed (before ++ ⟨.less, left⟩ :: ⟨.slash, slash⟩ ::
          (names ++ [⟨.greater, right⟩])) := by
        refine ⟨hproper, before.map Lexeme.token ++ [.less, .slash], [.greater], ?_⟩
        simp [hnames]
      have hsubset : before ++ ⟨.less, left⟩ :: ⟨.slash, slash⟩ :: (names ++ [⟨.greater, right⟩]) ⊆
          lexemes source := by
        rw [hlexemes]
        exact List.subset_append_left _ _
      rw [Nat.max_eq_right hle] at hspan
      have hrender : opened.render ≠ closed.render := fun heq =>
        hne (hopened.render_inj hsubset hclosed heq)
      have hcomplains : Complains source (Complaint.mismatch opened closed).message
          ⟨left.start, right.stop⟩ := .mismatch htag hnames hrender
      rw [hmessage, hspan]
      exact ⟨hcomplains, hslice.isLocated⟩

/-- A closing tag of another name, in the second line of its source. -/
theorem rejection_is_located_sample :
    Document.parse "<a>\n\u00e9</b>" = .error ⟨.mismatch (.plain "a") (.plain "b"), ⟨6, 10⟩,
      ⟨⟨1, 2⟩, ⟨1, 6⟩⟩⟩ ∧
    Complains "<a>\n\u00e9</b>" "expected closing tag for <a>, found </b>" ⟨6, 10⟩ ∧
      IsLocated "<a>\n\u00e9</b>" ⟨6, 10⟩ ⟨⟨1, 2⟩, ⟨1, 6⟩⟩ := by
  have hparse : Document.parse "<a>\n\u00e9</b>" = .error
      ⟨.mismatch (.plain "a") (.plain "b"), ⟨6, 10⟩, ⟨⟨1, 2⟩, ⟨1, 6⟩⟩⟩ := by
    with_unfolding_all rfl
  have hmessage : (Complaint.mismatch (.plain "a") (.plain "b")).message =
      "expected closing tag for <a>, found </b>" := by decide +kernel
  have hlocated := rejection_is_located _ _ hparse
  dsimp only at hlocated
  rw [hmessage] at hlocated
  exact ⟨hparse, hlocated⟩

end RoleAudit.Markup
