import RoleAudit.Proofs.TagText

/-!
# Tags put in the place of an element

The text of an element without attributes that closes itself is taken out of a source that is
parsed, and an opening and a closing tag with different names are put there.  The lexemes before it
stay, unless what is put there ends a comment or a text in quotes that was left open
(`lexemes_substitute`); the lexemes after it stay if the scanner goes on under the same modes, and
it does where the modes follow the document.

If the element is reached through children alone, the source is no longer parsed.  If a pair of
braces stands around it, the source is parsed all the same: what stands in the braces is then
skipped.

Main statement: `mismatch_refused_outside_braces`.
-/

namespace RoleAudit.Text

/-- The front of a text up to a byte offset, and the text after it. -/
def splitBytes : Nat → List Char → List Char × List Char
  | _, [] => ([], [])
  | offset, c :: rest =>
      if offset = 0 then ([], c :: rest)
      else
        let parts := splitBytes (offset - c.utf8Size) rest
        (c :: parts.1, parts.2)

theorem splitBytes_append (front rest : List Char) :
    splitBytes (byteLength front) (front ++ rest) = (front, rest) := by
  induction front with
  | nil => cases rest <;> rfl
  | cons c front ih =>
      have hpos := c.utf8Size_pos
      rw [byteLength_cons, List.cons_append, splitBytes, if_neg (by omega), Nat.add_sub_cancel_left,
        ih]

/-- A source with another text in the place of a stretch. -/
def substitute (source : String) (span : Span) (text : String) : String :=
  String.ofList ((splitBytes span.start source.toList).1 ++ text.toList ++
    (splitBytes span.stop source.toList).2)

theorem substitute_eq {source : String} {before inside after : List Char}
    (h : source.toList = before ++ (inside ++ after)) (text : String) :
    substitute source ⟨byteLength before, byteLength before + byteLength inside⟩ text =
      String.ofList (before ++ (text.toList ++ after)) := by
  have hstop : splitBytes (byteLength before + byteLength inside) (before ++ (inside ++ after)) =
      (before ++ inside, after) := by
    rw [← byteLength_append, ← List.append_assoc, splitBytes_append]
  rw [substitute, h, splitBytes_append, hstop, List.append_assoc]

end RoleAudit.Text

namespace RoleAudit.Markup

open RoleAudit.Text
open Reader Grammar

/-! ### In the place of an element -/

theorem Alike.of_not_joins {c : Char} (h : joins c = false) (rest rest' : List Char) :
    Alike (c :: rest) (c :: rest') := by
  intro front hfront
  cases hfront with
  | one hd | two hd _ =>
      refine iff_of_false ?_ ?_ <;>
      · intro hprefix
        obtain ⟨rfl, -⟩ := List.cons_prefix_cons.1 hprefix
        first
          | (rw [h] at hd; cases hd)
          | (rw [joins_of_joinsWithNext hd] at h; cases h)

/-- Where a `>` is a token of its own, no equal sign follows. -/
theorem head_ne_equal_of_greater {modes : Modes} {rest : List Char} {width : Nat}
    (h : modes.scanner.bite ('>' :: rest) = some ⟨some .greater, width, rest⟩) :
    rest.head? ≠ some '=' := by
  intro hequal
  obtain ⟨tail, rfl⟩ := List.head?_eq_some_iff.1 hequal
  by_cases hprose : modes.head? = some .prose
  · match modes, hprose, h with
    | .prose :: _, _, h => simp [Modes.scanner, Scanner.prose, proseBite] at h
  · obtain ⟨inTag, hscanner⟩ := bite_of_not_prose hprose
    rw [hscanner, codeBite_greaterEqual] at h
    cases h

theorem map_token_lexemesAt_elsewhere (offset offset' : Nat) (ps : List Piece) :
    (lexemesAt offset ps).map Lexeme.token = (lexemesAt offset' ps).map Lexeme.token := by
  rw [lexemesAt_eq offset, lexemesAt_eq offset', map_token_relocate, map_token_relocate]

theorem map_token_lexemesAt {toks : List Token}
    (h : ∀ t ∈ toks, Step.isBlankProse t = false) (offset : Nat) :
    (lexemesAt offset (toks.map Token.piece)).map Lexeme.token = toks := by
  induction toks generalizing offset with
  | nil => rfl
  | cons t toks ih =>
      have hlexeme : t.piece.lexeme? offset =
          some ⟨t, ⟨offset, offset + byteLength t.piece.text⟩⟩ := by
        simp [Piece.lexeme?, Token.piece, h t List.mem_cons_self]
      rw [List.map_cons, lexemesAt, hlexeme, List.map_append,
        ih fun u hu => h u (List.mem_cons_of_mem _ hu)]
      rfl

theorem isBlankProse_mismatchedTokens {n m : Name} :
    ∀ t ∈ mismatchedTokens n m, Step.isBlankProse t = false := by
  intro t ht
  rcases mem_mismatchedTokens ht with ⟨_, rfl⟩ | rfl | rfl | rfl | rfl | rfl <;> rfl

/-- Before the text of the two tags, the pieces before an element are bitten off as they were. -/
theorem Bitten.instead_of_element {ps : List Piece} {modes : Modes} {inside rest : List Char}
    (h : Bitten [] ps ('<' :: inside ++ rest) modes) {n m : Name}
    (hn : ∀ word ∈ n.words, isTagWord word = true) (hm : ∀ word ∈ m.words, isTagWord word = true)
    (hquiet : ∀ p ∈ ps, ∀ t ∈ p.token, t.isStray = true → ∀ c ∈ '<' :: inside,
      isQuiet c = true) :
    Bitten [] ps ((mismatchedTags n m).toList ++ rest) modes := by
  have hless : joins '<' = false := by decide
  obtain ⟨tail, htail⟩ : ∃ tail, (mismatchedTags n m).toList = '<' :: tail := by
    rw [← textOf_mismatched]
    exact ⟨_, rfl⟩
  have htags := isQuiet_mismatchedTags hn hm
  rw [htail] at htags ⊢
  refine h.instead (.of_not_joins hless _ _) (fun _ c hc => ?_) fun p hp t ht hstray front => ?_
  · obtain rfl : '<' = c := by simpa using hc
    rfl
  · exact staysOpen_exchange (fun c hc => htags c (List.mem_cons_of_mem _ hc))
      (fun c hc => hquiet p hp t ht hstray c (List.mem_cons_of_mem _ hc)) front

/-- What starts with a `<` and stops with a `>` divides the pieces of a source: those before it, of
which the lexemes before it are, and those after it. -/
theorem exists_pieces_around {source : String} {front inside back : List Lexeme}
    {left right : Span}
    (h : lexemes source = front ++ ⟨.less, left⟩ :: (inside ++ ⟨.greater, right⟩ :: back)) :
    ∃ ps text rs final, source.toList = textOf ps ++ (('<' :: text) ++ textOf rs) ∧
      (⟨left.start, right.stop⟩ : Span) =
        ⟨byteLength (textOf ps), byteLength (textOf ps) + byteLength ('<' :: text)⟩ ∧
      lexemesAt 0 ps = front ∧ (∃ offset, lexemesAt offset rs = back) ∧
      Bitten [] ps (('<' :: text) ++ textOf rs) (Modes.through [] front) ∧
      Bitten ((Modes.through [] front).through (⟨.less, left⟩ :: (inside ++ [⟨.greater, right⟩])))
        rs [] final ∧ (textOf rs).head? ≠ some '=' := by
  obtain ⟨pieces, htext, hbitten, hpieces⟩ := exists_bitten_source source
  rw [hpieces] at h
  obtain ⟨ps, p, others, rfl, hfront, hp, hothers⟩ := exists_piece h
  obtain ⟨qs, q, rs, rfl, hinside, hq, hback⟩ := exists_piece hothers
  generalize finalModes source = final at hbitten
  obtain ⟨modes, hps, hrest⟩ := hbitten.exists_mid
  obtain rfl : modes = Modes.through [] front := by rw [hps.after_eq 0, hfront]
  cases hrest with
  | step hless hrest =>
      obtain rfl : p = .less := Bitten.piece_eq hless hp rfl (by decide)
      obtain ⟨mid, hqs, hend⟩ := hrest.exists_mid
      cases hend with
      | step hgreater hrs =>
          obtain rfl : q = .greater := Bitten.piece_eq hgreater hq rfl (by decide)
          rw [List.append_nil] at hgreater
          have hleft : left = _ := (Piece.lexeme?_eq_some hp).2
          have hright : right = _ := (Piece.lexeme?_eq_some hq).2
          have hpast : mid.past .greater = (Modes.through [] front).through
              (⟨.less, left⟩ :: (inside ++ [⟨.greater, right⟩])) := by
            rw [Bitten.past_of_lexeme?_eq_some hq, hqs.after_eq _, hinside,
              Bitten.past_of_lexeme?_eq_some hp]
            simp
          refine ⟨ps, textOf qs ++ ['>'], rs, final, by simp [← htext], ?_, hfront, ⟨_, hback⟩,
            by simpa using hps, hpast ▸ hrs, head_ne_equal_of_greater hgreater⟩
          simp [hleft, hright]
          omega

/-- If the text of two tags stands in the place of what starts with a `<` and stops with a `>`, the
lexemes before it stay, and the two tags are read as such.  If they lead to the stack of modes that
led on before, the tokens after them stay as well. -/
theorem lexemes_substitute {source : String} {front inside back : List Lexeme} {left right : Span}
    (hlexemes : lexemes source = front ++ ⟨.less, left⟩ :: (inside ++ ⟨.greater, right⟩ :: back))
    {n m : Name} (hn : ∀ word ∈ n.words, isTagWord word = true)
    (hm : ∀ word ∈ m.words, isTagWord word = true)
    (hquiet : ∀ text, Slice source.toList ⟨left.start, right.stop⟩ text →
      ∀ t ∈ front, t.token.isStray = true → ∀ c ∈ text, isQuiet c = true) :
    ∃ tags others, lexemes (substitute source ⟨left.start, right.stop⟩ (mismatchedTags n m)) =
        front ++ (tags ++ others) ∧
      tags.map Lexeme.token = mismatchedTokens n m ∧
      ((Modes.through [] front).through tags =
          (Modes.through [] front).through
            (⟨.less, left⟩ :: (inside ++ [⟨.greater, right⟩])) →
        others.map Lexeme.token = back.map Lexeme.token) := by
  obtain ⟨ps, text, rs, final, hsource, hspan, hfront, ⟨offset, hback⟩, hps, hrs, hequal⟩ :=
    exists_pieces_around hlexemes
  have hps' := hps.instead_of_element hn hm fun p hp t ht hstray => by
    obtain ⟨l, hl, rfl⟩ := mem_lexemesAt_of_isStray hp ht hstray 0
    exact hquiet _ ⟨textOf rs, textOf ps, by simp [hsource], by rw [hspan], by rw [hspan]⟩ l
      (hfront ▸ hl) hstray
  obtain ⟨after, htags⟩ := exists_bitten_mismatched (Modes.through [] front) hn hm hequal
  -- after the tags, the same pieces are bitten off under the same modes
  obtain ⟨rs', final', htext', hrs', hsame⟩ : ∃ rs' final', textOf rs' = textOf rs ∧
      Bitten after rs' [] final' ∧ (after = (Modes.through [] front).through
        (⟨.less, left⟩ :: (inside ++ [⟨.greater, right⟩])) → rs' = rs) := by
    by_cases hafter : after = (Modes.through [] front).through
      (⟨.less, left⟩ :: (inside ++ [⟨.greater, right⟩]))
    · exact ⟨rs, final, rfl, hafter ▸ hrs, fun _ => rfl⟩
    · obtain ⟨rs', final', htext', hrs'⟩ := exists_bitten after (textOf rs)
      exact ⟨rs', final', htext', hrs', fun h => absurd h hafter⟩
  have hmid : Bitten (Modes.through [] front)
      ((mismatchedTokens n m).map Token.piece ++ rs') [] final' :=
    .append (by rwa [htext', List.append_nil]) hrs'
  have hall : Bitten [] (ps ++ ((mismatchedTokens n m).map Token.piece ++ rs')) [] final' :=
    .append (by rwa [textOf_append, textOf_mismatched, htext', List.append_nil]) hmid
  have hallText : textOf (ps ++ ((mismatchedTokens n m).map Token.piece ++ rs')) =
      (substitute source ⟨left.start, right.stop⟩ (mismatchedTags n m)).toList := by
    rw [hspan, substitute_eq hsource, String.toList_ofList, textOf_append, textOf_append,
      textOf_mismatched, htext']
  have hlexemes' := hall.lexemes_eq hallText
  rw [lexemesAt_append, lexemesAt_append, hfront] at hlexemes'
  refine ⟨_, _, hlexemes', map_token_lexemesAt isBlankProse_mismatchedTokens _, fun hmodes => ?_⟩
  rw [hsame (by rw [htags.after_eq _, hmodes]), ← hback]
  exact map_token_lexemesAt_elsewhere _ _ rs

/-! ### Documents -/

theorem Written.single_bare {skip : List Lexeme → Prop} {ts : List Lexeme} {n : Name} {span : Span}
    (h : Written skip ts (.element (.single ⟨n, [], span⟩))) : ∃ left names slash right,
      ts = ⟨.less, left⟩ :: ((names ++ [⟨.slash, slash⟩]) ++ [⟨.greater, right⟩]) ∧
      span = ⟨left.start, right.stop⟩ ∧ names.map Lexeme.token = n.tokens ∧ n.IsProper ∧
      n ≠ .fragment := by
  cases h with
  | @single left slash right names us _ _ hproper hne hname hitems =>
      cases hitems
      exact ⟨left, names, slash, right, by simp, rfl, hname, hproper, hne⟩

theorem Modes.through_name {modes : Modes} (h : modes.InTag) {n : Name} {names : List Lexeme}
    (hnames : names.map Lexeme.token = n.tokens) : modes.through names = modes.onward names := by
  have hcoupled : Coupled (fun _ => True) modes modes names [] _ _ := .name h h hnames
  exact hcoupled.through.1

/-- A tag that closes itself leads back to the modes before it. -/
theorem Modes.through_bare {modes : Modes} (h : ¬ modes.InTag) {n : Name} (hne : n ≠ .fragment)
    (hproper : n.IsProper) {names : List Lexeme} (hnames : names.map Lexeme.token = n.tokens)
    (left slash right : Span) : modes.through
      (⟨.less, left⟩ :: ((names ++ [⟨.slash, slash⟩]) ++ [⟨.greater, right⟩])) = modes := by
  obtain ⟨t, names, rfl⟩ : ∃ t others, names = t :: others := List.exists_cons_of_ne_nil (by
    rintro rfl
    exact hne (n.eq_fragment_of_tokens hproper hnames.symm))
  have hin : Modes.InTag (.tag {} :: modes) := ⟨_, rfl⟩
  rw [through_cons, after_less h, through_append, through_append, through_name hin hnames,
    onward_cons]
  rfl

/-- Two tags, of whatever names, lead back to the modes before them. -/
theorem Modes.through_mismatched {modes : Modes} (h : ¬ modes.InTag) {n m : Name}
    {tags : List Lexeme} (htags : tags.map Lexeme.token = mismatchedTokens n m) :
    modes.through tags = modes := by
  obtain ⟨left, names, right, left', slash, names', right', rfl, hnames, hnames'⟩ :=
    lexemes_mismatched htags
  have hin : Modes.InTag (.tag {} :: modes) := ⟨_, rfl⟩
  have hin' : Modes.InTag (.tag ⟨false, true, true⟩ :: .prose :: modes) := ⟨_, rfl⟩
  have hopened : (Modes.onward (.tag {} :: modes) names).after .greater = .prose :: modes := by
    cases names <;> rfl
  have hclosed : (Modes.onward (.tag ⟨false, true, true⟩ :: .prose :: modes) names').after
      .greater = modes := by
    cases names' <;> rfl
  have hbetween : (Modes.after (.prose :: modes) .less).after .slash =
      .tag ⟨false, true, true⟩ :: .prose :: modes := rfl
  rw [through_cons, after_less h, through_append, through_name hin hnames, through_cons, hopened,
    through_cons, through_cons, hbetween, through_append, through_name hin' hnames', through_cons,
    hclosed, through_nil]

/-- What stands before a lexeme starts before it. -/
theorem Ordered.takeWhile_before {front back : List Lexeme} {t : Lexeme}
    (h : Ordered (front ++ t :: back)) :
    (front ++ t :: back).takeWhile (fun u => u.span.start < t.span.start) = front := by
  have hfront : ∀ u ∈ front, decide (u.span.start < t.span.start) = true := by
    intro u hu
    have hle := h.stop_le_start hu (List.mem_cons_self (a := t))
    have hlt := h.nonempty u (by simp [hu])
    simp only [decide_eq_true_eq]
    omega
  rw [List.takeWhile_append_of_pos hfront, List.takeWhile_cons_of_neg (by simp), List.append_nil]

theorem Ordered.front_unique {front front' back back' : List Lexeme} {t t' : Lexeme}
    (h : Ordered (front ++ t :: back)) (heq : front ++ t :: back = front' ++ t' :: back')
    (hstart : t.span.start = t'.span.start) : front = front' := by
  have h' : Ordered (front' ++ t' :: back') := heq ▸ h
  rw [← h.takeWhile_before, heq, hstart, h'.takeWhile_before]

/-- Nothing that is left open before a stretch, a comment or a text in quotes, could end in it. -/
def ClosesNothing (source : String) (span : Span) : Prop :=
  ∀ text, Slice source.toList span text → ∀ t ∈ lexemes source, t.token.isStray = true →
    t.span.stop ≤ span.start → ∀ c ∈ text, isQuiet c = true

theorem Slice.unique {source text text' : List Char} {span : Span} (h : Slice source span text)
    (h' : Slice source span text') : text = text' := by
  obtain ⟨rest, h⟩ := h
  obtain ⟨rest', h'⟩ := h'
  exact (h.unique h').1

/-- The words of the name in a tag that closes itself may stand in a tag. -/
theorem isTagWord_of_bare {source : String} {front us back : List Lexeme} {n : Name} {span : Span}
    (hlexemes : lexemes source = front ++ (us ++ back))
    (hus : Writes us (.single ⟨n, [], span⟩)) : ∀ word ∈ n.words, isTagWord word = true := by
  obtain ⟨left, names, slash, right, rfl, -, hnames, -⟩ := hus.single_bare
  exact @isTagWord_of_name source n (front ++ [⟨.less, left⟩]) names (⟨.greater, right⟩ :: back)
    ⟨.slash, slash⟩ (by simpa using hlexemes) hnames (by simp)

/-- An element that is written as its name and a blank in a tag closes nothing. -/
theorem closesNothing_of_bare {source : String} {d : Document} (h : Document.parse source = .ok d)
    {n : Name} {span : Span} (he : Among d.elements (.single ⟨n, [], span⟩))
    (htext : Slice source.toList span ("<" ++ n.render ++ " />").toList) :
    ClosesNothing source span := by
  obtain ⟨us, ⟨front, back, hlexemes⟩, hus⟩ := writes_of_among h he
  have hwords := isTagWord_of_bare (by simpa using hlexemes.symm) hus
  intro text htext' _ _ _ _ c hc
  obtain rfl := htext'.unique htext
  simp only [String.toList_append, List.mem_append] at hc
  rcases hc with (hc | hc) | hc
  · exact List.all_eq_true.1 (show "<".toList.all isQuiet = true from rfl) c hc
  · exact isQuiet_name hwords c hc
  · exact List.all_eq_true.1 (show " />".toList.all isQuiet = true from rfl) c hc

section Document

variable {source : String} {n m : Name} {span : Span}
  (hwords : ∀ word ∈ m.words, isTagWord word = true) (hcloses : ClosesNothing source span)
include hwords hcloses

/-- Where the lexemes of an element are known, so are those around the two tags in its place. -/
theorem exists_lexemes_mismatched {front us back : List Lexeme}
    (hlexemes : lexemes source = front ++ (us ++ back))
    (hus : Writes us (.single ⟨n, [], span⟩)) : ∃ tags others,
      lexemes (substitute source span (mismatchedTags n m)) = front ++ (tags ++ others) ∧
      tags.map Lexeme.token = mismatchedTokens n m ∧
      (¬ (Modes.through [] front).InTag → others.map Lexeme.token = back.map Lexeme.token) := by
  have hn := isTagWord_of_bare hlexemes hus
  obtain ⟨left, names, slash, right, rfl, rfl, hnames, hproper, hne⟩ := hus.single_bare
  have hlexemes' : lexemes source = front ++ ⟨.less, left⟩ ::
      ((names ++ [⟨.slash, slash⟩]) ++ ⟨.greater, right⟩ :: back) := by simpa using hlexemes
  have hordered := hlexemes' ▸ ordered_lexemes source
  have hbefore : ∀ t ∈ front, t.span.stop ≤ left.start := fun t ht =>
    @Ordered.stop_le_start _ _ hordered t ⟨.less, left⟩ ht List.mem_cons_self
  obtain ⟨tags, others, hsubstitute, htags, hothers⟩ := lexemes_substitute hlexemes' hn hwords
    fun text htext t ht hstray => hcloses text htext t (by simp [hlexemes', ht]) hstray
      (hbefore t ht)
  refine ⟨tags, others, hsubstitute, htags, fun hmodes => hothers ?_⟩
  rw [Modes.through_mismatched hmodes htags,
    Modes.through_bare hmodes hne hproper hnames left slash right]

variable {d : Document} (h : Document.parse source = .ok d)
include h

/-- Reached through children alone, an element cannot give way to tags with different names. -/
theorem mismatch_refused (hm : m.IsProper) (hne : n ≠ m) {f : Element} (hf : f ∈ d.elements)
    (hleads : IsDescendant f (.single ⟨n, [], span⟩)) :
    ∃ failure, Document.parse (substitute source span (mismatchedTags n m)) = .error failure := by
  obtain ⟨front, us, back, hlexemes, hwritten, hfront⟩ := (derives_of_parse h).exists_element hf
  obtain ⟨front', ts, back', rfl, hts, hrefuses⟩ := hleads.refuses hwritten
  obtain ⟨tags, others, hsubstitute, htags, -⟩ :=
    @exists_lexemes_mismatched source n m span hwords hcloses (front ++ front') ts (back' ++ back)
      (by simpa using hlexemes) hts
  obtain ⟨left, names, slash, right, -, -, hnames, hproper, -⟩ := hts.single_bare
  have hrefused := hrefuses _ (isRefused_mismatchedTokens hproper hm hne)
  have hwhole : (front' ++ tags).map Lexeme.token =
      front'.map Lexeme.token ++ mismatchedTokens n m := by rw [List.map_append, htags]
  cases hparse : Document.parse (substitute source span (mismatchedTags n m)) with
  | error failure => exact ⟨failure, rfl⟩
  | ok d' =>
      have hreads := ofLexemes_eq_ok_iff.1 hparse
      rw [hsubstitute] at hreads
      exact absurd (by simpa using hreads) (hrefused.document_fails hfront hwhole d')

/-- With braces around it, an element may give way to any tags. -/
theorem mismatch_skipped (hplain : ∀ part ∈ d.parts, part.isSkipped = true →
      ∀ t ∈ lexemes source, Within t.span part.span → t.token ≠ .less)
    (he : Among d.elements (.single ⟨n, [], span⟩))
    (hbraced : ¬ ∃ f ∈ d.elements, IsDescendant f (.single ⟨n, [], span⟩)) :
    ∃ d', Document.parse (substitute source span (mismatchedTags n m)) = .ok d' := by
  obtain ⟨front, us, back, hlexemes, hus, hcase⟩ := (derives_of_parse h).exchanges _ he
  have hform := hcase.resolve_left hbraced
  obtain ⟨tags, others, hsubstitute, htags, hothers⟩ :=
    exists_lexemes_mismatched hwords hcloses hlexemes hus
  -- the modes are known where the coupling finds the element, which is the same place
  have hempty := Modes.not_inTag_nil
  have hclean : Clean (lexemes source) (partsOf (walk d.elements)) := clean_lexemes hplain
  obtain ⟨front', us', back', hlexemes', hus', hmodes⟩ :=
    ((spells_of_parse h).isCoupled [] [] hempty hempty rfl hclean).exists_of_among hclean he
  have hsame : front = front' := by
    obtain ⟨left, names, slash, right, rfl, hspan, -⟩ := hus.single_bare
    obtain ⟨left', names', slash', right', rfl, hspan', -⟩ := hus'.single_bare
    have hordered := hlexemes ▸ ordered_lexemes source
    have hstart : left.start = left'.start := (Span.mk.inj (hspan.symm.trans hspan')).1
    exact @Ordered.front_unique _ _ _ _ ⟨.less, left⟩ ⟨.less, left'⟩ hordered
      (hlexemes.symm.trans hlexemes') hstart
  subst hsame
  refine (ofLexemes_ok_iff_isDocument _ _).2 ?_
  rw [hsubstitute, List.map_append, List.map_append, htags, hothers hmodes]
  exact hform _ balanced_mismatchedTokens

end Document

/-- If an opening and a closing tag with different names stand in the place of an element, the
source is no longer parsed if the element is reached through children alone.  With braces around
it, and nothing skipped in the source that holds a `<`, it is parsed all the same. -/
theorem mismatch_refused_outside_braces (source : String) (d : Document)
    (h : Document.parse source = .ok d) (n m : Name) (span : Span)
    (he : Among d.elements (.single ⟨n, [], span⟩)) (hcloses : ClosesNothing source span)
    (hm : m.IsProper) (hwords : ∀ word ∈ m.words, isTagWord word = true) (hne : n ≠ m) :
    ((∃ f ∈ d.elements, IsDescendant f (.single ⟨n, [], span⟩)) → ∃ failure,
      Document.parse (substitute source span (mismatchedTags n m)) = .error failure) ∧
    ((∀ part ∈ d.parts, part.isSkipped = true → ∀ t ∈ lexemes source,
        Within t.span part.span → t.token ≠ .less) →
      ¬ (∃ f ∈ d.elements, IsDescendant f (.single ⟨n, [], span⟩)) →
      ∃ d', Document.parse (substitute source span (mismatchedTags n m)) = .ok d') :=
  ⟨fun ⟨_, hf, hleads⟩ => mismatch_refused hwords hcloses h hm hne hf hleads,
    fun hplain hbraced => mismatch_skipped hwords hcloses h hplain he hbraced⟩

/-- An element among children, and one in braces. -/
def twiceSource : String :=
  "<p><a />\x7b<a />\x7d</p>"

/-- What `twiceSource` is parsed into. -/
def twiceDocument : Document :=
  ⟨[.pair ⟨.plain "p", [], ⟨0, 3⟩⟩ [.element (.single ⟨.plain "a", [], ⟨3, 8⟩⟩),
    .braced ⟨.expr (.element (.single ⟨.plain "a", [], ⟨9, 14⟩⟩)), ⟨8, 15⟩⟩] ⟨15, 19⟩]⟩

theorem mismatch_refused_outside_braces_sample :
    Document.parse twiceSource = .ok twiceDocument ∧
    (∃ failure, Document.parse (substitute twiceSource ⟨3, 8⟩
      (mismatchedTags (.plain "a") (.plain "b"))) = .error failure) ∧
    ∃ d', Document.parse (substitute twiceSource ⟨9, 14⟩
      (mismatchedTags (.plain "a") (.plain "b"))) = .ok d' := by
  have hparse : Document.parse twiceSource = .ok twiceDocument := by with_unfolding_all rfl
  have hplain : ∀ part ∈ twiceDocument.parts, part.isSkipped = true →
      ∀ t ∈ lexemes twiceSource, Within t.span part.span → t.token ≠ .less := by decide +kernel
  have hchild : Among twiceDocument.elements (.single ⟨.plain "a", [], ⟨3, 8⟩⟩) :=
    .inside List.mem_cons_self (.here List.mem_cons_self)
  have hbraced : Among twiceDocument.elements (.single ⟨.plain "a", [], ⟨9, 14⟩⟩) :=
    .inside List.mem_cons_self (.here (List.mem_cons_of_mem _ List.mem_cons_self))
  have hcloses : ClosesNothing twiceSource ⟨3, 8⟩ := closesNothing_of_bare hparse hchild
    ⟨"\x7b<a />\x7d</p>".toList, "<p>".toList, by decide, by decide, by decide⟩
  have hcloses' : ClosesNothing twiceSource ⟨9, 14⟩ := closesNothing_of_bare hparse hbraced
    ⟨"\x7d</p>".toList, "<p><a />\x7b".toList, by decide, by decide, by decide⟩
  have hproper : (Name.plain "b").IsProper := trivial
  have hwords : ∀ word ∈ (Name.plain "b").words, isTagWord word = true := by decide +kernel
  have hne : Name.plain "a" ≠ .plain "b" := by decide
  obtain ⟨hrefused, -⟩ := mismatch_refused_outside_braces twiceSource twiceDocument hparse
    (.plain "a") (.plain "b") ⟨3, 8⟩ hchild hcloses hproper hwords hne
  obtain ⟨-, haccepted⟩ := mismatch_refused_outside_braces twiceSource twiceDocument hparse
    (.plain "a") (.plain "b") ⟨9, 14⟩ hbraced hcloses' hproper hwords hne
  refine ⟨hparse, hrefused ⟨_, List.mem_cons_self, .child List.mem_cons_self (.self _)⟩,
    haccepted hplain ?_⟩
  rintro ⟨f, hf, hleads⟩
  obtain rfl : f = _ := List.mem_singleton.1 hf
  cases hleads with
  | child hmem hleads =>
      simp only [List.mem_cons, List.not_mem_nil, or_false, Child.element.injEq,
        reduceCtorEq] at hmem
      subst hmem
      cases hleads

/-- In braces, tags with different names are taken. -/
theorem mismatch_in_braces_accepted : ∃ d d',
    Document.parse "<p>\x7b<a />\x7d</p>" = .ok d ∧
    Among d.elements (.single ⟨.plain "a", [], ⟨4, 9⟩⟩) ∧
    Slice "<p>\x7b<a />\x7d</p>".toList ⟨4, 9⟩ "<a />".toList ∧
    substitute "<p>\x7b<a />\x7d</p>" ⟨4, 9⟩ (mismatchedTags (.plain "a") (.plain "b")) =
      "<p>\x7b<a></b>\x7d</p>" ∧
    Document.parse "<p>\x7b<a></b>\x7d</p>" = .ok d' := by
  let inner : Element := .single ⟨.plain "a", [], ⟨4, 9⟩⟩
  let held : Container := ⟨.expr (.element inner), ⟨3, 10⟩⟩
  refine ⟨⟨[.pair ⟨.plain "p", [], ⟨0, 3⟩⟩ [.braced held] ⟨10, 14⟩]⟩,
    ⟨[.pair ⟨.plain "p", [], ⟨0, 3⟩⟩ [.braced ⟨.other, ⟨3, 12⟩⟩] ⟨12, 16⟩]⟩, ?_, ?_, ?_, ?_, ?_⟩
  · with_unfolding_all rfl
  · exact .inside List.mem_cons_self (.here List.mem_cons_self)
  · exact ⟨"\x7d</p>".toList, "<p>\x7b".toList, by decide, by decide, by decide⟩
  · decide +kernel
  · with_unfolding_all rfl

end RoleAudit.Markup
