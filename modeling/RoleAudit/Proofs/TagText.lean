import RoleAudit.Proofs.Excerpts
import RoleAudit.Proofs.Exchange
import RoleAudit.Proofs.Mismatch

/-!
# The text of two tags

A word may stand in a tag (`isTagWord`) if the scanner takes all of it for one word there, and no
literal.  The words of every name in a source are such, since a slash or a `>` ends the last one.
An opening tag and a closing tag made of such words are read as their tokens, wherever they stand:
the `<` starts a tag under every mode, and what comes next stays in it up to the `>`.

Main statements: `isTagWord_of_name`, `exists_bitten_mismatched` and `isQuiet_mismatchedTags`.
-/

namespace RoleAudit.Markup

open RoleAudit.Text
open Grammar

/-! ### Words in tags -/

/-- Whether a text is read as a word wherever a name may stand in a tag. -/
def isTagWord (text : String) : Bool :=
  match text.toList with
  | [] => false
  | c :: rest => isWordStart c && wordTail rest = (rest, []) &&
      !(text = "null" || text = "true" || text = "false")

/-- Nothing goes on with a word. -/
def EndsWord (rest : List Char) : Prop :=
  ∀ c ∈ rest.head?, isWordPart c = false ∧ c ≠ '-'

theorem wordTail_of_endsWord {rest : List Char} (h : EndsWord rest) :
    wordTail rest = ([], rest) := by
  cases rest with
  | nil => rfl
  | cons c rest =>
      obtain ⟨hpart, hdash⟩ := h c rfl
      rw [wordTail, hpart]
      · rfl
      · exact fun _ _ hc _ => hdash hc

theorem wordTail_append_of_endsWord {word rest : List Char} (hword : wordTail word = (word, []))
    (hrest : EndsWord rest) : wordTail (word ++ rest) = (word, rest) := by
  fun_induction wordTail word with
  | case1 c word hc tail ih =>
      have htail : wordTail word = (word, []) := by
        simpa [Prod.ext_iff, tail] using hword
      simp [wordTail, hc, ih htail]
  | case2 c word hc => simp at hword
  | case3 c word hshape hc tail ih =>
      have htail : wordTail word = (word, []) := by
        simpa [Prod.ext_iff, tail] using hword
      have hdash : c ≠ '-' := by
        rintro rfl
        cases hc
      simp [wordTail, hc, hdash, ih htail]
  | case4 c word hshape hc => simp at hword
  | case5 => exact wordTail_of_endsWord hrest

theorem wordTail_wordTail (text : List Char) :
    wordTail (wordTail text).1 = ((wordTail text).1, []) := by
  fun_induction wordTail text with
  | case1 c text hc tail ih => simp [wordTail, hc, tail, ih]
  | case2 c text hc => rfl
  | case3 c text hshape hc tail ih =>
      have hdash : c ≠ '-' := by
        rintro rfl
        cases hc
      simp [wordTail, hc, hdash, tail, ih]
  | case4 c text hshape hc => rfl
  | case5 => rfl

theorem exists_of_isTagWord {text : String} (h : isTagWord text = true) : ∃ c rest,
    text.toList = c :: rest ∧ isWordStart c = true ∧ wordTail rest = (rest, []) ∧
      text ≠ "null" ∧ text ≠ "true" ∧ text ≠ "false" := by
  unfold isTagWord at h
  split at h
  · cases h
  · next c rest hrest =>
      simp only [Bool.and_eq_true, decide_eq_true_eq, Bool.not_eq_true', Bool.or_eq_false_iff,
        decide_eq_false_iff_not] at h
      exact ⟨c, rest, hrest, h.1.1, h.1.2, h.2.1.1, h.2.1.2, h.2.2⟩

/-- Where a word stands, and no dash after it, the word may stand in a tag. -/
theorem isTagWord_of_wordToken {c : Char} {rest : List Char} {word : String}
    (hstart : isWordStart c = true)
    (h : wordToken (c :: (wordTail rest).1) (wordTail rest).2 = .word word)
    (hdash : (wordTail rest).2.head? ≠ some '-') : isTagWord word = true := by
  obtain rfl := wordToken_eq_word h
  rw [wordToken, if_neg hdash] at h
  unfold isTagWord
  rw [String.toList_ofList]
  simp only [hstart, wordTail_wordTail, decide_true, Bool.true_and, Bool.not_eq_true',
    Bool.or_eq_false_iff, decide_eq_false_iff_not]
  refine ⟨⟨?_, ?_⟩, ?_⟩ <;>
    (intro hkeyword; rw [hkeyword] at h; cases h)

theorem bite_of_not_prose {modes : Modes} (h : modes.head? ≠ some .prose) :
    ∃ inTag, modes.scanner.bite = codeBite inTag := by
  match modes, h with
  | .prose :: _, h => exact absurd rfl h
  | .tag _ :: _, _ => exact ⟨true, rfl⟩
  | .code :: _, _ | [], _ => exact ⟨false, rfl⟩

theorem Modes.after_word_ne_prose {modes : Modes} (h : modes.head? ≠ some .prose)
    (word : String) : (modes.after (.word word)).head? ≠ some .prose := by
  match modes, h with
  | .prose :: _, h => exact absurd rfl h
  | .tag _ :: _, _ => simp [Modes.after]
  | .code :: _, _ | [], _ => simp [Modes.after]

theorem codeBite_dash (inTag : Bool) (tail : List Char) :
    codeBite inTag ('-' :: tail) = some ⟨some .minus, 1, tail⟩ := rfl

/-- In a source, a word that no dash follows may stand in a tag. -/
theorem isTagWord_of_lexemes {source : String} {front back : List Lexeme} {word : String}
    {span : Span} {next : Lexeme} (h : lexemes source = front ++ ⟨.word word, span⟩ :: next :: back)
    (hnext : next.token ≠ .minus) : isTagWord word = true := by
  obtain ⟨pieces, -, hbitten, hpieces⟩ := exists_bitten_source source
  rw [hpieces] at h
  obtain ⟨ps, p, rs, rfl, -, hp, hrs⟩ := exists_piece h
  generalize finalModes source = after at hbitten
  obtain ⟨modes, -, hrest⟩ := hbitten.exists_mid
  have hword := (Piece.lexeme?_eq_some hp).1
  cases hrest with
  | step hbite hrest =>
      obtain ⟨inTag, hcode, hmodes⟩ := bite_eq_word hbite hword
      obtain ⟨c, text, -, hstart, htoken, htail⟩ := codeBite_eq_word hcode hword
      refine isTagWord_of_wordToken hstart htoken fun hdash => hnext ?_
      rw [← htail] at hdash
      -- the dash would be the next piece
      have hpast : (modes.past p).head? ≠ some .prose := by
        rw [Bitten.past_of_lexeme?_eq_some hp]
        exact Modes.after_word_ne_prose hmodes word
      obtain ⟨inTag', hscanner⟩ := bite_of_not_prose hpast
      cases hrest with
      | done => simp at hdash
      | @step _ _ q qs _ hbite' _ =>
          obtain ⟨tail, htail'⟩ := List.head?_eq_some_iff.1 hdash
          dsimp only at htail'
          rw [hscanner, ← List.append_assoc, ← textOf_cons, htail', codeBite_dash] at hbite'
          simp only [Option.some.injEq, Bite.mk.injEq] at hbite'
          have hlexeme : ∀ offset, q.lexeme? offset =
              some ⟨.minus, ⟨offset, offset + byteLength q.text⟩⟩ := by
            intro offset
            simp [Piece.lexeme?, ← hbite'.1, Step.isBlankProse]
          rw [lexemesAt, hlexeme] at hrs
          rw [← (List.cons.inj hrs).1]

/-- The words of a name in a source may stand in a tag, unless a dash follows the name. -/
theorem isTagWord_of_name {source : String} {n : Name} {front names back : List Lexeme}
    {next : Lexeme} (h : lexemes source = front ++ (names ++ next :: back))
    (hnames : names.map Lexeme.token = n.tokens) (hnext : next.token ≠ .minus) :
    ∀ text ∈ n.words, isTagWord text = true := by
  intro text htext
  have hmem : .word text ∈ names.map Lexeme.token :=
    hnames ▸ Name.mem_words_of_mem_tokens.2 htext
  obtain ⟨⟨_, span⟩, ht, rfl⟩ := List.mem_map.1 hmem
  obtain ⟨before, after, rfl⟩ := List.append_of_mem ht
  rw [List.append_assoc, List.cons_append, ← List.append_assoc] at h
  cases after with
  | nil => exact isTagWord_of_lexemes h hnext
  | cons u after =>
      have hu : u.token ∈ n.tokens := by simp [← hnames]
      refine isTagWord_of_lexemes h ?_
      rcases Name.mem_tokens hu with ⟨_, htoken⟩ | htoken | htoken <;> simp [htoken]

/-! ### Pieces of tags -/

/-- The piece that a token with a fixed text stands for. -/
def Token.piece (t : Token) : Piece :=
  ⟨some t, t.spelling.toList⟩

theorem codeBite_of_isTagWord {word : String} {rest : List Char} (h : isTagWord word = true)
    (hrest : EndsWord rest) (inTag : Bool) : codeBite inTag (word.toList ++ rest) =
      some ⟨some (.word word), byteLength word.toList, rest⟩ := by
  obtain ⟨c, tail, hword, hstart, htail, hnull, htrue, hfalse⟩ := exists_of_isTagWord h
  have hspace : isSpace c = false := by
    rw [Bool.eq_false_iff]
    intro hspace
    simp only [isSpace, Bool.or_eq_true, decide_eq_true_eq] at hspace
    rcases hspace with (((rfl | rfl) | rfl) | rfl) | rfl <;> cases hstart
  have hdash : rest.head? ≠ some '-' := fun hdash => (hrest '-' hdash).2 rfl
  have htoken : wordToken (c :: tail) rest = .word word := by
    rw [wordToken, if_neg hdash, ← hword, String.ofList_toList]
    split
    · exact absurd rfl hnull
    · exact absurd rfl htrue
    · exact absurd rfl hfalse
    · rfl
  rw [hword, List.cons_append, (CodeBite.word hspace hstart).codeBite_eq,
    wordTail_append_of_endsWord htail hrest, htoken]

/-- In a tag, one token that leaves it a tag. -/
theorem bitten_of_codeBite {modes : Modes} {t : Token} {rest : List Char} (hmodes : modes.InTag)
    (ht : t.goesOnTag = true)
    (h : ∀ inTag, codeBite inTag (t.piece.text ++ rest) =
      some ⟨some t, byteLength t.piece.text, rest⟩) :
    Bitten modes [t.piece] rest modes.settled := by
  have hprose : modes.head? ≠ some .prose := by
    obtain ⟨state, hstate⟩ := hmodes
    simp [hstate]
  obtain ⟨inTag, hscanner⟩ := bite_of_not_prose hprose
  refine .step ?_ ?_
  · rw [hscanner]
    exact h inTag
  · rw [← hmodes.after ht]
    exact .done

/-- In a tag, a word is read before anything that does not go on with it. -/
theorem bitten_word {modes : Modes} {word : String} {rest : List Char} (hmodes : modes.InTag)
    (h : isTagWord word = true) (hrest : EndsWord rest) :
    Bitten modes [Token.piece (.word word)] rest modes.settled :=
  bitten_of_codeBite hmodes rfl fun inTag => codeBite_of_isTagWord h hrest inTag

theorem codeBite_colon (inTag : Bool) (rest : List Char) :
    codeBite inTag (':' :: rest) = some ⟨some .colon, 1, rest⟩ := rfl

theorem codeBite_dot {rest : List Char} (h : rest.head? ≠ some '.') (inTag : Bool) :
    codeBite inTag ('.' :: rest) = some ⟨some .dot, 1, rest⟩ := by
  cases rest with
  | nil => rfl
  | cons c rest =>
      have hc : '.' ≠ c := by
        rintro rfl
        exact h rfl
      have hsymbol : symbolAmong symbols ('.' :: c :: rest) = some ⟨some .dot, 1, c :: rest⟩ := by
        simp only [symbols, symbolAmong, List.isPrefixOf, beq_eq_false_iff_ne.2 hc]
        rfl
      simp [codeBite, isSpace, isWordStart, hsymbol]

theorem head_ne_dot_of_isTagWord {word : String} (h : isTagWord word = true) (rest : List Char) :
    (word.toList ++ rest).head? ≠ some '.' := by
  obtain ⟨c, tail, hword, hstart, -⟩ := exists_of_isTagWord h
  rw [hword]
  rintro hdot
  obtain rfl : c = '.' := by simpa using hdot
  cases hstart

theorem endsWord_of_head {c : Char} {rest : List Char} (hpart : isWordPart c = false)
    (hdash : c ≠ '-') : EndsWord (c :: rest) := by
  intro d hd
  obtain rfl : c = d := by simpa using hd
  exact ⟨hpart, hdash⟩

/-- The pieces of a name's further parts, each after a dot. -/
def dottedPieces (others : List String) : List Piece :=
  (others.flatMap fun word => [.dot, .word word]).map Token.piece

@[simp] theorem dottedPieces_cons (word : String) (others : List String) :
    dottedPieces (word :: others) =
      Token.piece .dot :: Token.piece (.word word) :: dottedPieces others := rfl

@[simp] theorem Token.text_piece_word (word : String) :
    (Token.piece (.word word)).text = word.toList := rfl

theorem bitten_dotted {modes : Modes} {others : List String} {rest : List Char}
    (hmodes : modes.InTag) (hwords : ∀ word ∈ others, isTagWord word = true)
    (hrest : EndsWord rest) : EndsWord (textOf (dottedPieces others) ++ rest) ∧
      ∃ after, after.InTag ∧ Bitten modes (dottedPieces others) rest after := by
  induction others generalizing modes with
  | nil => exact ⟨hrest, modes, hmodes, .done⟩
  | cons word others ih =>
      obtain ⟨hends, after, hafter, hothers⟩ :=
        ih hmodes.settled.settled fun word' hword' => hwords word' (List.mem_cons_of_mem _ hword')
      have hword := hwords word List.mem_cons_self
      have hdot : Bitten modes [Token.piece .dot]
          (textOf (Token.piece (.word word) :: dottedPieces others) ++ rest) modes.settled := by
        refine bitten_of_codeBite hmodes rfl fun inTag => codeBite_dot ?_ inTag
        rw [textOf_cons, List.append_assoc]
        exact head_ne_dot_of_isTagWord hword _
      have hfirst := bitten_word hmodes.settled hword hends
      exact ⟨endsWord_of_head rfl (by decide), after, hafter,
        hdot.append (hfirst.append hothers)⟩

/-- In a tag, a name is read before anything that does not go on with a word. -/
theorem bitten_name {modes : Modes} {n : Name} {rest : List Char} (hmodes : modes.InTag)
    (hwords : ∀ word ∈ n.words, isTagWord word = true) (hrest : EndsWord rest) :
    ∃ after, after.InTag ∧ Bitten modes (n.tokens.map Token.piece) rest after := by
  match n, hwords with
  | .plain word, hwords =>
      exact ⟨_, hmodes.settled, bitten_word hmodes (hwords word (by simp [Name.words])) hrest⟩
  | .namespaced space word, hwords =>
      have hsecond := bitten_word hmodes.settled.settled (hwords word (by simp [Name.words])) hrest
      have hcolon : Bitten modes.settled [Token.piece .colon]
          (textOf [Token.piece (.word word)] ++ rest) modes.settled.settled :=
        bitten_of_codeBite hmodes.settled rfl fun inTag => codeBite_colon inTag _
      have hends : EndsWord (textOf [Token.piece .colon, Token.piece (.word word)] ++ rest) :=
        endsWord_of_head rfl (by decide)
      have hfirst := bitten_word hmodes (hwords space (by simp [Name.words])) hends
      exact ⟨_, hmodes.settled.settled.settled, hfirst.append (hcolon.append hsecond)⟩
  | .member [], _ => exact ⟨modes, hmodes, .done⟩
  | .member (first :: others), hwords =>
      have hothers : ∀ word ∈ others, isTagWord word = true := fun word hword =>
        hwords word (List.mem_cons_of_mem _ hword)
      obtain ⟨hends, after, hafter, hothers⟩ := bitten_dotted hmodes.settled hothers hrest
      have hfirst := bitten_word hmodes (hwords first (by simp [Name.words])) hends
      exact ⟨after, hafter, hfirst.append hothers⟩
  | .fragment, _ => exact ⟨modes, hmodes, .done⟩

theorem textOf_dottedPieces (others : List String) :
    textOf (dottedPieces others) = others.flatMap fun word => '.' :: word.toList := by
  induction others with
  | nil => rfl
  | cons word others ih =>
      rw [dottedPieces_cons, textOf_cons, textOf_cons, ih]
      rfl

theorem intercalate_dot (first : List Char) (others : List (List Char)) :
    ['.'].intercalate (first :: others) = first ++ others.flatMap fun word => '.' :: word := by
  induction others generalizing first with
  | nil => simp
  | cons word others ih => rw [List.intercalate_cons_cons, ih]; simp

theorem textOf_name (n : Name) : textOf (n.tokens.map Token.piece) = n.render.toList := by
  match n with
  | .plain word => simp [Name.tokens, Name.render]
  | .namespaced space word => simp [Name.tokens, Name.render, Token.piece, Token.spelling]
  | .member [] => rfl
  | .member (first :: others) =>
      have hpieces : (Name.member (first :: others)).tokens.map Token.piece =
          Token.piece (.word first) :: dottedPieces others := rfl
      rw [hpieces, textOf_cons, textOf_dottedPieces, Token.text_piece_word, Name.render,
        String.toList_intercalate, List.map_cons]
      simpa [List.flatMap_map] using
        (intercalate_dot first.toList (others.map String.toList)).symm
  | .fragment => rfl

/-! ### Two tags -/

/-- An opening tag without attributes, and a closing tag right after it. -/
def mismatchedTags (opened closed : Name) : String :=
  "<" ++ opened.render ++ "></" ++ closed.render ++ ">"

theorem textOf_mismatched (n m : Name) :
    textOf ((mismatchedTokens n m).map Token.piece) = (mismatchedTags n m).toList := by
  simp [mismatchedTokens, mismatchedTags, textOf_name, Token.piece, Token.spelling]

theorem isWordPart_of_isTagWord {word : String} (h : isTagWord word = true) :
    ∀ c ∈ word.toList, (isWordPart c || c = '-') = true := by
  obtain ⟨c, rest, hword, hstart, htail, -⟩ := exists_of_isTagWord h
  rw [hword]
  intro d hd
  rcases List.mem_cons.1 hd with rfl | hd
  · simp [isWordPart, hstart]
  · exact isWordPart_of_mem_wordTail (show d ∈ (wordTail rest).1 by rwa [htail])

theorem isQuiet_of_isWordPart {c : Char} (h : (isWordPart c || c = '-') = true) :
    isQuiet c = true := by
  have hne : ∀ d, (isWordPart d || d = '-') = false → c ≠ d := by
    rintro d hd rfl
    rw [hd] at h
    cases h
  simp [isQuiet, isQuote, hne '"' rfl, hne '\x27' rfl, hne '\x60' rfl, hne '\n' rfl, hne '\\' rfl,
    hne '*' rfl]

/-- The text of a name is quiet. -/
theorem isQuiet_name {n : Name} (h : ∀ word ∈ n.words, isTagWord word = true) :
    ∀ c ∈ n.render.toList, isQuiet c = true := by
  rw [← textOf_name]
  intro c hc
  obtain ⟨p, hp, hc⟩ := List.mem_flatMap.1 hc
  obtain ⟨t, ht, rfl⟩ := List.mem_map.1 hp
  rcases Name.mem_tokens ht with ⟨word, rfl⟩ | rfl | rfl
  · exact isQuiet_of_isWordPart
      (isWordPart_of_isTagWord (h word (Name.mem_words_of_mem_tokens.1 ht)) c hc)
  · exact List.all_eq_true.1 (show Token.colon.piece.text.all isQuiet = true by decide) c hc
  · exact List.all_eq_true.1 (show Token.dot.piece.text.all isQuiet = true by decide) c hc

/-- The text of the two tags is quiet. -/
theorem isQuiet_mismatchedTags {n m : Name} (hn : ∀ word ∈ n.words, isTagWord word = true)
    (hm : ∀ word ∈ m.words, isTagWord word = true) :
    ∀ c ∈ (mismatchedTags n m).toList, isQuiet c = true := by
  simp only [mismatchedTags, String.toList_append, List.forall_mem_append]
  exact ⟨⟨⟨⟨List.all_eq_true.1 rfl, isQuiet_name hn⟩, List.all_eq_true.1 rfl⟩, isQuiet_name hm⟩,
    List.all_eq_true.1 rfl⟩

theorem Modes.inTag_after_less (modes : Modes) : (modes.after .less).InTag := by
  match modes with
  | .tag state :: _ => exact ⟨_, rfl⟩
  | .code :: _ | .prose :: _ | [] => exact ⟨_, rfl⟩

theorem Modes.inTag_after_slash {modes : Modes} (h : modes.InTag) : (modes.after .slash).InTag := by
  match modes, h with
  | .tag state :: _, _ => exact ⟨_, rfl⟩

theorem bitten_less (modes : Modes) {rest : List Char} (h : rest.head? ≠ some '=') :
    Bitten modes [Token.piece .less] rest (modes.after .less) := by
  refine .step ?_ .done
  match modes with
  | .prose :: _ => rfl
  | .tag _ :: _ => exact @codeBite_less rest h true
  | .code :: _ | [] => exact @codeBite_less rest h false

theorem bitten_greater {modes : Modes} (hmodes : modes.InTag) {rest : List Char}
    (h : rest.head? ≠ some '=') :
    Bitten modes [Token.piece .greater] rest (modes.after .greater) := by
  refine .step ?_ .done
  match modes, hmodes with
  | .tag _ :: _, _ => exact @codeBite_greater rest h true

theorem codeBite_slash {rest : List Char} (h : rest.head? ≠ some '*') (inTag : Bool) :
    codeBite inTag ('/' :: rest) = some ⟨some .slash, 1, rest⟩ := by
  refine (CodeBite.symbol (by decide) ?_ rfl).codeBite_eq
  rintro ⟨others, hothers⟩
  obtain ⟨-, rfl⟩ := List.cons.inj hothers
  exact h rfl

theorem bitten_slash {modes : Modes} (hmodes : modes.InTag) {rest : List Char}
    (h : rest.head? ≠ some '*') : Bitten modes [Token.piece .slash] rest (modes.after .slash) := by
  refine .step ?_ .done
  match modes, hmodes with
  | .tag _ :: _, _ => exact codeBite_slash h true

/-- A name and a `>` start with a letter, or with the `>`. -/
theorem head_name {n : Name} (hwords : ∀ word ∈ n.words, isTagWord word = true) {c : Char}
    (hstart : isWordStart c = false) (hgreater : c ≠ '>') (rest : List Char) :
    (textOf ((n.tokens ++ [Token.greater]).map Token.piece) ++ rest).head? ≠ some c := by
  intro hc
  cases htokens : n.tokens with
  | nil =>
      rw [htokens] at hc
      exact hgreater (by simpa [Token.piece, Token.spelling, eq_comm] using hc)
  | cons t others =>
      obtain ⟨word, rfl⟩ := n.head_tokens t (by rw [htokens]; rfl)
      have hword : isTagWord word = true :=
        hwords word (Name.mem_words_of_mem_tokens.1 (by rw [htokens]; exact List.mem_cons_self))
      obtain ⟨d, tail, hspelling, hstart', -⟩ := exists_of_isTagWord hword
      rw [htokens, List.cons_append, List.map_cons, textOf_cons, Token.text_piece_word,
        hspelling] at hc
      obtain rfl : d = c := by simpa using hc
      rw [hstart] at hstart'
      cases hstart'

section Tags

variable {modes : Modes} {n : Name} (hwords : ∀ word ∈ n.words, isTagWord word = true)
  {rest : List Char} (hrest : rest.head? ≠ some '=')
include hwords hrest

theorem exists_bitten_name (hmodes : modes.InTag) :
    ∃ after, Bitten modes ((n.tokens ++ [Token.greater]).map Token.piece) rest after := by
  have hends : EndsWord ('>' :: rest) := endsWord_of_head rfl (by decide)
  obtain ⟨after, hafter, hname⟩ := bitten_name hmodes hwords hends
  refine ⟨after.after .greater, ?_⟩
  rw [List.map_append]
  exact .append hname (bitten_greater hafter hrest)

theorem exists_bitten_opening (modes : Modes) :
    ∃ after,
      Bitten modes ((Token.less :: (n.tokens ++ [.greater])).map Token.piece) rest after := by
  obtain ⟨after, hname⟩ := exists_bitten_name hwords hrest modes.inTag_after_less
  exact ⟨after, .append (bitten_less modes (head_name hwords rfl (by decide) rest)) hname⟩

theorem exists_bitten_closing (modes : Modes) :
    ∃ after, Bitten modes ((Token.less :: .slash :: (n.tokens ++ [.greater])).map Token.piece) rest
      after := by
  have hslash := modes.inTag_after_less
  obtain ⟨after, hname⟩ := exists_bitten_name hwords hrest (Modes.inTag_after_slash hslash)
  have htail := Bitten.append (bitten_slash hslash (head_name hwords rfl (by decide) rest)) hname
  exact ⟨after, .append (bitten_less modes (by simp [Token.piece, Token.spelling])) htail⟩

end Tags

/-- The two tags are read as such under any modes, unless an equal sign follows. -/
theorem exists_bitten_mismatched (modes : Modes) {n m : Name}
    (hn : ∀ word ∈ n.words, isTagWord word = true) (hm : ∀ word ∈ m.words, isTagWord word = true)
    {rest : List Char} (hrest : rest.head? ≠ some '=') :
    ∃ after, Bitten modes ((mismatchedTokens n m).map Token.piece) rest after := by
  have htokens : mismatchedTokens n m = (.less :: (n.tokens ++ [.greater])) ++
      .less :: .slash :: (m.tokens ++ [.greater]) := by simp [mismatchedTokens]
  have hless : (textOf ((Token.less :: .slash :: (m.tokens ++ [.greater])).map Token.piece) ++
      rest).head? ≠ some '=' := by
    simp [Token.piece, Token.spelling]
  obtain ⟨mid, hopening⟩ := exists_bitten_opening hn hless modes
  obtain ⟨after, hclosing⟩ := exists_bitten_closing hm hrest mid
  refine ⟨after, ?_⟩
  rw [htokens, List.map_append]
  exact hopening.append hclosing

end RoleAudit.Markup
