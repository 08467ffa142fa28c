import RoleAudit.Proofs.Placement
import RoleAudit.Proofs.ProseText
import RoleAudit.Proofs.Spelling

/-!
# Prose after braces

What stands in braces may be skipped as a balanced list.  It is lexed all the same, and by pieces of
its own: over a balanced list the stack never gets below the brace, so the list is read in braces as
it is alone, with the stack around the braces underneath (`Balanced.framed`).

After the closing brace, prose is read if the list has left nothing on the stack, as it has if there
is no `<` in it.  A `<` opens a tag though, and one that is never closed, such as that of a
comparison, still is open after the brace.  Then what should be prose is read as part of a tag.

Main statement: `prose_after_braces`.
-/

namespace RoleAudit.Markup

open RoleAudit.Text

/-! ### Stacks with something underneath -/

namespace Modes

variable {modes below : Modes}

@[simp] theorem scanner_append (modes below : Modes) :
    (modes ++ .code :: below).scanner = modes.scanner := by
  match modes with
  | .tag _ :: _ | .code :: _ | .prose :: _ | [] => rfl

theorem afterTag_append (state : TagState) (outer below : Modes) :
    afterTag state (outer ++ .code :: below) = afterTag state outer ++ .code :: below := by
  obtain ⟨fresh, closing, afterSlash⟩ := state
  cases closing <;> cases afterSlash <;> rcases outer with _ | ⟨_ | _ | _, outer⟩ <;> rfl

theorem count_afterTag (state : TagState) (outer : Modes) :
    (afterTag state outer).count .code = outer.count .code := by
  obtain ⟨fresh, closing, afterSlash⟩ := state
  cases closing <;> cases afterSlash <;> rcases outer with _ | ⟨_ | _ | _, outer⟩ <;>
    simp [afterTag]

/-- What a token does to a stack it does on top of other modes as well, unless it closes a brace
that is not on the stack. -/
theorem after_append {t : Token} (h : modes = [] → t ≠ .closeBrace) (below : Modes) :
    (modes ++ .code :: below).after t = modes.after t ++ .code :: below := by
  match modes, h with
  | .tag state :: outer, _ =>
      cases t with
      | greater => exact afterTag_append state outer below
      | _ => rfl
  | .code :: _, _ | .prose :: _, _ => cases t <;> rfl
  | [], h =>
      cases t with
      | closeBrace => exact absurd rfl (h rfl)
      | _ => rfl

/-- Only a closing brace takes code off a stack. -/
theorem count_after {t : Token} (h : t ≠ .closeBrace) :
    modes.count .code ≤ (modes.after t).count .code := by
  match modes with
  | .tag state :: outer =>
      cases t with
      | greater => simp [after, count_afterTag]
      | openBrace => simp [after]
      | _ => simp [after]
  | .code :: _ | .prose :: _ | [] => cases t <;> simp_all [after]

theorem count_after_openBrace (modes : Modes) :
    (modes.after .openBrace).count .code = modes.count .code + 1 := by
  match modes with
  | .tag _ :: _ | .code :: _ | .prose :: _ | [] => simp [after]

theorem count_after_closeBrace (modes : Modes) :
    modes.count .code ≤ (modes.after .closeBrace).count .code + 1 := by
  match modes with
  | .tag _ :: _ | .code :: _ | .prose :: _ | [] => simp [after]

end Modes

/-- Over a balanced list a stack leads where it leads alone, whatever is below it, and the same
scanners read the list.  A brace that the list closes is one that it has opened, so at that place
there is code on the stack. -/
theorem Balanced.framed {toks : List Token} (h : Balanced toks) (below : Modes) :
    ∀ {modes : Modes} {ts : List Lexeme}, ts.map Lexeme.token = toks →
      modes.count .code ≤ (modes.through ts).count .code ∧
        (modes ++ .code :: below).through ts = modes.through ts ++ .code :: below ∧
        Abreast modes (modes ++ .code :: below) ts := by
  induction h with
  | nil =>
      intro modes ts hts
      obtain rfl := List.map_eq_nil_iff.1 hts
      exact ⟨Nat.le_refl _, rfl, .nil (Modes.scanner_append _ _).symm⟩
  | @single t rest ht _ ih =>
      intro modes ts hts
      obtain ⟨span, us, rfl, hus⟩ := lexemes_cons hts
      have hclose : t ≠ .closeBrace := (Token.ne_of_not_isBrace ht).2
      have happend : (modes ++ .code :: below).after t = modes.after t ++ .code :: below :=
        Modes.after_append (fun _ => hclose) below
      obtain ⟨hcount, hthrough, habreast⟩ := @ih (modes.after t) us hus
      rw [← happend] at habreast
      simp only [Modes.through_cons, happend, hthrough, true_and]
      exact ⟨Nat.le_trans (Modes.count_after hclose) hcount,
        .cons (Modes.scanner_append _ _).symm habreast⟩
  | group _ _ ih ih' =>
      intro modes ts hts
      obtain ⟨left, _, rfl, hts'⟩ := lexemes_cons hts
      obtain ⟨us, _, rfl, hus, hclose⟩ := List.map_eq_append_iff.1 hts'
      obtain ⟨right, vs, rfl, hvs⟩ := lexemes_cons hclose
      let opened := modes.after .openBrace
      let closed := (opened.through us).after .closeBrace
      have hopen : (modes ++ .code :: below).after .openBrace = opened ++ .code :: below :=
        Modes.after_append (by simp) below
      obtain ⟨hcount, hthrough, habreast⟩ := @ih opened us hus
      have hopened : opened.count .code = modes.count .code + 1 := modes.count_after_openBrace
      have hne : opened.through us ≠ [] := by
        intro hnil
        rw [hnil, List.count_nil] at hcount
        omega
      have hclosed := Modes.after_append (t := .closeBrace) (fun hnil => absurd hnil hne) below
      have hcount' : (opened.through us).count .code ≤ closed.count .code + 1 :=
        Modes.count_after_closeBrace _
      obtain ⟨hcount'', hthrough'', habreast''⟩ := @ih' closed vs hvs
      have hscanner := fun modes : Modes => (Modes.scanner_append modes below).symm
      refine ⟨?_, ?_, .cons (hscanner _) ?_⟩
      · simp only [Modes.through_cons, Modes.through_append]
        show _ ≤ (closed.through vs).count .code
        omega
      · simp only [Modes.through_cons, Modes.through_append, hopen]
        rw [show modes.after .openBrace = opened from rfl, hthrough, hclosed]
        exact hthrough''
      · rw [hopen]
        refine habreast.append (.cons ?_ ?_)
        · rw [hthrough]
          exact hscanner _
        · rw [hthrough, hclosed]
          exact habreast''

/-! ### Sources with braces -/

/-- An element with something in braces, up to the closing brace. -/
def bracedFront (e : String) : String :=
  "<p>\x7b" ++ e ++ "\x7d"

/-- The element with a text after the braces. -/
def bracedSource (e t : String) : String :=
  bracedFront e ++ t ++ "</p>"

/-- Where the braces stop. -/
def bracesStop (e : String) : Nat :=
  5 + byteLength e.toList

/-- The lexemes of the braces. -/
def bracesLexemes (e : String) : List Lexeme :=
  ⟨.openBrace, ⟨3, 4⟩⟩ :: ((lexemes e).map (Lexeme.relocate (4 + ·)) ++
    [⟨.closeBrace, ⟨4 + byteLength e.toList, bracesStop e⟩⟩])

/-- The document in which the text is a child after the braces. -/
def bracedDocument (e t : String) (content : Content) : Document :=
  let stop := bracesStop e + byteLength t.toList
  ⟨[.pair ⟨.plain "p", [], ⟨0, 3⟩⟩
    [.braced ⟨content, ⟨3, bracesStop e⟩⟩, .prose ⟨bracesStop e, stop⟩] ⟨stop, stop + 4⟩]⟩

/-- The pieces before what stands in the braces. -/
def openingPieces : List Piece :=
  [⟨some .less, ['<']⟩, ⟨some (.word "p"), ['p']⟩, ⟨some .greater, ['>']⟩,
    ⟨some .openBrace, ['\x7b']⟩]

/-- The pieces of the closing tag. -/
def closingPieces : List Piece :=
  [⟨some .less, ['<']⟩, ⟨some .slash, ['/']⟩, ⟨some (.word "p"), ['p']⟩, ⟨some .greater, ['>']⟩]

theorem bitten_openingPieces (rest : List Char) : Bitten [] openingPieces rest [.code, .prose] :=
  .step rfl (.step rfl (.step rfl (.step rfl .done)))

theorem bitten_closingPieces (below : Modes) :
    Bitten (.prose :: below) closingPieces [] below :=
  .step rfl (.step rfl (.step rfl (.step rfl .done)))

/-- A closing brace is a piece of its own under any modes. -/
theorem bite_closeBrace (modes : Modes) (rest : List Char) :
    modes.scanner.bite ('\x7d' :: rest) = some ⟨some .closeBrace, 1, rest⟩ := by
  match modes with
  | .tag _ :: _ | .code :: _ | .prose :: _ | [] => rfl

section BracedSource

variable {e t : String} (hknown : ∀ l ∈ lexemes e, l.token.isStray = false)
  (hbalanced : Balanced ((lexemes e).map Lexeme.token))
include hknown hbalanced

/-- Up to the closing brace, nothing depends on what follows. -/
theorem bitten_bracedFront : ∃ ps, textOf ps = e.toList ∧ lexemes e = lexemesAt 0 ps ∧
    ∀ rest, Bitten [] (openingPieces ++ (ps ++ [⟨some .closeBrace, ['\x7d']⟩])) rest
      ((Modes.through [.code, .prose] (lexemes e)).after .closeBrace) := by
  obtain ⟨ps, htext, hlexemes, hbitten⟩ := exists_bitten_before hknown
  refine ⟨ps, htext, hlexemes, fun rest => ?_⟩
  have hbefore := hbitten ('\x7d' :: rest) (by rintro c ⟨⟩; rfl) (by rintro - c ⟨⟩; rfl)
  have habreast : Abreast [] [.code, .prose] (lexemes e) := (hbalanced.framed [.prose] rfl).2.2
  rw [hlexemes] at habreast
  have hunder := hbefore.under habreast
  rw [← hlexemes] at hunder
  refine (bitten_openingPieces _).append (hunder.append (.step ?_ .done))
  exact bite_closeBrace _ rest

theorem finalModes_bracedFront : finalModes (bracedFront e) =
    (Modes.through [.code, .prose] (lexemes e)).after .closeBrace := by
  obtain ⟨ps, htext, -, hbitten⟩ := bitten_bracedFront hknown hbalanced
  refine (hbitten []).finalModes_eq ?_
  simp [bracedFront, openingPieces, htext]

/-- Without `<` in it, what stands in the braces leaves nothing behind. -/
theorem finalModes_of_no_less (hless : ∀ l ∈ lexemes e, l.token ≠ .less) :
    finalModes (bracedFront e) = [.prose] := by
  have hcode : Modes.InCode [.code, .prose] := rfl
  rw [finalModes_bracedFront hknown hbalanced, (hcode.through_balanced hbalanced rfl hless).1]
  rfl

/-- The lexemes of a source are those up to the closing brace, and those of the pieces that are read
after it, under the modes that the braces lead to. -/
theorem lexemes_bracedSource {ps : List Piece} {after : Modes}
    (h : Bitten (finalModes (bracedFront e)) ps [] after)
    (htext : textOf ps = t.toList ++ ['<', '/', 'p', '>']) : lexemes (bracedSource e t) =
      ⟨.less, ⟨0, 1⟩⟩ :: ⟨.word "p", ⟨1, 2⟩⟩ :: ⟨.greater, ⟨2, 3⟩⟩ ::
        (bracesLexemes e ++ lexemesAt (bracesStop e) ps) := by
  obtain ⟨qs, hqs, hlexemes, hbitten⟩ := bitten_bracedFront hknown hbalanced
  rw [← finalModes_bracedFront hknown hbalanced] at hbitten
  have hall := (hbitten (textOf ps ++ [])).append h
  have hclose : lexemesAt (4 + byteLength e.toList) (⟨some .closeBrace, ['\x7d']⟩ :: ps) =
      ⟨.closeBrace, ⟨4 + byteLength e.toList, bracesStop e⟩⟩ :: lexemesAt (bracesStop e) ps := by
    have hbrace : ('\x7d' : Char).utf8Size = 1 := rfl
    have hstop : 4 + byteLength e.toList + 1 = bracesStop e := by
      rw [bracesStop]
      omega
    simp [lexemesAt, Piece.lexeme?, Step.isBlankProse, hbrace, hstop]
  have hopening : ∀ rest, lexemesAt 0 (openingPieces ++ rest) = ⟨.less, ⟨0, 1⟩⟩ ::
      ⟨.word "p", ⟨1, 2⟩⟩ :: ⟨.greater, ⟨2, 3⟩⟩ :: ⟨.openBrace, ⟨3, 4⟩⟩ :: lexemesAt 4 rest :=
    fun rest => rfl
  have hsource : textOf (openingPieces ++ (qs ++ [⟨some .closeBrace, ['\x7d']⟩]) ++ ps) =
      (bracedSource e t).toList := by
    simp [bracedSource, bracedFront, openingPieces, hqs, htext]
  rw [hall.lexemes_eq hsource, List.append_assoc, hopening, List.append_assoc,
    List.singleton_append, lexemesAt_append, hqs, hclose, lexemesAt_eq 4, ← hlexemes]
  simp [bracesLexemes]

/-- If the text is a child, prose is read where it starts. -/
theorem prose_of_parse_bracedSource {content : Content}
    (h : Document.parse (bracedSource e t) = .ok (bracedDocument e t content)) :
    (finalModes (bracedFront e)).head? = some .prose := by
  -- the child is a lexeme, which starts where the braces stop
  obtain ⟨text, hmem⟩ : ∃ text, ⟨.prose text,
      ⟨bracesStop e, bracesStop e + byteLength t.toList⟩⟩ ∈ lexemes (bracedSource e t) := by
    obtain ⟨us, hus, hpair⟩ := writes_of_among h (.here (List.mem_singleton_self _))
    obtain ⟨-, vs, -, hvs, -, hchildren⟩ := hpair.element_lists
    obtain ⟨ws, hws, hchild⟩ := hchildren.scattered_children.exists_of_mem
      (x := .prose ⟨bracesStop e, bracesStop e + byteLength t.toList⟩) (by simp [Element.children])
    cases hchild with
    | @prose text => exact ⟨text, ((hws.trans hvs).trans hus).subset (List.mem_singleton_self _)⟩
  obtain ⟨ps, after, htext, hps⟩ :=
    exists_bitten (finalModes (bracedFront e)) (t.toList ++ ['<', '/', 'p', '>'])
  let front : List Lexeme := ⟨.less, ⟨0, 1⟩⟩ :: ⟨.word "p", ⟨1, 2⟩⟩ :: ⟨.greater, ⟨2, 3⟩⟩ ::
    ⟨.openBrace, ⟨3, 4⟩⟩ :: (lexemes e).map (Lexeme.relocate (4 + ·))
  let close : Lexeme := ⟨.closeBrace, ⟨4 + byteLength e.toList, bracesStop e⟩⟩
  have hlexemes : lexemes (bracedSource e t) = front ++ close :: lexemesAt (bracesStop e) ps := by
    rw [lexemes_bracedSource hknown hbalanced hps htext]
    simp [bracesLexemes, front, close]
  have hordered := ordered_lexemes (bracedSource e t)
  rw [hlexemes] at hmem hordered
  rcases List.mem_append.1 hmem with hfront | hback
  · -- what stands before the closing brace stops before it
    have hle := hordered.stop_le_start hfront (List.mem_cons_self (a := close))
    have hlt := hordered.nonempty close (by simp)
    have hne := hordered.nonempty _ hmem
    dsimp only [close] at hle hlt hne
    omega
  · rcases List.mem_cons.1 hback with hclose | hback
    · simp [close] at hclose
    -- of what comes after it, only the first piece starts where it stops
    cases hps with
    | done => cases hback
    | @step _ _ p ps _ hbite _ =>
        obtain ⟨hne, haccounts⟩ := Bitten.takes hbite
        rcases List.mem_append.1 hback with hfirst | hothers
        · rw [(Piece.lexeme?_eq_some (Option.mem_toList.1 hfirst)).1] at haccounts
          exact haccounts.1
        · have hle := le_start_of_mem_lexemesAt hothers
          have hpos := byteLength_pos hne
          dsimp only at hle
          omega

variable (hblank : ∃ c ∈ t.toList, isBlank c = false) (hplain : ∀ c ∈ t.toList, endsProse c = false)
include hblank hplain

/-- Where prose is read after the braces, the text is a child. -/
theorem parse_bracedSource (hprose : (finalModes (bracedFront e)).head? = some .prose) :
    ∃ content, Document.parse (bracedSource e t) = .ok (bracedDocument e t content) := by
  obtain ⟨below, hbelow⟩ := List.head?_eq_some_iff.1 hprose
  have hne : t.toList ≠ [] := by
    obtain ⟨c, hc, -⟩ := hblank
    exact List.ne_nil_of_mem hc
  have hrun : proseBite (t.toList ++ ['<', '/', 'p', '>']) = _ :=
    proseBite_append hne hplain (by rintro c ⟨⟩; rfl)
  rw [String.ofList_toList] at hrun
  have hpast : Modes.past (.prose :: below) ⟨some (.prose t), t.toList⟩ = .prose :: below := rfl
  have hps : Bitten (.prose :: below) (⟨some (.prose t), t.toList⟩ :: closingPieces) [] below :=
    .step hrun (hpast ▸ bitten_closingPieces below)
  have hvisible : Step.isBlankProse (.prose t) = false := by
    simpa [Step.isBlankProse] using hblank
  -- the lexemes of the text and of the closing tag
  let stop := bracesStop e + byteLength t.toList
  have hback : lexemesAt (bracesStop e) (⟨some (.prose t), t.toList⟩ :: closingPieces) =
      ⟨.prose t, ⟨bracesStop e, stop⟩⟩ :: Lead.closingTag stop := by
    rw [lexemesAt]
    simp only [Piece.lexeme?, Option.bind_some, hvisible]
    rfl
  have hinside : Balanced (((lexemes e).map (Lexeme.relocate (4 + ·))).map Lexeme.token) := by
    rwa [map_token_relocate]
  obtain ⟨content, hcontent⟩ := exists_spells_container ⟨3, 4⟩
    ⟨4 + byteLength e.toList, bracesStop e⟩ hinside
  refine ⟨content, parse_of_spells ?_⟩
  rw [lexemes_bracedSource hknown hbalanced (hbelow ▸ hps) (by simp [closingPieces]), hback]
  have hchildren : Spells _ (.children
      [.braced ⟨content, ⟨3, bracesStop e⟩⟩, .prose ⟨bracesStop e, stop⟩]) :=
    .children (.bracedChild hcontent) (.children (@Written.prose _ t _) .noChildren)
  have hpair := @Written.pair _ ⟨0, 1⟩ ⟨2, 3⟩ ⟨stop, stop + 1⟩ ⟨stop + 1, stop + 2⟩
    ⟨stop + 3, stop + 4⟩ [⟨.word "p", ⟨1, 2⟩⟩] [] _ [⟨.word "p", ⟨stop + 2, stop + 3⟩⟩]
    (.plain "p") [] _ trivial (by simp) rfl .noItems hchildren rfl
  have hdocument : Spells _ (.elements (bracedDocument e t content).elements) :=
    .elements hpair .noElements
  show Spells _ (.elements (bracedDocument e t content).elements)
  simpa only [bracesLexemes, Lead.closingTag, List.cons_append, List.append_assoc, List.nil_append,
    List.append_nil] using hdocument

end BracedSource

/-- What stands in braces, however it is lexed, leaves the text after it alone exactly if prose is
read after the closing brace; and it does if there is no `<` in it. -/
theorem prose_after_braces (e t : String) (hknown : ∀ l ∈ lexemes e, l.token.isStray = false)
    (hbalanced : Balanced ((lexemes e).map Lexeme.token))
    (hblank : ∃ c ∈ t.toList, isBlank c = false) (hplain : ∀ c ∈ t.toList, endsProse c = false) :
    ((∃ content, Document.parse (bracedSource e t) = .ok (bracedDocument e t content)) ↔
      (finalModes (bracedFront e)).head? = some .prose) ∧
    ((∀ l ∈ lexemes e, l.token ≠ .less) →
      ∃ content, Document.parse (bracedSource e t) = .ok (bracedDocument e t content)) := by
  refine ⟨⟨fun ⟨content, h⟩ => prose_of_parse_bracedSource hknown hbalanced h,
    parse_bracedSource hknown hbalanced hblank hplain⟩, fun hless => ?_⟩
  have hprose := finalModes_of_no_less hknown hbalanced hless
  exact parse_bracedSource hknown hbalanced hblank hplain (by rw [hprose]; rfl)

/-- A function, which is no expression here, leaves the text after it alone. -/
theorem prose_after_braces_sample : (∀ l ∈ lexemes "() => \x7b\x7d", l.token.isStray = false) ∧
    Balanced ((lexemes "() => \x7b\x7d").map Lexeme.token) ∧
    (∃ c ∈ "x".toList, isBlank c = false) ∧ (∀ c ∈ "x".toList, endsProse c = false) ∧
    (∀ l ∈ lexemes "() => \x7b\x7d", l.token ≠ .less) ∧
    ∃ content, Document.parse (bracedSource "() => \x7b\x7d" "x") =
      .ok (bracedDocument "() => \x7b\x7d" "x" content) := by
  have hknown : ∀ l ∈ lexemes "() => \x7b\x7d", l.token.isStray = false := by decide +kernel
  have hless : ∀ l ∈ lexemes "() => \x7b\x7d", l.token ≠ .less := by decide +kernel
  have htokens : (lexemes "() => \x7b\x7d").map Lexeme.token =
      [.openParen, .closeParen, .arrow, .openBrace, .closeBrace] := by decide +kernel
  have hbalanced : Balanced ((lexemes "() => \x7b\x7d").map Lexeme.token) := by
    rw [htokens]
    exact .single rfl (.single rfl (.single rfl (.group .nil .nil)))
  have hblank : ∃ c ∈ "x".toList, isBlank c = false := ⟨'x', by simp, by decide⟩
  have hplain : ∀ c ∈ "x".toList, endsProse c = false := by simp [endsProse]
  exact ⟨hknown, hbalanced, hblank, hplain, hless,
    (prose_after_braces _ _ hknown hbalanced hblank hplain).2 hless⟩

/-- A comparison is a balanced list as well, and leaves its `<` open: the source is no document. -/
theorem comparison_not_before_prose : (∀ l ∈ lexemes "a < b", l.token.isStray = false) ∧
    Balanced ((lexemes "a < b").map Lexeme.token) ∧
    (∃ c ∈ "x".toList, isBlank c = false) ∧ (∀ c ∈ "x".toList, endsProse c = false) ∧
    ∀ d, Document.parse "<p>\x7ba < b\x7dx</p>" ≠ .ok d := by
  have htokens : (lexemes "a < b").map Lexeme.token = [.word "a", .less, .word "b"] := by
    decide +kernel
  have hfails : (Document.parse "<p>\x7ba < b\x7dx</p>").isOk = false := by decide +kernel
  refine ⟨by decide +kernel, ?_, ⟨'x', by simp, by decide⟩, by simp [endsProse], fun d hd => ?_⟩
  · rw [htokens]
    exact .single rfl (.single rfl (.single rfl .nil))
  · rw [hd] at hfails
    cases hfails

end RoleAudit.Markup
