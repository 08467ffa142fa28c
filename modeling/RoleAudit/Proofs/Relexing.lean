import RoleAudit.Proofs.Lookahead
import RoleAudit.Proofs.Modes

/-!
# Lexing the same pieces again

Lexing bites pieces off a text, and `Bitten` says which: the pieces `ps` go off the front of a text,
before `rest`, and lead from one stack of modes to another.  The lexemes are then those of the
pieces, each at its offset, and so are the same but for their spans wherever the pieces stand.

The same pieces are bitten off in other surroundings.  Under another stack they are if the same
scanner reads every one of them (`Abreast`); before another text they are if that goes on with the
last piece as little as the first did.

Main statements: `exists_bitten_source`, `Bitten.under`, `Bitten.before` and `exists_bitten_before`.
-/

namespace RoleAudit.Text

/-- A stretch with both of its ends put elsewhere. -/
def Span.relocate (f : Nat → Nat) (span : Span) : Span :=
  ⟨f span.start, f span.stop⟩

@[simp] theorem Span.relocate_mk (f : Nat → Nat) (start stop : Nat) :
    Span.relocate f ⟨start, stop⟩ = ⟨f start, f stop⟩ := rfl

@[simp] theorem Span.relocate_start (f : Nat → Nat) (span : Span) :
    (span.relocate f).start = f span.start := rfl

@[simp] theorem Span.relocate_stop (f : Nat → Nat) (span : Span) :
    (span.relocate f).stop = f span.stop := rfl

end RoleAudit.Text

namespace RoleAudit.Markup

open RoleAudit.Text

section Trace

variable {modes : Modes} {offset : Nat} {text : List Char}

theorem traceFrom_of_bite {b : Bite} (h : modes.scanner.bite text = some b) :
    traceFrom modes offset text =
      ⟨modes, b.token, ⟨offset, offset + b.width⟩, (b.token.map modes.after).getD modes⟩ ::
        traceFrom ((b.token.map modes.after).getD modes) (offset + b.width) b.rest := by
  rw [traceFrom]
  split
  · next hnone => rw [hnone] at h; cases h
  · next b' hb =>
      rw [hb] at h
      cases h
      cases b.token <;> rfl

theorem bite_nil (modes : Modes) : modes.scanner.bite [] = none := by
  cases modes with
  | nil => rfl
  | cons mode modes => cases mode <;> rfl

@[simp] theorem traceFrom_nil (modes : Modes) (offset : Nat) : traceFrom modes offset [] = [] := by
  rw [traceFrom]
  split
  · rfl
  · next hb => simp [bite_nil] at hb

end Trace

/-! ### Spans elsewhere -/

/-- A lexeme with its span put elsewhere. -/
def Lexeme.relocate (f : Nat → Nat) (t : Lexeme) : Lexeme :=
  ⟨t.token, t.span.relocate f⟩

@[simp] theorem Lexeme.relocate_token (f : Nat → Nat) (t : Lexeme) :
    (t.relocate f).token = t.token := rfl

@[simp] theorem Lexeme.relocate_mk (f : Nat → Nat) (t : Token) (span : Span) :
    Lexeme.relocate f ⟨t, span⟩ = ⟨t, span.relocate f⟩ := rfl

/-! ### Pieces and their lexemes -/

/-- A piece of a text and the token that it stands for, if it does for any. -/
structure Piece where
  token : Option Token
  text : List Char

/-- The text that pieces make up. -/
def textOf (ps : List Piece) : List Char :=
  ps.flatMap Piece.text

@[simp] theorem textOf_nil : textOf [] = [] := rfl

@[simp] theorem textOf_cons (p : Piece) (ps : List Piece) :
    textOf (p :: ps) = p.text ++ textOf ps :=
  List.flatMap_cons

@[simp] theorem textOf_append (ps qs : List Piece) : textOf (ps ++ qs) = textOf ps ++ textOf qs :=
  List.flatMap_append

/-- The lexeme of a piece that stands at an offset, unless the piece means nothing. -/
def Piece.lexeme? (p : Piece) (offset : Nat) : Option Lexeme :=
  p.token.bind fun t =>
    if Step.isBlankProse t then none else some ⟨t, ⟨offset, offset + byteLength p.text⟩⟩

/-- The lexemes of pieces that stand one after the other, from an offset on. -/
def lexemesAt : Nat → List Piece → List Lexeme
  | _, [] => []
  | offset, p :: ps => (p.lexeme? offset).toList ++ lexemesAt (offset + byteLength p.text) ps

@[simp] theorem lexemesAt_nil (offset : Nat) : lexemesAt offset [] = [] := rfl

theorem lexemesAt_append (offset : Nat) (ps qs : List Piece) :
    lexemesAt offset (ps ++ qs) =
      lexemesAt offset ps ++ lexemesAt (offset + byteLength (textOf ps)) qs := by
  induction ps generalizing offset with
  | nil => rfl
  | cons p ps ih => simp [lexemesAt, ih, Nat.add_assoc]

/-- Pieces that stand elsewhere have the same lexemes, elsewhere. -/
theorem lexemesAt_add (n offset : Nat) (ps : List Piece) :
    lexemesAt (n + offset) ps = (lexemesAt offset ps).map (Lexeme.relocate (n + ·)) := by
  induction ps generalizing offset with
  | nil => rfl
  | cons p ps ih =>
      have hfirst : p.lexeme? (n + offset) =
          (p.lexeme? offset).map (Lexeme.relocate (n + ·)) := by
        cases h : p.token with
        | none => simp [Piece.lexeme?, h]
        | some t => by_cases ht : Step.isBlankProse t <;>
            simp [Piece.lexeme?, h, ht, Nat.add_assoc]
      rw [lexemesAt, lexemesAt, hfirst, Nat.add_assoc, ih]
      cases p.lexeme? offset <;> simp

theorem lexemesAt_eq (offset : Nat) (ps : List Piece) :
    lexemesAt offset ps = (lexemesAt 0 ps).map (Lexeme.relocate (offset + ·)) :=
  lexemesAt_add offset 0 ps

theorem map_token_relocate (f : Nat → Nat) (ts : List Lexeme) :
    (ts.map (Lexeme.relocate f)).map Lexeme.token = ts.map Lexeme.token := by
  simp [Function.comp_def]

theorem Piece.lexeme?_eq_some {p : Piece} {offset : Nat} {l : Lexeme}
    (h : p.lexeme? offset = some l) :
    p.token = some l.token ∧ l.span = ⟨offset, offset + byteLength p.text⟩ := by
  obtain ⟨t, htoken, h⟩ := Option.bind_eq_some_iff.1 h
  split at h
  · cases h
  · cases h
    exact ⟨htoken, rfl⟩

theorem le_start_of_mem_lexemesAt {offset : Nat} {ps : List Piece} {l : Lexeme}
    (h : l ∈ lexemesAt offset ps) : offset ≤ l.span.start := by
  induction ps generalizing offset with
  | nil => cases h
  | cons p ps ih =>
      rcases List.mem_append.1 h with h | h
      · have hspan := (Piece.lexeme?_eq_some (Option.mem_toList.1 h)).2
        exact Nat.le_of_eq (congrArg Span.start hspan).symm
      · exact Nat.le_trans (Nat.le_add_right _ _) (ih h)

/-- The pieces that a tag starts and stops with. -/
def Piece.less : Piece := ⟨some .less, ['<']⟩

def Piece.greater : Piece := ⟨some .greater, ['>']⟩

@[simp] theorem Piece.text_less : Piece.less.text = ['<'] := rfl

@[simp] theorem Piece.text_greater : Piece.greater.text = ['>'] := rfl

/-! ### Biting pieces off -/

/-- The stack after a piece. -/
def Modes.past (modes : Modes) (p : Piece) : Modes :=
  (p.token.map modes.after).getD modes

/-- From the text that `ps` and `rest` make up the pieces `ps` are bitten off, one by one, which
leads from one stack to another. -/
inductive Bitten : Modes → List Piece → List Char → Modes → Prop
  | done {modes : Modes} {rest : List Char} : Bitten modes [] rest modes
  | step {modes after : Modes} {p : Piece} {ps : List Piece} {rest : List Char}
      (hbite : modes.scanner.bite (p.text ++ (textOf ps ++ rest)) =
        some ⟨p.token, byteLength p.text, textOf ps ++ rest⟩)
      (hrest : Bitten (modes.past p) ps rest after) : Bitten modes (p :: ps) rest after

/-- Every text is bitten off in pieces. -/
theorem exists_bitten (modes : Modes) (text : List Char) :
    ∃ ps after, textOf ps = text ∧ Bitten modes ps [] after := by
  induction hlength : text.length using Nat.strongRecOn generalizing modes text with
  | ind length ih =>
      cases text with
      | nil => exact ⟨[], modes, rfl, .done⟩
      | cons c text =>
          obtain ⟨b, hbite⟩ := Option.isSome_iff_exists.1 (@bite_isSome modes c text)
          have hshorter := modes.scanner.shorter hbite
          obtain ⟨token, width, rest⟩ := b
          obtain ⟨piece, -, htext, rfl, -⟩ := bite_takes hbite
          obtain ⟨ps, after, rfl, hrest⟩ :=
            ih rest.length (hlength ▸ hshorter) (modes.past ⟨token, piece⟩) rest rfl
          refine ⟨⟨token, piece⟩ :: ps, after, htext.symm, .step ?_ hrest⟩
          rw [List.append_nil, ← htext, hbite]

namespace Bitten

variable {modes mid after : Modes} {p : Piece} {ps qs : List Piece} {rest : List Char}

theorem append (h : Bitten modes ps (textOf qs ++ rest) mid) (h' : Bitten mid qs rest after) :
    Bitten modes (ps ++ qs) rest after := by
  generalize hfollow : textOf qs ++ rest = follow at h
  induction h with
  | done => exact h'
  | step hbite _ ih =>
      subst hfollow
      rw [List.cons_append]
      refine .step ?_ (ih h' rfl)
      rwa [textOf_append, List.append_assoc]

/-- What is bitten off in two runs of pieces is so in one after the other. -/
theorem exists_mid (h : Bitten modes (ps ++ qs) rest after) :
    ∃ mid, Bitten modes ps (textOf qs ++ rest) mid ∧ Bitten mid qs rest after := by
  induction ps generalizing modes with
  | nil => exact ⟨modes, .done, h⟩
  | cons p ps ih =>
      rw [List.cons_append] at h
      cases h with
      | step hbite hrest =>
          obtain ⟨mid, hps, hqs⟩ := ih hrest
          refine ⟨mid, .step ?_ hps, hqs⟩
          rwa [textOf_append, List.append_assoc] at hbite

/-- A piece is what its token stands for. -/
theorem takes (hbite : modes.scanner.bite (p.text ++ rest) =
    some ⟨p.token, byteLength p.text, rest⟩) :
    p.text ≠ [] ∧ Accounts modes p.text rest p.token := by
  obtain ⟨piece, hne, htext, -, haccounts⟩ := bite_takes hbite
  obtain rfl : p.text = piece := List.append_cancel_right htext
  exact ⟨hne, haccounts⟩

/-- A piece without a lexeme leaves the stack as it is. -/
theorem past_of_lexeme?_eq_none (hbite : modes.scanner.bite (p.text ++ rest) =
    some ⟨p.token, byteLength p.text, rest⟩) {offset : Nat} (h : p.lexeme? offset = none) :
    modes.past p = modes := by
  have hstep :
      Step.lexeme? ⟨modes, p.token, ⟨offset, offset + byteLength p.text⟩, modes⟩ = none := by
    cases htoken : p.token with
    | none => rfl
    | some t => simpa [Piece.lexeme?, Step.lexeme?, htoken] using h
  exact Step.after_of_lexeme?_eq_none (takes hbite).2 hstep

theorem past_of_lexeme?_eq_some {t : Lexeme} {offset : Nat} (h : p.lexeme? offset = some t) :
    modes.past p = modes.after t.token := by
  simp [Modes.past, (Piece.lexeme?_eq_some h).1]

/-- The piece of a lexeme is known if its token stands for one text only. -/
theorem piece_eq {text : List Char} {t : Token} {span : Span} {offset : Nat}
    (hbite : modes.scanner.bite (p.text ++ rest) = some ⟨p.token, byteLength p.text, rest⟩)
    (h : p.lexeme? offset = some ⟨t, span⟩) (hverbatim : t.isVerbatim = true)
    (htext : t.spelling = String.ofList text) : p = ⟨some t, text⟩ := by
  obtain ⟨token, piece⟩ := p
  obtain rfl : token = some t := (Piece.lexeme?_eq_some h).1
  have hspelling := spelling_of_accounts hverbatim (takes hbite).2
  rw [htext, String.ofList_inj] at hspelling
  rw [hspelling]

/-- The stack after pieces is the stack after their lexemes. -/
theorem after_eq (h : Bitten modes ps rest after) (offset : Nat) :
    after = modes.through (lexemesAt offset ps) := by
  induction h generalizing offset with
  | done => rfl
  | @step modes after p ps rest hbite _ ih =>
      cases hlexeme : p.lexeme? offset with
      | none =>
          rw [lexemesAt, hlexeme, ih, past_of_lexeme?_eq_none hbite hlexeme]
          rfl
      | some t =>
          rw [lexemesAt, hlexeme, ih, past_of_lexeme?_eq_some hlexeme]
          rfl

/-- The lexemes of a text are those of its pieces, and those of what is left. -/
theorem filterMap_eq (h : Bitten modes ps rest after) (offset : Nat) :
    (traceFrom modes offset (textOf ps ++ rest)).filterMap Step.lexeme? = lexemesAt offset ps ++
      (traceFrom after (offset + byteLength (textOf ps)) rest).filterMap Step.lexeme? := by
  induction h generalizing offset with
  | done => rfl
  | @step modes after p ps rest hbite hrest ih =>
      have hlexeme : ∀ next, Step.lexeme? ⟨modes, p.token, ⟨offset, offset + byteLength p.text⟩,
          next⟩ = p.lexeme? offset := by
        intro next
        cases htoken : p.token <;> simp [Piece.lexeme?, Step.lexeme?, htoken]
      have htail := ih (offset + byteLength p.text)
      rw [textOf_cons, List.append_assoc, traceFrom_of_bite hbite, List.filterMap_cons, hlexeme,
        lexemesAt, byteLength_append, ← Nat.add_assoc]
      unfold Modes.past at htail
      rw [htail]
      cases p.lexeme? offset <;> rfl

section Source

variable {source : String} (h : Bitten [] ps [] after) (htext : textOf ps = source.toList)
include h htext

theorem lexemes_eq : lexemes source = lexemesAt 0 ps := by
  have hall := h.filterMap_eq 0
  rwa [List.append_nil, htext, traceFrom_nil, List.filterMap_nil, List.append_nil] at hall

theorem finalModes_eq : finalModes source = after := by
  rw [Markup.finalModes_eq, h.lexemes_eq htext, ← h.after_eq 0]

end Source

end Bitten

/-- Every source is made of the pieces that are bitten off it. -/
theorem exists_bitten_source (source : String) : ∃ ps, textOf ps = source.toList ∧
    Bitten [] ps [] (finalModes source) ∧ lexemes source = lexemesAt 0 ps := by
  obtain ⟨ps, after, htext, hbitten⟩ := exists_bitten [] source.toList
  exact ⟨ps, htext, hbitten.finalModes_eq htext ▸ hbitten, hbitten.lexemes_eq htext⟩

/-! ### Other surroundings -/

/-- Over lexemes, two stacks lead from one to the next with the same scanner at every place. -/
inductive Abreast : Modes → Modes → List Lexeme → Prop
  | nil {modes modes' : Modes} (h : modes.scanner = modes'.scanner) : Abreast modes modes' []
  | cons {modes modes' : Modes} {t : Lexeme} {ts : List Lexeme} (h : modes.scanner = modes'.scanner)
      (hrest : Abreast (modes.after t.token) (modes'.after t.token) ts) :
      Abreast modes modes' (t :: ts)

namespace Abreast

variable {modes modes' : Modes} {ts us : List Lexeme}

theorem scanner_eq (h : Abreast modes modes' ts) : modes.scanner = modes'.scanner := by
  cases h <;> assumption

theorem append (h : Abreast modes modes' ts)
    (h' : Abreast (modes.through ts) (modes'.through ts) us) : Abreast modes modes' (ts ++ us) := by
  induction h with
  | nil _ => exact h'
  | cons h _ ih => exact .cons h (ih h')

end Abreast

namespace Bitten

variable {modes modes' after : Modes} {ps : List Piece} {rest rest' : List Char} {offset : Nat}

/-- The same pieces are bitten off under a stack that goes abreast of the first one. -/
theorem under (h : Bitten modes ps rest after)
    (habreast : Abreast modes modes' (lexemesAt offset ps)) :
    Bitten modes' ps rest (modes'.through (lexemesAt offset ps)) := by
  induction h generalizing modes' offset with
  | done => exact .done
  | @step modes after p ps rest hbite _ ih =>
      have hbite' := hbite
      rw [habreast.scanner_eq] at hbite'
      cases hlexeme : p.lexeme? offset with
      | none =>
          rw [lexemesAt, hlexeme] at habreast ⊢
          rw [past_of_lexeme?_eq_none hbite hlexeme] at ih
          have hrest := ih habreast
          exact .step hbite' (by rwa [past_of_lexeme?_eq_none hbite' hlexeme])
      | some t =>
          rw [lexemesAt, hlexeme] at habreast ⊢
          rw [past_of_lexeme?_eq_some hlexeme] at ih
          cases habreast with
          | cons _ habreast =>
              have hrest := ih habreast
              exact .step hbite' (by rwa [past_of_lexeme?_eq_some hlexeme])

/-- The same pieces are bitten off before a text that is alike.  If prose is read in the end, it has
to end the run; and if a piece is stray, what stays open in the text before has to stay open in
it. -/
theorem instead (h : Bitten modes ps rest after) (halike : Alike rest rest')
    (hrun : after.head? = some .prose → ∀ c ∈ rest'.head?, endsProse c = true)
    (hstray : ∀ p ∈ ps, ∀ t ∈ p.token, t.isStray = true →
      ∀ front, StaysOpen (front ++ rest) (front ++ rest')) :
    Bitten modes ps rest' after := by
  induction h with
  | done => exact .done
  | @step modes after p ps rest hbite hrest ih =>
      have htail := ih halike hrun fun q hq => hstray q (List.mem_cons_of_mem _ hq)
      refine .step ?_ htail
      -- a run of prose ends where the next piece starts, or where no piece is left
      have hrun' : ∀ run, p.token = some (.prose run) →
          ∀ c ∈ (textOf ps ++ rest').head?, endsProse c = true := by
        intro run hp c hc
        have haccounts := (takes hbite).2
        rw [hp] at haccounts
        cases ps with
        | nil =>
            have hpast : modes.past p = modes := by
              simp [Modes.past, hp, modes.after_prose haccounts.1]
            cases hrest
            exact hrun (by rw [hpast]; exact haccounts.1) c hc
        | cons q qs =>
            obtain ⟨d, inside, hq⟩ : ∃ d inside, q.text = d :: inside := by
              cases hrest with
              | step hbite' _ =>
                  rw [← List.append_assoc] at hbite'
                  rw [textOf_cons] at *
                  exact List.exists_cons_of_ne_nil (takes (by simpa using hbite')).1
            refine haccounts.2.2.2 c ?_
            simpa [hq] using hc
      obtain ⟨piece, htext, hbite'⟩ := bite_before hbite
        (fun t ht hs => hstray p List.mem_cons_self t ht hs (textOf ps))
        (fun _ => halike.append_left (textOf ps)) hrun'
      obtain rfl : p.text = piece := List.append_cancel_right htext
      exact hbite'

/-- A stray piece is one before a front part of the text after it. -/
theorem before (h : Bitten modes ps rest after) (halike : Alike rest rest')
    (hrun : after.head? = some .prose → ∀ c ∈ rest'.head?, endsProse c = true)
    (hstray : ∀ p ∈ ps, ∀ t ∈ p.token, t.isStray = true → rest' <+: rest) :
    Bitten modes ps rest' after :=
  h.instead halike hrun fun p hp t ht hs front =>
    .of_front ((List.prefix_append_right_inj front).2 (hstray p hp t ht hs))

end Bitten

/-- A stray piece is a stray lexeme. -/
theorem mem_lexemesAt_of_isStray {ps : List Piece} {p : Piece} {t : Token} (hp : p ∈ ps)
    (htoken : p.token = some t) (ht : t.isStray = true) (offset : Nat) :
    ∃ l ∈ lexemesAt offset ps, l.token = t := by
  induction ps generalizing offset with
  | nil => cases hp
  | cons q ps ih =>
      rcases List.mem_cons.1 hp with rfl | hp
      · have hprose : Step.isBlankProse t = false := by cases t <;> first | rfl | cases ht
        exact ⟨_, List.mem_append_left _ (by simp [Piece.lexeme?, htoken, hprose]; rfl), rfl⟩
      · obtain ⟨l, hl, hlt⟩ := ih hp (offset + byteLength q.text)
        exact ⟨l, List.mem_append_right _ hl, hlt⟩

/-- Without stray pieces, a source is bitten off in the same pieces before any text that goes on
with none of them. -/
theorem exists_bitten_before {source : String}
    (hknown : ∀ t ∈ lexemes source, t.token.isStray = false) : ∃ ps, textOf ps = source.toList ∧
      lexemes source = lexemesAt 0 ps ∧ ∀ rest, (∀ c ∈ rest.head?, joins c = false) →
        ((finalModes source).head? = some .prose → ∀ c ∈ rest.head?, endsProse c = true) →
          Bitten [] ps rest (finalModes source) := by
  obtain ⟨ps, htext, hbitten, hlexemes⟩ := exists_bitten_source source
  refine ⟨ps, htext, hlexemes, fun rest hjoins hrun => ?_⟩
  refine hbitten.before (.nil_left hjoins) hrun fun p hp t ht hstray => ?_
  obtain ⟨l, hl, rfl⟩ := mem_lexemesAt_of_isStray hp ht hstray 0
  rw [hknown l (hlexemes ▸ hl)] at hstray
  cases hstray

end RoleAudit.Markup
