import RoleAudit.Proofs.Pieces

/-!
# What lexing keeps of a source

The steps of lexing tile the source: one piece follows the other, from the first byte to the last,
and every piece is accounted for by its token or means nothing.  Hence the lexemes neither overlap
nor hold anything that is not in the source, and what lies between them is spaces, comments and
blank prose.

Main statements: `tiles_trace` and `lexemes_account`.
-/

namespace RoleAudit.Markup

open RoleAudit.Text

/-- The steps tile a text that starts at `offset`, under modes that lead from one to the next. -/
inductive Tiles : Modes → Nat → List Char → List Step → Prop
  | done {modes : Modes} {offset : Nat} : Tiles modes offset [] []
  | step {modes : Modes} {offset : Nat} {piece rest : List Char} {token : Option Token}
      {steps : List Step} (hne : piece ≠ []) (haccounts : Accounts modes piece rest token)
      (hrest : Tiles ((token.map modes.after).getD modes) (offset + byteLength piece) rest steps) :
      Tiles modes offset (piece ++ rest)
        (⟨modes, token, ⟨offset, offset + byteLength piece⟩, (token.map modes.after).getD modes⟩ ::
          steps)

theorem tiles_traceFrom (modes : Modes) (offset : Nat) (text : List Char) :
    Tiles modes offset text (traceFrom modes offset text) := by
  induction hlength : text.length using Nat.strongRecOn generalizing modes offset text with
  | ind length ih =>
      unfold traceFrom
      split
      · next hnone =>
          -- where nothing is bitten off, nothing is left
          cases text with
          | nil => exact .done
          | cons c rest =>
              have hsome : (modes.scanner.bite (c :: rest)).isSome := bite_isSome c rest
              rw [hnone] at hsome
              cases hsome
      · next b hbite =>
          have hshorter := modes.scanner.shorter hbite
          obtain ⟨token, width, rest⟩ := b
          obtain ⟨piece, hne, rfl, rfl, haccounts⟩ := bite_takes hbite
          have hrest := ih rest.length (hlength ▸ hshorter) ((token.map modes.after).getD modes)
            (offset + byteLength piece) rest rfl
          have hstep := Tiles.step hne haccounts hrest
          cases token with
          | none => exact hstep
          | some token => exact hstep

theorem tiles_trace (source : String) : Tiles [] 0 source.toList (trace source) :=
  tiles_traceFrom [] 0 source.toList

/-- A stretch of a source holds a text, which `rest` follows. -/
def Cut (source : List Char) (span : Span) (text rest : List Char) : Prop :=
  ∃ before, source = before ++ text ++ rest ∧ span.start = byteLength before ∧
    span.stop = span.start + byteLength text

/-- A text has no more than one prefix of a length in bytes. -/
theorem append_inj_of_byteLength {xs xs' ys ys' : List Char} (h : xs ++ ys = xs' ++ ys')
    (hlength : byteLength xs = byteLength xs') : xs = xs' ∧ ys = ys' := by
  induction xs generalizing xs' with
  | nil =>
      cases xs' with
      | nil => exact ⟨rfl, h⟩
      | cons c xs' =>
          have hpos := c.utf8Size_pos
          simp at hlength
          omega
  | cons c xs ih =>
      cases xs' with
      | nil =>
          have hpos := c.utf8Size_pos
          simp at hlength
          omega
      | cons c' xs' =>
          obtain ⟨rfl, h'⟩ := List.cons.inj h
          obtain ⟨rfl, hys⟩ := ih h' (by simpa using hlength)
          exact ⟨rfl, hys⟩

/-- A stretch of a source holds one text only. -/
theorem Cut.unique {source text text' rest rest' : List Char} {span : Span}
    (h : Cut source span text rest) (h' : Cut source span text' rest') :
    text = text' ∧ rest = rest' := by
  obtain ⟨before, rfl, hstart, hstop⟩ := h
  obtain ⟨before', heq, hstart', hstop'⟩ := h'
  rw [List.append_assoc, List.append_assoc] at heq
  obtain ⟨-, htail⟩ := append_inj_of_byteLength heq (by omega)
  exact append_inj_of_byteLength htail (by omega)

/-- Whether a stretch of a source holds the byte at an offset. -/
def Holds (span : Span) (offset : Nat) : Prop :=
  span.start ≤ offset ∧ offset < span.stop

theorem byteLength_pos {text : List Char} (h : text ≠ []) : 0 < byteLength text := by
  cases text with
  | nil => exact absurd rfl h
  | cons c rest =>
      have hpos := c.utf8Size_pos
      simp
      omega

namespace Tiles

variable {modes : Modes} {offset : Nat} {text : List Char} {steps : List Step}

/-- Every step takes up a piece of the text and accounts for it. -/
theorem cut (h : Tiles modes offset text steps) : ∀ s ∈ steps, ∃ before piece rest,
    text = before ++ piece ++ rest ∧ s.span.start = offset + byteLength before ∧
      s.span.stop = s.span.start + byteLength piece ∧ piece ≠ [] ∧
        Accounts s.before piece rest s.token := by
  induction h with
  | done => simp
  | @step modes offset piece rest token steps hne haccounts hrest ih =>
      intro s hs
      rcases List.mem_cons.1 hs with rfl | hs
      · exact ⟨[], piece, rest, rfl, rfl, rfl, hne, haccounts⟩
      · obtain ⟨before, piece', rest', rfl, hstart, hstop, hne', haccounts'⟩ := ih s hs
        refine ⟨piece ++ before, piece', rest', by simp, ?_, hstop, hne', haccounts'⟩
        rw [hstart, byteLength_append, Nat.add_assoc]

/-- No step starts before the one in front of it has stopped. -/
theorem pairwise (h : Tiles modes offset text steps) :
    steps.Pairwise fun s s' => s.span.stop ≤ s'.span.start := by
  induction h with
  | done => exact .nil
  | step _ _ hrest ih =>
      refine .cons (fun s hs => ?_) ih
      obtain ⟨before, -, -, -, hstart, -⟩ := hrest.cut s hs
      rw [hstart]
      exact Nat.le_add_right _ _

/-- Every byte of the text is taken up. -/
theorem covers (h : Tiles modes offset text steps) {byte : Nat} (hle : offset ≤ byte)
    (hlt : byte < offset + byteLength text) : ∃ s ∈ steps, Holds s.span byte := by
  induction h with
  | done => simp at hlt; omega
  | @step modes offset piece rest token steps _ _ _ ih =>
      -- the byte lies in the first piece or after it
      rcases Nat.lt_or_ge byte (offset + byteLength piece) with hpiece | hpiece
      · exact ⟨_, List.mem_cons_self, hle, hpiece⟩
      · rw [byteLength_append, ← Nat.add_assoc] at hlt
        obtain ⟨s, hs, hholds⟩ := ih hpiece hlt
        exact ⟨s, List.mem_cons_of_mem _ hs, hholds⟩

end Tiles

/-- What may stand between two lexemes: in prose a whole run of blanks, elsewhere a space or a
comment. -/
def IsTrivia (modes : Modes) (text rest : List Char) : Prop :=
  if modes.head? = some .prose then (∀ c ∈ text, isBlank c = true) ∧ IsRun text rest
  else IsGap text

theorem Step.lexeme?_eq_some {step : Step} {l : Lexeme} (h : step.lexeme? = some l) :
    step.token = some l.token ∧ isBlankProse l.token = false ∧ step.span = l.span := by
  unfold lexeme? at h
  split at h
  · next token htoken =>
      split at h
      · cases h
      · next hblank =>
          cases h
          exact ⟨htoken, by simpa using hblank, rfl⟩
  · cases h

/-- A step that yields no lexeme takes up trivia. -/
theorem Step.isTrivia_of_lexeme?_eq_none {step : Step} {text rest : List Char}
    (haccounts : Accounts step.before text rest step.token) (h : step.lexeme? = none) :
    IsTrivia step.before text rest := by
  unfold lexeme? at h
  split at h
  · next token htoken =>
      rw [htoken] at haccounts
      split at h
      · next hblank =>
          cases token with
          | prose value =>
              obtain ⟨hmodes, rfl, hrun⟩ := haccounts
              rw [IsTrivia, if_pos hmodes]
              exact ⟨by simpa [isBlankProse] using hblank, hrun⟩
          | _ => cases hblank
      · cases h
  · next htoken =>
      rw [htoken] at haccounts
      rw [IsTrivia, if_neg haccounts.1]
      exact haccounts.2

theorem mem_lexemes {source : String} {l : Lexeme} :
    l ∈ lexemes source ↔ ∃ step ∈ trace source, step.lexeme? = some l :=
  List.mem_filterMap

/-- Every step of lexing a source takes up a text of the source. -/
theorem cut_of_mem_trace {source : String} {step : Step} (h : step ∈ trace source) :
    ∃ text rest, Cut source.toList step.span text rest ∧ text ≠ [] ∧
      Accounts step.before text rest step.token := by
  obtain ⟨before, text, rest, hsource, hstart, hstop, hne, haccounts⟩ :=
    (tiles_trace source).cut step h
  exact ⟨text, rest, ⟨before, hsource, by rw [hstart, Nat.zero_add], hstop⟩, hne, haccounts⟩

theorem start_lt_stop_of_mem_lexemes {source : String} {l : Lexeme} (h : l ∈ lexemes source) :
    l.span.start < l.span.stop := by
  obtain ⟨step, hstep, hlexeme⟩ := mem_lexemes.1 h
  obtain ⟨-, -, hspan⟩ := step.lexeme?_eq_some hlexeme
  obtain ⟨text, rest, ⟨-, -, -, hstop⟩, hne, -⟩ := cut_of_mem_trace hstep
  have hpos := byteLength_pos hne
  rw [hspan] at hstop
  omega

theorem pairwise_lexemes (source : String) :
    (lexemes source).Pairwise fun l l' => l.span.stop ≤ l'.span.start := by
  refine (tiles_trace source).pairwise.filterMap Step.lexeme? fun s s' hle l hl l' hl' => ?_
  obtain ⟨-, -, hspan⟩ := s.lexeme?_eq_some hl
  obtain ⟨-, -, hspan'⟩ := s'.lexeme?_eq_some hl'
  rwa [← hspan, ← hspan']

/-- The lexemes of a source account for it: each is written where it is said to stand, one after the
other, and every byte outside of them is part of something that means nothing. -/
theorem lexemes_account (source : String) :
    (∀ l ∈ lexemes source, l.span.start < l.span.stop ∧ ∃ step ∈ trace source,
      step.lexeme? = some l ∧ ∃ text rest, Cut source.toList l.span text rest ∧
        Accounts step.before text rest (some l.token)) ∧
    ((lexemes source).Pairwise fun l l' => l.span.stop ≤ l'.span.start) ∧
    ∀ byte < byteLength source.toList, (∀ l ∈ lexemes source, ¬ Holds l.span byte) →
      ∃ step ∈ trace source, Holds step.span byte ∧ ∃ text rest,
        Cut source.toList step.span text rest ∧ IsTrivia step.before text rest := by
  refine ⟨fun l hl => ?_, pairwise_lexemes source, fun byte hbyte houtside => ?_⟩
  · obtain ⟨step, hstep, hlexeme⟩ := mem_lexemes.1 hl
    obtain ⟨htoken, -, hspan⟩ := step.lexeme?_eq_some hlexeme
    obtain ⟨text, rest, hcut, -, haccounts⟩ := cut_of_mem_trace hstep
    rw [hspan] at hcut
    rw [htoken] at haccounts
    exact ⟨start_lt_stop_of_mem_lexemes hl, step, hstep, hlexeme, text, rest, hcut, haccounts⟩
  · obtain ⟨step, hstep, hholds⟩ :=
      (tiles_trace source).covers (Nat.zero_le byte) (by rwa [Nat.zero_add])
    obtain ⟨text, rest, hcut, -, haccounts⟩ := cut_of_mem_trace hstep
    refine ⟨step, hstep, hholds, text, rest, hcut, step.isTrivia_of_lexeme?_eq_none haccounts ?_⟩
    -- a lexeme of this step would hold the byte
    rw [Option.eq_none_iff_forall_ne_some]
    intro l hl
    obtain ⟨-, -, hspan⟩ := step.lexeme?_eq_some hl
    exact houtside l (mem_lexemes.2 ⟨step, hstep, hl⟩) (hspan ▸ hholds)

end RoleAudit.Markup
