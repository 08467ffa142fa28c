import RoleAudit.Proofs.Braces
import RoleAudit.Proofs.Coverage

/-!
# Modes over lexemes

Pieces that yield no lexeme leave the stack of modes as it is, so the stack is a function of the
lexemes before it.  Over a balanced list without `<` code stays code.

Main statements: `tokenSteps_eq`, `finalModes_eq` and `Modes.InCode.through_balanced`.
-/

namespace RoleAudit.Markup

open RoleAudit.Text

/-! ### Stacks and tokens -/

/-- Whether a token goes on with a tag and leaves it a tag. -/
def Token.goesOnTag : Token → Bool
  | greater | slash | openBrace => false
  | _ => true

namespace Modes

/-- Whether code is read. -/
def InCode (modes : Modes) : Prop :=
  modes.head? = some .code

/-- Whether a tag is read. -/
def InTag (modes : Modes) : Prop :=
  ∃ state, modes.head? = some (.tag state)

theorem not_inTag_nil : ¬ InTag [] := by
  rintro ⟨state, hstate⟩
  cases hstate

/-- The stack after lexemes. -/
def through (modes : Modes) (ts : List Lexeme) : Modes :=
  ts.foldl (fun before t => before.after t.token) modes

@[simp] theorem through_nil (modes : Modes) : modes.through [] = modes := rfl

@[simp] theorem through_cons (modes : Modes) (t : Lexeme) (ts : List Lexeme) :
    modes.through (t :: ts) = (modes.after t.token).through ts := rfl

@[simp] theorem through_append (modes : Modes) (ts us : List Lexeme) :
    modes.through (ts ++ us) = (modes.through ts).through us :=
  List.foldl_append

/-- The stack with a tag on top of it that has gone on to something other than a slash. -/
def settled : Modes → Modes
  | .tag state :: outer => .tag ⟨false, state.closing, false⟩ :: outer
  | modes => modes

@[simp] theorem settled_settled (modes : Modes) : modes.settled.settled = modes.settled := by
  match modes with
  | .tag _ :: _ | .code :: _ | .prose :: _ | [] => rfl

/-- The stack after a part of a tag: as it is after nothing, and settled after anything. -/
def onward (modes : Modes) (ts : List Lexeme) : Modes :=
  if ts = [] then modes else modes.settled

@[simp] theorem onward_nil (modes : Modes) : modes.onward [] = modes := rfl

@[simp] theorem onward_cons (modes : Modes) (t : Lexeme) (ts : List Lexeme) :
    modes.onward (t :: ts) = modes.settled := rfl

theorem onward_append (modes : Modes) (ts us : List Lexeme) :
    modes.onward (ts ++ us) = (modes.onward ts).onward us := by
  cases ts with
  | nil => rfl
  | cons t ts =>
      cases us with
      | nil => simp
      | cons u us => simp

@[simp] theorem settled_onward (modes : Modes) (ts : List Lexeme) :
    modes.settled.onward ts = modes.settled := by
  cases ts <;> simp

theorem settled_of_not_inTag {modes : Modes} (h : ¬ modes.InTag) : modes.settled = modes := by
  match modes, h with
  | .tag state :: _, h => exact absurd ⟨state, rfl⟩ h
  | .code :: _, _ | .prose :: _, _ | [], _ => rfl

theorem not_inTag_of_prose {modes : Modes} (h : modes.head? = some .prose) : ¬ modes.InTag := by
  rintro ⟨state, hstate⟩
  rw [h] at hstate
  cases hstate

theorem InCode.not_inTag {modes : Modes} (h : modes.InCode) : ¬ modes.InTag := by
  rintro ⟨state, hstate⟩
  rw [h] at hstate
  cases hstate

theorem InTag.settled {modes : Modes} (h : modes.InTag) : modes.settled.InTag := by
  match modes, h with
  | .tag state :: _, _ => exact ⟨_, rfl⟩

theorem InTag.onward {modes : Modes} (h : modes.InTag) (ts : List Lexeme) :
    (modes.onward ts).InTag := by
  cases ts with
  | nil => exact h
  | cons t ts => exact h.settled

theorem after_openBrace (modes : Modes) : modes.after .openBrace = .code :: modes.settled := by
  match modes with
  | .tag state :: _ => simp [after, TagState.next, Modes.settled]
  | .code :: _ | .prose :: _ | [] => rfl

/-- Code stays code over tokens that neither open nor close anything. -/
theorem InCode.after {modes : Modes} (h : modes.InCode) {t : Token} (hless : t ≠ .less)
    (hbrace : t.isBrace = false) : modes.after t = modes := by
  match modes, h with
  | .code :: _, _ =>
      cases t with
      | less => exact absurd rfl hless
      | openBrace | closeBrace => cases hbrace
      | _ => rfl

theorem InTag.after {modes : Modes} (h : modes.InTag) {t : Token} (ht : t.goesOnTag = true) :
    modes.after t = modes.settled := by
  match modes, h with
  | .tag state :: outer, _ =>
      cases t with
      | greater | slash | openBrace => cases ht
      | _ => simp [Modes.after, Modes.settled, TagState.next]

theorem after_less {modes : Modes} (h : ¬ modes.InTag) : modes.after .less = .tag {} :: modes := by
  match modes, h with
  | .tag state :: _, h => exact absurd ⟨state, rfl⟩ h
  | .code :: _, _ | .prose :: _, _ | [], _ => rfl

/-- Prose runs leave prose as it is. -/
theorem after_prose {modes : Modes} (h : modes.head? = some .prose) (text : String) :
    modes.after (.prose text) = modes := by
  match modes, h with
  | .prose :: _, _ => rfl

end Modes

/-! ### Steps of lexemes -/

/-- The steps of reading lexemes under a stack. -/
def stepsUnder (modes : Modes) : List Lexeme → List Step
  | [] => []
  | t :: ts =>
      ⟨modes, some t.token, t.span, modes.after t.token⟩ :: stepsUnder (modes.after t.token) ts

@[simp] theorem stepsUnder_nil (modes : Modes) : stepsUnder modes [] = [] := rfl

@[simp] theorem stepsUnder_cons (modes : Modes) (t : Lexeme) (ts : List Lexeme) :
    stepsUnder modes (t :: ts) =
      ⟨modes, some t.token, t.span, modes.after t.token⟩ :: stepsUnder (modes.after t.token) ts :=
  rfl

@[simp] theorem stepsUnder_append (modes : Modes) (ts us : List Lexeme) :
    stepsUnder modes (ts ++ us) = stepsUnder modes ts ++ stepsUnder (modes.through ts) us := by
  induction ts generalizing modes with
  | nil => rfl
  | cons t ts ih => simp [ih]

theorem stepsUnder_left (modes : Modes) (ts us : List Lexeme) :
    stepsUnder modes ts <:+: stepsUnder modes (ts ++ us) := by
  rw [stepsUnder_append]
  exact (List.prefix_append _ _).isInfix

theorem stepsUnder_right {modes after : Modes} {ts : List Lexeme} (h : modes.through ts = after)
    (us : List Lexeme) : stepsUnder after us <:+: stepsUnder modes (ts ++ us) := by
  rw [stepsUnder_append, h]
  exact (List.suffix_append _ _).isInfix

theorem span_of_mem_stepsUnder {modes : Modes} {ts : List Lexeme} {s : Step}
    (h : s ∈ stepsUnder modes ts) : ∃ t ∈ ts, s.token = some t.token ∧ s.span = t.span := by
  induction ts generalizing modes with
  | nil => cases h
  | cons t ts ih =>
      rcases List.mem_cons.1 h with rfl | h
      · exact ⟨t, List.mem_cons_self, rfl, rfl⟩
      · obtain ⟨u, hu, htoken, hspan⟩ := ih h
        exact ⟨u, List.mem_cons_of_mem _ hu, htoken, hspan⟩

/-- The steps of lexing a source that yield its lexemes. -/
def tokenSteps (source : String) : List Step :=
  (trace source).filter fun s => s.lexeme?.isSome

/-- A step without a lexeme leaves the stack as it is. -/
theorem Step.after_of_lexeme?_eq_none {modes after : Modes} {token : Option Token}
    {piece rest : List Char} {span : Span} (haccounts : Accounts modes piece rest token)
    (h : lexeme? ⟨modes, token, span, after⟩ = none) :
    (token.map modes.after).getD modes = modes := by
  cases token with
  | none => rfl
  | some t =>
      cases t with
      | prose text => exact modes.after_prose haccounts.1 text
      | _ => cases h

theorem Tiles.filter_eq {modes : Modes} {offset : Nat} {text : List Char} {steps : List Step}
    (h : Tiles modes offset text steps) :
    steps.filter (fun s => s.lexeme?.isSome) = stepsUnder modes (steps.filterMap Step.lexeme?) ∧
      (steps.getLast?.map Step.after).getD modes =
        modes.through (steps.filterMap Step.lexeme?) := by
  induction h with
  | done => exact ⟨rfl, rfl⟩
  | @step modes offset piece rest token steps hne haccounts hrest ih =>
      obtain ⟨hfilter, hlast⟩ := ih
      -- the stack at the end is that after the last step, or the one before if there is none
      have hlast' : ((Step.mk modes token ⟨offset, offset + byteLength piece⟩
          ((token.map modes.after).getD modes) :: steps).getLast?.map Step.after).getD modes =
          (steps.getLast?.map Step.after).getD ((token.map modes.after).getD modes) := by
        cases steps with
        | nil => rfl
        | cons s steps => simp [List.getLast?_cons]
      rw [hlast', hlast]
      cases hlexeme : Step.lexeme? ⟨modes, token, ⟨offset, offset + byteLength piece⟩,
        (token.map modes.after).getD modes⟩ with
      | none =>
          -- the step is left out, and so is what it does to the stack
          have hmodes := Step.after_of_lexeme?_eq_none haccounts hlexeme
          rw [List.filter_cons_of_neg (by simp [hlexeme]), List.filterMap_cons_none hlexeme]
          rw [hmodes] at hfilter ⊢
          exact ⟨hfilter, rfl⟩
      | some l =>
          obtain ⟨htoken, -, hspan⟩ := Step.lexeme?_eq_some hlexeme
          rw [List.filter_cons_of_pos (by simp [hlexeme]), List.filterMap_cons_some hlexeme,
            hfilter]
          dsimp only at htoken hspan
          subst htoken
          rw [hspan]
          exact ⟨rfl, rfl⟩

theorem tokenSteps_eq (source : String) : tokenSteps source = stepsUnder [] (lexemes source) :=
  (tiles_trace source).filter_eq.1

theorem finalModes_eq (source : String) : finalModes source = Modes.through [] (lexemes source) :=
  (tiles_trace source).filter_eq.2

/-! ### Code without tags -/

/-- Over a balanced list without `<`, code is read throughout. -/
theorem Modes.InCode.through_balanced {toks : List Token} (h : Balanced toks) :
    ∀ {modes : Modes} {ts : List Lexeme}, modes.InCode → ts.map Lexeme.token = toks →
      (∀ t ∈ ts, t.token ≠ .less) →
        modes.through ts = modes ∧ ∀ s ∈ stepsUnder modes ts, s.before.InCode := by
  induction h with
  | nil =>
      intro modes ts _ hts _
      obtain rfl := List.map_eq_nil_iff.1 hts
      exact ⟨rfl, by simp⟩
  | @single t rest ht _ ih =>
      intro modes ts hmodes hts hless
      obtain ⟨span, us, rfl, hus⟩ := lexemes_cons hts
      have hafter : modes.after t = modes := hmodes.after (hless _ List.mem_cons_self) ht
      obtain ⟨hthrough, hsteps⟩ := ih hmodes hus fun u hu => hless u (List.mem_cons_of_mem _ hu)
      simp only [Modes.through_cons, stepsUnder_cons, hafter, List.mem_cons, forall_eq_or_imp]
      exact ⟨hthrough, hmodes, hsteps⟩
  | group _ _ ih ih' =>
      intro modes ts hmodes hts hless
      obtain ⟨left, _, rfl, hts'⟩ := lexemes_cons hts
      obtain ⟨us, _, rfl, hus, hclose⟩ := List.map_eq_append_iff.1 hts'
      obtain ⟨right, vs, rfl, hvs⟩ := lexemes_cons hclose
      -- inside the group there is one more layer of code, and after it none
      have hopen : modes.after .openBrace = .code :: modes := by
        rw [Modes.after_openBrace, Modes.settled_of_not_inTag hmodes.not_inTag]
      have hclosed : Modes.after (.code :: modes) .closeBrace = modes := rfl
      obtain ⟨hthrough, hsteps⟩ :=
        @ih (.code :: modes) us rfl hus fun u hu => hless u (by simp [hu])
      obtain ⟨hthrough', hsteps'⟩ := ih' hmodes hvs fun u hu => hless u (by simp [hu])
      simp only [Modes.through_cons, Modes.through_append, stepsUnder_cons, stepsUnder_append,
        hopen, hthrough, hclosed, List.mem_cons, List.mem_append, forall_eq, or_imp, forall_and]
      exact ⟨hthrough', hmodes, hsteps, rfl, hsteps'⟩

end RoleAudit.Markup
