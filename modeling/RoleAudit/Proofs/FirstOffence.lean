import RoleAudit.Proofs.Complaints
import RoleAudit.Proofs.Following

/-!
# The first token that offends

A source that is refused for an unexpected token is refused for the first one with which no document
begins, whatever the names in closing tags are, and a source whose end is unexpected could have gone
on.  There is one exception.  Where a container begins with a group and nothing closes either, the
source could go on, but the brace of the group is reported.

Main statement: `refusal_is_first_offence`, with `unclosed_group_is_blamed` for the exception.
-/

namespace RoleAudit.Markup

open RoleAudit.Text (Span)
open Grammar

/-! ### Braces on the stack -/

/-- Symbols that no brace is part of, but for the groups that they may begin. -/
def Symbol.isOuter : Symbol → Bool
  | exactly t => !t.isBrace
  | inside => false
  | maybe _ next => next.isOuter
  | _ => true

/-- Stacks that stand for so many groups that are still to be closed. -/
inductive Symbols.Opened : Nat → Symbols → Prop
  | outer {stack : Symbols} (h : ∀ s ∈ stack, s.isOuter = true) : Opened 0 stack
  | spread {stack : Symbols} (h : ∀ s ∈ stack, s.isOuter = true) :
      Opened 1 (.exactly .spread :: .inside :: stack)
  | inside {n : Nat} {stack : Symbols} (h : Opened n stack) : Opened (n + 1) (.inside :: stack)

/-- What a token leaves to come in place of an outer symbol. -/
inductive Symbols.Replaces : Token → Symbols → Prop
  | outer {t : Token} {above : Symbols} (ht : t.isBrace = false)
      (h : ∀ s ∈ above, s.isOuter = true) : Replaces t above
  | group {above : Symbols} (h : ∀ s ∈ above, s.isOuter = true) :
      Replaces .openBrace (.inside :: above)
  | spread {above : Symbols} (h : ∀ s ∈ above, s.isOuter = true) :
      Replaces .openBrace (.exactly .spread :: .inside :: above)

theorem Symbols.Replaces.append {t : Token} {above below : Symbols} (h : Replaces t above)
    (hbelow : ∀ s ∈ below, s.isOuter = true) : Replaces t (above ++ below) := by
  have happend {above : Symbols} (habove : ∀ s ∈ above, s.isOuter = true) :
      ∀ s ∈ above ++ below, s.isOuter = true := fun s hs =>
    (List.mem_append.1 hs).elim (habove s) (hbelow s)
  cases h with
  | outer ht h => exact .outer ht (happend h)
  | group h => exact .group (happend h)
  | spread h => exact .spread (happend h)

namespace Symbol

theorem afterOpening_replaces {t : Token} {above : Symbols} (h : afterOpening t = some above) :
    Symbols.Replaces t above := by
  unfold afterOpening at h
  split at h <;> cases h
  · exact .outer rfl (by simp [isOuter])
  · exact .spread (by simp [isOuter])
  · exact .outer rfl (by simp [isOuter])

/-- An outer symbol takes a brace only to begin a group. -/
theorem after_replaces {s : Symbol} {t : Token} {above : Symbols} (hs : s.isOuter = true)
    (h : s.after t = some above) : Symbols.Replaces t above := by
  induction s generalizing above with
  | exactly expected =>
      unfold after at h
      split at h <;> cases h
      next heq => exact .outer (by simpa [heq, isOuter] using hs) (List.forall_mem_nil _)
  | word =>
      cases t <;> cases h
      exact .outer rfl (List.forall_mem_nil _)
  | closing =>
      cases t <;> cases h <;> exact .outer rfl (by simp [isOuter, Token.isBrace])
  | value =>
      cases t <;> cases h
      · exact .group (List.forall_mem_nil _)
      · exact .outer rfl (List.forall_mem_nil _)
  | inside => cases hs
  | items isNamed =>
      cases t with
      | slash =>
          cases isNamed <;> cases h
          exact .outer rfl (by simp [isOuter, Token.isBrace])
      | openBrace => cases h; exact .spread (by simp [isOuter])
      | word | greater => cases h; exact .outer rfl (by simp [isOuter])
      | _ => cases h
  | children =>
      cases t with
      | openBrace => cases h; exact .group (by simp [isOuter])
      | prose | less => cases h; exact .outer rfl (by simp [isOuter])
      | _ => cases h
  | opening => exact afterOpening_replaces h
  | less =>
      by_cases hslash : t = .slash
      · subst hslash
        cases h
        exact .outer rfl (by simp [isOuter])
      · rw [after_less hslash] at h
        obtain ⟨above, habove, rfl⟩ := Option.map_eq_some_iff.1 h
        exact (afterOpening_replaces habove).append (by simp [isOuter])
  | maybe extra next ih =>
      cases hstarts : extra.starts t with
      | false => exact ih hs (by rwa [after_maybe hstarts] at h)
      | true =>
          have hnext : next.isOuter = true := hs
          cases extra <;> cases t <;> cases hstarts <;> cases h <;>
            exact .outer rfl (by simp [isOuter, hnext])

end Symbol

namespace Symbols

/-- With each token the groups change by which the brace says. -/
theorem Opened.step {n : Nat} {stack mid : Symbols} {t : Token} (h : Opened n stack)
    (hstep : stack.step t = some mid) :
    ∃ m, Opened m mid ∧ m + [t].count .closeBrace = n + [t].count .openBrace := by
  have hcount (ht : t.isBrace = false) : [t].count .closeBrace = 0 ∧ [t].count .openBrace = 0 := by
    have hne := Token.ne_of_not_isBrace ht
    simp [hne.1, hne.2]
  cases h with
  | outer h =>
      cases stack with
      | nil =>
          rw [step_nil] at hstep
          split at hstep <;> cases hstep
          next ht => exact ⟨0, .outer (by simp [Symbol.isOuter]), by simp [ht]⟩
      | cons s below =>
          obtain ⟨above, habove, rfl⟩ := Option.map_eq_some_iff.1 hstep
          have hreplaces := (Symbol.after_replaces (h s List.mem_cons_self) habove).append
            fun x hx => h x (List.mem_cons_of_mem _ hx)
          generalize above ++ below = mid at hreplaces
          cases hreplaces with
          | outer ht h => exact ⟨0, .outer h, by simp [hcount ht]⟩
          | group h => exact ⟨1, .inside (.outer h), rfl⟩
          | spread h => exact ⟨1, .spread h, rfl⟩
  | spread h =>
      obtain ⟨above, habove, rfl⟩ := Option.map_eq_some_iff.1 hstep
      unfold Symbol.after at habove
      split at habove <;> cases habove
      next ht => exact ⟨1, .inside (.outer h), by simp [ht]⟩
  | @inside n below h =>
      cases hbrace : t.isBrace with
      | false =>
          rw [Symbols.step, Symbol.after_inside hbrace] at hstep
          cases hstep
          exact ⟨n + 1, .inside h, by simp [hcount hbrace]⟩
      | true =>
          cases t with
          | openBrace => cases hstep; exact ⟨n + 2, .inside (.inside h), rfl⟩
          | closeBrace => cases hstep; exact ⟨n, h, rfl⟩
          | _ => cases hbrace

theorem Opened.run {n : Nat} {stack mid : Symbols} {ts : List Token} (h : Opened n stack)
    (hrun : stack.run ts = some mid) :
    ∃ m, Opened m mid ∧ m + ts.count .closeBrace = n + ts.count .openBrace := by
  induction ts generalizing n stack with
  | nil =>
      obtain rfl := Option.some.inj hrun
      exact ⟨n, h, rfl⟩
  | cons t ts ih =>
      obtain ⟨next, hnext, hts⟩ := Option.bind_eq_some_iff.1 hrun
      obtain ⟨k, hk, hcount⟩ := h.step hnext
      obtain ⟨m, hm, hcount'⟩ := ih hk hts
      refine ⟨m, hm, ?_⟩
      rw [← List.singleton_append, List.count_append, List.count_append]
      omega

theorem exists_run_of_prefix {stack mid : Symbols} {front ts : List Token} (hfront : front <+: ts)
    (h : stack.run ts = some mid) : ∃ next, stack.run front = some next := by
  obtain ⟨more, rfl⟩ := hfront
  cases hrun : stack.run front with
  | some next => exact ⟨next, rfl⟩
  | none =>
      rw [run_append_none hrun] at h
      cases h

/-- Where a container may come next, all groups are closed. -/
theorem balanced_of_run {stack : Symbols} {front : List Token} (h : run [] front = some stack)
    (hcontainer : stack.opensContainer = true) : Balanced front := by
  have hnil : Opened 0 [] := .outer (List.forall_mem_nil _)
  obtain ⟨m, hm, hcount⟩ := hnil.run h
  have hstays : StaysInside front := by
    refine staysInside_iff_count.2 fun us hus => ?_
    obtain ⟨mid, hmid⟩ := exists_run_of_prefix hus h
    obtain ⟨k, -, hk⟩ := hnil.run hmid
    omega
  cases hm with
  | outer => exact hstays.balanced_of_count (by omega)
  | spread | inside => cases hcontainer

theorem exists_inside_of_opensContainer {stack mid : Symbols} (h : stack.opensContainer = true)
    (hstep : stack.step .openBrace = some mid) : ∃ below, mid = .inside :: below := by
  cases stack with
  | nil => cases h
  | cons s below =>
      cases s with
      | value | children => cases hstep; exact ⟨_, rfl⟩
      | _ => cases h

end Symbols

/-- A list begins a document if a longer one does. -/
theorem Viable.of_prefix {front ts : List Token} (h : Viable ts) (hfront : front <+: ts) :
    Viable front := by
  obtain ⟨more, hmore⟩ := h
  obtain ⟨others, rfl⟩ := hfront
  exact ⟨others ++ more, by rwa [← List.append_assoc]⟩

/-! ### The exception -/

/-- A token that is passed over where it is blamed: the brace of a group with which a container
begins, if nothing closes either. -/
def IsOverlooked (front : List Token) (t : Token) (rest : List Token) : Prop :=
  t = .openBrace ∧ StaysInside rest ∧ ∃ before, front = before ++ [.openBrace] ∧ Balanced before

/-- The stack goes up to what is blamed.  That is the end of the list, or a token that the stack
does not take, or the brace of a group that nothing closes, behind that of its container. -/
theorem exists_front (stack : Symbols) (ts : List Lexeme) : ∃ front mid,
    ts = front ++ blame stack ts ∧ stack.run (front.map Lexeme.token) = some mid ∧
      (blame stack ts = [] ∨
        (∃ t rest, blame stack ts = t :: rest ∧ mid.step t.token = none) ∨
        (UnclosedFirst (blame stack ts) ∧ ∃ before brace below, front = before ++ [brace] ∧
          brace.token = .openBrace ∧ stack.run (before.map Lexeme.token) = some below ∧
            below.opensContainer = true ∧ below.step .openBrace = some mid)) := by
  induction ts generalizing stack with
  | nil => exact ⟨[], stack, rfl, rfl, Or.inl rfl⟩
  | cons t ts ih =>
      cases hstep : stack.step t.token with
      | none =>
          rw [blame_of_step_none hstep]
          exact ⟨[], stack, rfl, rfl, Or.inr (Or.inl ⟨t, ts, rfl, hstep⟩)⟩
      | some next =>
          by_cases hunclosed : stack.opensContainer = true ∧ t.token = .openBrace ∧ UnclosedFirst ts
          · obtain ⟨hcontainer, ht, hts⟩ := hunclosed
            have hblame : blame stack (t :: ts) = ts := by
              rw [blame_of_opensContainer hstep hcontainer ht, if_pos hts]
            rw [hblame]
            exact ⟨[t], next, rfl, by simp [Symbols.run, hstep], Or.inr (Or.inr ⟨hts, [], t, stack,
              rfl, ht, rfl, hcontainer, ht ▸ hstep⟩)⟩
          · have hblame : blame stack (t :: ts) = blame next ts := by
              rw [blame, hstep]
              exact if_neg hunclosed
            obtain ⟨front, mid, hfront, hrun, hcases⟩ := ih next
            rw [hblame]
            refine ⟨t :: front, mid, by rw [List.cons_append, ← hfront], ?_, ?_⟩
            · rw [List.map_cons, Symbols.run_cons hstep, hrun]
            · rcases hcases with hend | hnone | ⟨hunclosed, before, brace, below, rfl, hbrace,
                hbelow, hcontainer⟩
              · exact Or.inl hend
              · exact Or.inr (Or.inl hnone)
              · refine Or.inr (Or.inr ⟨hunclosed, t :: before, brace, below, rfl, hbrace, ?_,
                  hcontainer⟩)
                rw [List.map_cons, Symbols.run_cons hstep, hbelow]

/-- Where nothing closes a group, the stack goes on to the end of the list. -/
theorem exists_run_of_staysInside {stack : Symbols} {ts : List Lexeme}
    (h : StaysInside (ts.map Lexeme.token)) :
    ∃ mid, Symbols.run (.inside :: stack) (ts.map Lexeme.token) = some mid := by
  obtain ⟨front, mid, hfront, hrun, -⟩ := exists_front (.inside :: stack) ts
  rw [blame_staysInside h, List.append_nil] at hfront
  exact ⟨mid, hfront ▸ hrun⟩

/-- Why a token is blamed. -/
inductive IsBlamed (ts : List Lexeme) : List Lexeme → Prop
  | atEnd (h : Viable (ts.map Lexeme.token)) : IsBlamed ts []
  | offends {front rest : List Lexeme} {t : Lexeme} (h : ts = front ++ t :: rest)
      (hfront : Viable (front.map Lexeme.token))
      (ht : ¬ Viable ((front ++ [t]).map Lexeme.token)) : IsBlamed ts (t :: rest)
  | overlooked {front rest : List Lexeme} {t : Lexeme} (h : ts = front ++ t :: rest)
      (ht : IsOverlooked (front.map Lexeme.token) t.token (rest.map Lexeme.token))
      (hall : Viable (ts.map Lexeme.token)) : IsBlamed ts (t :: rest)

theorem isBlamed_blame (ts : List Lexeme) : IsBlamed ts (blame [] ts) := by
  obtain ⟨front, mid, hts, hrun, hend | ⟨t, rest, hblame, hstep⟩ |
    ⟨hunclosed, before, brace, below, rfl, hbrace, hbelow, hcontainer, hmid⟩⟩ := exists_front [] ts
  · rw [hend, List.append_nil] at hts
    rw [hend]
    exact .atEnd (viable_iff_run.2 ⟨mid, hts ▸ hrun⟩)
  · rw [hblame] at hts ⊢
    refine .offends hts (viable_iff_run.2 ⟨mid, hrun⟩) fun hviable => ?_
    obtain ⟨next, hnext⟩ := viable_iff_run.1 hviable
    rw [List.map_append, Symbols.run_append hrun, List.map_cons, Symbols.run, hstep] at hnext
    cases hnext
  · cases hblame : blame [] ts with
    | nil => exact absurd hunclosed (by rw [hblame]; exact id)
    | cons t rest =>
        rw [hblame] at hts hunclosed
        obtain ⟨stack, rfl⟩ := Symbols.exists_inside_of_opensContainer hcontainer hmid
        obtain ⟨next, hnext⟩ := @exists_run_of_staysInside stack _ hunclosed.staysInside
        refine .overlooked hts ⟨hunclosed.1, hunclosed.2, before.map Lexeme.token, by simp [hbrace],
          Symbols.balanced_of_run hbelow hcontainer⟩ (viable_iff_run.2 ⟨next, ?_⟩)
        rw [hts, List.map_append, Symbols.run_append hrun, hnext]

/-- Where reading a document fails: at the token that is blamed, or behind a closing tag. -/
theorem blames_of_error {source : String} {e : SyntaxError}
    (h : Document.parse source = .error e) : ∃ f, Blames [] (lexemes source) f ∧
      (e.complaint, e.span) = f.complaint (lexemes source) source.utf8ByteSize := by
  unfold Document.parse Document.ofLexemes at h
  rcases hdocument : document (lexemes source) with ⟨_ | read, failure⟩ <;> rw [hdocument] at h
  · obtain rfl := Except.error.inj h
    have hfollows := follows_document (lexemes source)
    rw [hdocument] at hfollows
    cases hfollows with
    | fails h hf =>
        cases h
        exact ⟨_, hf, rfl⟩
    | reads h => cases h
    | short h => cases h
  · cases h

/-- A token is reported as unexpected if it is the first with which no document begins, whatever the
names in closing tags are.  The exception is the brace of a group that nothing closes, where a
container begins with it: then the source could go on.  It could, too, where its end is reported. -/
theorem refusal_is_first_offence (source : String) (e : SyntaxError)
    (h : Document.parse source = .error e) :
    (∀ t, e.complaint = .unexpected t → ∃ front l rest, lexemes source = front ++ l :: rest ∧
      l.token = t ∧ e.span = l.span ∧ Viable (front.map Lexeme.token) ∧
        (¬ Viable ((front ++ [l]).map Lexeme.token) ∨
          IsOverlooked (front.map Lexeme.token) l.token (rest.map Lexeme.token) ∧
            Viable ((lexemes source).map Lexeme.token))) ∧
      (e.complaint = .unexpectedEnd → Viable ((lexemes source).map Lexeme.token)) := by
  obtain ⟨⟨rest, cause⟩, hblames, hcomplaint⟩ := blames_of_error h
  cases cause with
  | mismatch opened closed tag =>
      obtain ⟨hmismatch, -⟩ := Prod.mk.inj hcomplaint
      rw [hmismatch]
      exact ⟨nofun, nofun⟩
  | unexpected =>
      have hrest : rest = blame [] (lexemes source) := by
        cases hblames with
        | blamed h => exact h
        | mismatch hcause => exact absurd rfl hcause
      have hblamed := hrest ▸ isBlamed_blame (lexemes source)
      cases hblamed with
      | atEnd hall =>
          obtain ⟨hend, -⟩ := Prod.mk.inj hcomplaint
          rw [hend]
          exact ⟨nofun, fun _ => hall⟩
      | @offends front rest t hts hfront ht =>
          obtain ⟨htoken, hspan⟩ := Prod.mk.inj hcomplaint
          rw [htoken]
          refine ⟨fun u hu => ?_, nofun⟩
          cases hu
          exact ⟨front, t, rest, hts, rfl, hspan, hfront, Or.inl ht⟩
      | @overlooked front rest t hts ht hall =>
          obtain ⟨htoken, hspan⟩ := Prod.mk.inj hcomplaint
          rw [htoken]
          refine ⟨fun u hu => ?_, nofun⟩
          cases hu
          have hfront : Viable (front.map Lexeme.token) :=
            hall.of_prefix (by rw [hts, List.map_append]; exact List.prefix_append _ _)
          exact ⟨front, t, rest, hts, rfl, hspan, hfront, Or.inr ⟨ht, hall⟩⟩

/-- An attribute without its value. -/
theorem refusal_is_first_offence_sample :
    Document.parse "<p a= >" = .error ⟨.unexpected .greater, ⟨6, 7⟩, ⟨⟨0, 6⟩, ⟨0, 7⟩⟩⟩ ∧
      ∃ front l rest, lexemes "<p a= >" = front ++ l :: rest ∧ l.token = .greater ∧
        l.span = ⟨6, 7⟩ ∧ Viable (front.map Lexeme.token) ∧
          ¬ Viable ((front ++ [l]).map Lexeme.token) := by
  have hparse : Document.parse "<p a= >" =
      .error ⟨.unexpected .greater, ⟨6, 7⟩, ⟨⟨0, 6⟩, ⟨0, 7⟩⟩⟩ := by
    with_unfolding_all rfl
  obtain ⟨front, l, rest, hlexemes, htoken, hspan, hfront, hl⟩ :=
    (refusal_is_first_offence _ _ hparse).1 .greater rfl
  refine ⟨hparse, front, l, rest, hlexemes, htoken, hspan.symm, hfront, hl.resolve_right ?_⟩
  rintro ⟨⟨hbrace, -⟩, -⟩
  rw [htoken] at hbrace
  cases hbrace

/-- The second of two braces is reported although the source could go on behind it. -/
theorem unclosed_group_is_blamed : ¬ ∀ (source : String) (e : SyntaxError) (t : Token),
    Document.parse source = .error e → e.complaint = .unexpected t →
      ∃ front l rest, lexemes source = front ++ l :: rest ∧ l.token = t ∧ e.span = l.span ∧
        Viable (front.map Lexeme.token) ∧ ¬ Viable ((front ++ [l]).map Lexeme.token) := by
  intro h
  have hparse : Document.parse "<p>\x7b\x7b" =
      .error ⟨.unexpected .openBrace, ⟨4, 5⟩, ⟨⟨0, 4⟩, ⟨0, 5⟩⟩⟩ := by
    with_unfolding_all rfl
  obtain ⟨front, l, rest, hlexemes, -, -, -, hl⟩ := h _ _ .openBrace hparse rfl
  have htokens : (lexemes "<p>\x7b\x7b").map Lexeme.token =
      [.less, .word "p", .greater, .openBrace, .openBrace] := by
    with_unfolding_all rfl
  have hall : Viable ((lexemes "<p>\x7b\x7b").map Lexeme.token) := by
    rw [htokens]
    exact viable_iff_run.2 ⟨[.inside, .inside, .children], rfl⟩
  refine hl (hall.of_prefix ?_)
  rw [hlexemes]
  exact ⟨rest.map Lexeme.token, by simp⟩

end RoleAudit.Markup
