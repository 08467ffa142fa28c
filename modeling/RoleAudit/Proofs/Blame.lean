import RoleAudit.Proofs.LooseLanguage

/-!
# Which token is blamed

Where a reading fails, one of all the failures that were met is reported, the furthest.  `blame`
says which one it is: it goes along the list with a stack of symbols and stops at the first token
that the stack does not take.  One token is blamed although the stack takes it: the second of two
opening braces, if the first opens a container and no brace closes the second.  For the group that
stands there cannot be skipped, an empty container can always be read, and where one of several
readings succeeds, the failures of the others are forgotten.

`Follows` is the invariant.  A reader that follows the stack either fails, blaming the right token;
or it reads a front part over which the stack goes as well; or it stops short, and then it has met a
failure that lies as far as anything after it can be blamed.  There is one lemma for each way of
putting readers together, of which `Follows.bind` carries the others.
-/

namespace RoleAudit.Markup

open RoleAudit.Text (Span)
open Reader

/-- Whether a group in braces that comes next is a container. -/
def Symbols.opensContainer : Symbols → Bool
  | .value :: _ | .children :: _ => true
  | _ => false

/-- What is left of a list from the token on that is blamed, if one is. -/
def blame : Symbols → List Lexeme → List Lexeme
  | _, [] => []
  | stack, t :: ts => match stack.step t.token with
      | none => t :: ts
      | some mid =>
          if stack.opensContainer = true ∧ t.token = .openBrace ∧ UnclosedFirst ts then ts
          else blame mid ts

section Blame

variable {stack mid : Symbols} {t : Lexeme} {ts : List Lexeme}

@[simp] theorem blame_nil : blame stack [] = [] := rfl

theorem blame_of_step_none (h : stack.step t.token = none) : blame stack (t :: ts) = t :: ts := by
  rw [blame, h]

theorem blame_of_step (h : stack.step t.token = some mid)
    (hcontainer : stack.opensContainer = true → t.token ≠ .openBrace) :
    blame stack (t :: ts) = blame mid ts := by
  rw [blame, h]
  exact if_neg fun hunclosed => hcontainer hunclosed.1 hunclosed.2.1

theorem blame_of_opensContainer (h : stack.step t.token = some mid)
    (hcontainer : stack.opensContainer = true) (ht : t.token = .openBrace) :
    blame stack (t :: ts) = if UnclosedFirst ts then ts else blame mid ts := by
  rw [blame, h]
  simp only [hcontainer, ht, true_and]

theorem blame_suffix : blame stack ts <:+ ts := by
  induction ts generalizing stack with
  | nil => exact List.suffix_rfl
  | cons t ts ih =>
      rw [blame]
      split
      · exact List.suffix_rfl
      · split
        · exact List.suffix_cons t ts
        · exact ih.trans (List.suffix_cons t ts)

theorem blame_length_le : (blame stack ts).length ≤ ts.length :=
  blame_suffix.length_le

/-- What the stack takes is not blamed. -/
theorem blame_length_lt (h : (stack.step t.token).isSome = true) :
    (blame stack (t :: ts)).length < (t :: ts).length := by
  obtain ⟨mid, hmid⟩ := Option.isSome_iff_exists.1 h
  rw [blame, hmid]
  dsimp only
  split
  · exact Nat.lt_succ_self _
  · exact Nat.lt_succ_of_le blame_length_le

/-- Stacks that take a token alike blame alike from it on. -/
theorem blame_congr {stack' : Symbols} (h : stack.step t.token = stack'.step t.token)
    (hcontainer : stack.opensContainer = stack'.opensContainer) :
    blame stack (t :: ts) = blame stack' (t :: ts) := by
  rw [blame, blame, h, hcontainer]

/-- What the stack does not take is blamed. -/
theorem blame_of_next (h : next (fun t => (stack.step t).isSome) ts = false) :
    blame stack ts = ts := by
  cases ts with
  | nil => rfl
  | cons t ts => exact blame_of_step_none (by simpa using h)

/-- Where an extra does not go on, it makes no difference. -/
theorem blame_maybe {extra : Extra} {symbol : Symbol} (h : next extra.starts ts = false)
    (hcontainer : Symbols.opensContainer (symbol :: stack) = false) :
    blame (.maybe extra symbol :: stack) ts = blame (symbol :: stack) ts := by
  cases ts with
  | nil => rfl
  | cons t ts =>
      rw [next_cons] at h
      exact blame_congr (by rw [Symbols.step, Symbols.step, Symbol.after_maybe h]) hcontainer.symm

theorem blame_balanced {us vs : List Lexeme} (h : Balanced (us.map Lexeme.token)) :
    blame (.inside :: stack) (us ++ vs) = blame (.inside :: stack) vs := by
  generalize htokens : us.map Lexeme.token = tokens at h
  induction h generalizing us vs stack with
  | nil =>
      obtain rfl := List.map_eq_nil_iff.1 htokens
      rfl
  | single ht _ ih =>
      obtain ⟨t, us, rfl, rfl, rfl⟩ := List.map_eq_cons_iff.1 htokens
      have hstep : Symbols.step (.inside :: stack) t.token = some (.inside :: stack) := by
        rw [Symbols.step, Symbol.after_inside ht]
        rfl
      rw [List.cons_append, blame_of_step hstep (fun h => by cases h), ih rfl]
  | group _ _ ih ih' =>
      obtain ⟨⟨_, left⟩, us, rfl, rfl, hus⟩ := List.map_eq_cons_iff.1 htokens
      obtain ⟨inside, us, rfl, rfl, hrest⟩ := List.map_eq_append_iff.1 hus
      obtain ⟨⟨_, right⟩, rest, rfl, rfl, rfl⟩ := List.map_eq_cons_iff.1 hrest
      have hopen : Symbols.step (.inside :: stack) .openBrace =
          some (.inside :: .inside :: stack) := rfl
      have hclose : Symbols.step (.inside :: .inside :: stack) .closeBrace =
          some (.inside :: stack) := rfl
      rw [List.cons_append, List.append_assoc, List.cons_append,
        blame_of_step hopen (fun h => by cases h), ih rfl,
        blame_of_step hclose (fun h => by cases h), ih' rfl]

/-- Where nothing closes a brace, the end of the list is blamed. -/
theorem blame_staysInside (h : StaysInside (ts.map Lexeme.token)) :
    blame (.inside :: stack) ts = [] := by
  generalize htokens : ts.map Lexeme.token = tokens at h
  induction h generalizing ts stack with
  | balanced h =>
      have hblame := @blame_balanced stack ts [] (htokens ▸ h)
      simpa using hblame
  | unclosed h _ ih =>
      obtain ⟨inside, us, rfl, rfl, hrest⟩ := List.map_eq_append_iff.1 htokens
      obtain ⟨⟨_, left⟩, rest, rfl, rfl, rfl⟩ := List.map_eq_cons_iff.1 hrest
      have hopen : Symbols.step (.inside :: stack) .openBrace =
          some (.inside :: .inside :: stack) := rfl
      rw [blame_balanced h, blame_of_step hopen (fun h => by cases h), ih rfl]

/-- A group that is closed leaves what is to come after it. -/
theorem blame_closed {us vs : List Lexeme} {right : Span}
    (h : Balanced (us.map Lexeme.token)) :
    blame (.inside :: stack) (us ++ ⟨.closeBrace, right⟩ :: vs) = blame stack vs := by
  have hclose : Symbols.step (.inside :: stack) .closeBrace = some stack := rfl
  rw [blame_balanced h, blame_of_step hclose (fun h => by cases h)]

end Blame

/-! ### Following the stack -/

/-- The failure of a reader that begins at a list.  A mismatch of names lies behind a closing tag,
so that it is never met where the reader begins. -/
inductive Blames (stack : Symbols) (ts : List Lexeme) (f : Failure) : Prop
  | blamed (h : f.rest = blame stack ts)
  | mismatch (hcause : f.cause ≠ .unexpected) (hsuffix : f.rest <:+ ts)
      (hlt : f.rest.length < ts.length) (hle : (blame stack ts).length ≤ f.rest.length)

namespace Blames

variable {stack mid : Symbols} {ts rest : List Lexeme} {f g : Failure}

theorem suffix (h : Blames stack ts f) : f.rest <:+ ts := by
  cases h with
  | blamed h => exact h ▸ blame_suffix
  | mismatch _ hsuffix => exact hsuffix

theorem blame_le (h : Blames stack ts f) : (blame stack ts).length ≤ f.rest.length := by
  cases h with
  | blamed h => exact h ▸ Nat.le_refl _
  | mismatch _ _ _ hle => exact hle

/-- What is met where the reader begins is blamed. -/
theorem blame_eq (h : Blames stack ts f) (hf : f.rest.length = ts.length) :
    blame stack ts = ts := by
  cases h with
  | blamed h =>
      rw [← h]
      exact (h ▸ blame_suffix).eq_of_length hf
  | mismatch _ _ hlt => omega

theorem behind (h : Blames mid rest f) (hsuffix : rest <:+ ts)
    (hblame : blame stack ts = blame mid rest) : Blames stack ts f := by
  cases h with
  | blamed h => exact .blamed (h.trans hblame.symm)
  | mismatch hcause hf hlt hle =>
      exact .mismatch hcause (hf.trans hsuffix) (Nat.lt_of_lt_of_le hlt hsuffix.length_le)
        (hblame ▸ hle)

end Blames

/-- A failure that was met and passed: not behind what was read, or else rightly blamed. -/
def IsPassed (stack : Symbols) (ts rest : List Lexeme) (f : Failure) : Prop :=
  (f.rest <:+ ts ∧ rest.length ≤ f.rest.length) ∨ Blames stack ts f

/-- The attempt of a reader at a list goes with the stack, which changes as the value says. -/
inductive Follows {α : Type} (stack : Symbols) (after : α → Symbols) (ts : List Lexeme)
    (attempt : Attempt α) : Prop
  | fails {f : Failure} (h : attempt = ⟨none, some f⟩) (hf : Blames stack ts f)
  | reads {a : α} {rest : List Lexeme} {missed : Option Failure}
      (h : attempt = ⟨some (a, rest), missed⟩) (hsuffix : rest <:+ ts)
      (hblame : blame stack ts = blame (after a) rest)
      (hmissed : ∀ f, missed = some f → IsPassed stack ts rest f)
  /-- The reader stops early.  Whatever follows is blamed no further than it was. -/
  | short {a : α} {rest : List Lexeme} {f : Failure}
      (h : attempt = ⟨some (a, rest), some f⟩) (hsuffix : rest <:+ ts)
      (hle : f.rest.length ≤ (blame (after a) rest).length) (hf : Blames stack ts f)

/-- The reader gives up where it begins. -/
def Declines {α : Type} (p : Reader α) (ts : List Lexeme) : Prop :=
  ∃ f, p ts = ⟨none, some f⟩ ∧ f.rest = ts

theorem Failure.further_of_le {f g : Failure} (h : f.rest.length ≤ g.rest.length) :
    further (some f) (some g) = some f := by
  rw [further_some, if_neg (by omega)]

/-- A failure that is met after others were passed stands, or one that is as good as it. -/
theorem exists_further {stack mid : Symbols} {ts rest : List Lexeme} {missed : Option Failure}
    {f : Failure} (hmissed : ∀ g, missed = some g → IsPassed stack ts rest g)
    (hsuffix : rest <:+ ts) (hblame : blame stack ts = blame mid rest) (hf : Blames mid rest f) :
    ∃ g, Failure.further missed (some f) = some g ∧ Blames stack ts g ∧
      g.rest.length ≤ f.rest.length := by
  cases missed with
  | none => exact ⟨f, rfl, hf.behind hsuffix hblame, Nat.le_refl _⟩
  | some g =>
      rw [Failure.further_some]
      split
      · exact ⟨f, rfl, hf.behind hsuffix hblame, Nat.le_refl _⟩
      · next hle =>
          refine ⟨g, rfl, ?_, by omega⟩
          rcases hmissed g rfl with ⟨hg, hrest⟩ | hg
          · -- both are met where the second reader begins
            have hlength := hf.suffix.length_le
            have heq : g.rest = rest :=
              (List.suffix_of_suffix_length_le hsuffix hg hrest).eq_of_length (by omega) |>.symm
            exact .blamed (by rw [heq, hblame, hf.blame_eq (by omega)])
          · exact hg

section Follows

variable {α β : Type} {stack mid : Symbols} {after : α → Symbols} {final : β → Symbols}
  {ts us : List Lexeme} {p : Reader α}

namespace Declines

theorem bind {q : α → Reader β} (h : Declines p ts) : Declines (p >>= q) ts := by
  obtain ⟨f, hf, hrest⟩ := h
  exact ⟨f, bind_of_fails hf, hrest⟩

theorem token {expected : Token} (h : next (fun t => t = expected) ts = false) :
    Declines (Reader.token expected) ts :=
  ⟨_, token_of_next h, rfl⟩

theorem accept {kind : Token → Option α} (h : next (fun t => (kind t).isSome) ts = false) :
    Declines (Reader.accept kind) ts :=
  ⟨_, accept_of_next h, rfl⟩

theorem refuse {cause : Cause} : Declines (Reader.refuse cause : Reader α) ts :=
  ⟨_, rfl, rfl⟩

/-- What another reader met stands. -/
theorem orElse_eq {q : Reader α} (h : Declines q ts) {f : Failure} (hp : p ts = ⟨none, some f⟩)
    (hsuffix : f.rest <:+ ts) : (p <|> q) ts = ⟨none, some f⟩ := by
  obtain ⟨g, hg, hrest⟩ := h
  rw [orElse_of_fails hp hg, Failure.further_of_le (hrest ▸ hsuffix.length_le)]

theorem orElse {q : Reader α} (hp : Declines p ts) (hq : Declines q ts) :
    Declines (p <|> q) ts := by
  obtain ⟨f, hf, hrest⟩ := hp
  exact ⟨f, hq.orElse_eq hf (hrest ▸ List.suffix_rfl), hrest⟩

theorem optional_bind {q : Option α → Reader β} (h : Declines p ts) (hq : Declines (q none) ts) :
    Declines (Reader.optional p >>= q) ts := by
  obtain ⟨f, hf, hrest⟩ := h
  obtain ⟨g, hg, hrest'⟩ := hq
  have hnone : Reader.optional p ts = ⟨some (none, ts), some f⟩ := by rw [Reader.optional, hf]
  have hle : f.rest.length ≤ g.rest.length := hrest.trans hrest'.symm ▸ Nat.le_refl _
  refine ⟨f, ?_, hrest⟩
  rw [bind_of_reads hnone, hg, Failure.further_of_le hle]

theorem many_bind {q : List α → Reader β} (h : Declines p ts) (hq : Declines (q []) ts) :
    Declines (Reader.many p >>= q) ts := by
  obtain ⟨f, hf, hrest⟩ := h
  obtain ⟨g, hg, hrest'⟩ := hq
  have hle : f.rest.length ≤ g.rest.length := hrest.trans hrest'.symm ▸ Nat.le_refl _
  refine ⟨f, ?_, hrest⟩
  rw [bind_of_reads (many_of_fails hf), hg, Failure.further_of_le hle]

/-- A reader may decline what the stack does not take. -/
theorem follows (h : Declines p ts) (hblame : blame stack ts = ts) :
    Follows stack after ts (p ts) := by
  obtain ⟨f, hf, hrest⟩ := h
  exact .fails hf (.blamed (hrest.trans hblame.symm))

/-- Where the reader stands aside, the stack changes to one that blames alike. -/
theorem stops {b : β} (h : Declines p ts) (hblame : blame stack ts = blame (final b) ts) :
    Follows stack final ts ⟨some (b, ts), (p ts).furthest⟩ := by
  obtain ⟨f, hf, hrest⟩ := h
  refine .reads rfl List.suffix_rfl hblame fun g hg => Or.inl ?_
  obtain rfl : f = g := by simpa [hf] using hg
  simp [hrest]

theorem optional {final : Option α → Symbols} (h : Declines p ts)
    (hblame : blame stack ts = blame (final none) ts) :
    Follows stack final ts (Reader.optional p ts) := by
  have hstops : Follows stack final ts ⟨some (none, ts), (p ts).furthest⟩ := h.stops hblame
  obtain ⟨f, hf, -⟩ := h
  rw [Reader.optional, hf]
  rwa [hf] at hstops

end Declines

namespace Follows

theorem pure {a : α} : Follows (after a) after ts ((Pure.pure a : Reader α) ts) :=
  .reads rfl List.suffix_rfl rfl nofun

/-- A reader that goes on behind some lexemes over which the stack goes. -/
theorem behind {attempt : Attempt α} (h : Follows mid after us attempt) (hsuffix : us <:+ ts)
    (hblame : blame stack ts = blame mid us) : Follows stack after ts attempt := by
  cases h with
  | fails h hf => exact .fails h (hf.behind hsuffix hblame)
  | reads h hrest hblame' hmissed =>
      refine .reads h (hrest.trans hsuffix) (hblame.trans hblame') fun f hf => ?_
      rcases hmissed f hf with ⟨hf, hle⟩ | hf
      · exact Or.inl ⟨hf.trans hsuffix, hle⟩
      · exact Or.inr (hf.behind hsuffix hblame)
  | short h hrest hle hf => exact .short h (hrest.trans hsuffix) hle (hf.behind hsuffix hblame)

/-- What was passed before a reader begins makes no difference to what it is blamed for. -/
theorem beyond {attempt : Attempt α} {missed : Option Failure} (h : Follows mid after us attempt)
    (hsuffix : us <:+ ts) (hblame : blame stack ts = blame mid us)
    (hmissed : ∀ f, missed = some f → IsPassed stack ts us f) :
    Follows stack after ts ⟨attempt.result, Failure.further missed attempt.furthest⟩ := by
  cases h with
  | fails h hf =>
      obtain ⟨g, hg, hblames, -⟩ := exists_further hmissed hsuffix hblame hf
      exact .fails (by rw [h, hg]) hblames
  | @reads a rest missed' h hsuffix' hblame' hmissed' =>
      refine .reads (by rw [h]) (hsuffix'.trans hsuffix) (hblame.trans hblame') ?_
      intro f hf
      rcases Failure.further_eq_some hf with hf | hf
      · exact (hmissed f hf).imp_left fun ⟨hf, hle⟩ => ⟨hf, Nat.le_trans hsuffix'.length_le hle⟩
      · rcases hmissed' f hf with ⟨hf, hle⟩ | hf
        · exact Or.inl ⟨hf.trans hsuffix, hle⟩
        · exact Or.inr (hf.behind hsuffix hblame)
  | short h hsuffix' hle hf =>
      obtain ⟨g, hg, hblames, hgle⟩ := exists_further hmissed hsuffix hblame hf
      exact .short (by rw [h, hg]) (hsuffix'.trans hsuffix) (Nat.le_trans hgle hle) hblames

/-- What comes after a reader that stopped short is blamed no further than that one was. -/
theorem after_short {attempt : Attempt α} {f : Failure} (h : Follows mid after us attempt)
    (hsuffix : us <:+ ts) (hle : f.rest.length ≤ (blame mid us).length) (hf : Blames stack ts f) :
    Follows stack after ts ⟨attempt.result, Failure.further (some f) attempt.furthest⟩ := by
  cases h with
  | fails h hf' =>
      refine .fails ?_ hf
      rw [h, Failure.further_of_le (Nat.le_trans hle hf'.blame_le)]
  | @reads b rest missed h hrest hblame hmissed =>
      refine .short ?_ (hrest.trans hsuffix) (hblame ▸ hle) hf
      rw [h]
      cases missed with
      | none => rw [Failure.further_none_right]
      | some g =>
          rw [Failure.further_of_le]
          rcases hmissed g rfl with ⟨-, hg⟩ | hg
          · rw [hblame] at hle
            exact Nat.le_trans (Nat.le_trans hle blame_length_le) hg
          · exact Nat.le_trans hle hg.blame_le
  | short h hrest hle' hf' =>
      have hle'' := Nat.le_trans hle hf'.blame_le
      refine .short ?_ (hrest.trans hsuffix) (Nat.le_trans hle'' hle') hf
      rw [h, Failure.further_of_le hle'']

/-- One reader after another. -/
theorem bind {q : α → Reader β} (hp : Follows stack after ts (p ts))
    (hq : ∀ a rest, p.Reads ts a rest → Follows (after a) final rest (q a rest)) :
    Follows stack final ts ((p >>= q) ts) := by
  cases hp with
  | fails h hf => exact .fails (bind_of_fails h) hf
  | reads h hsuffix hblame hmissed =>
      rw [bind_of_reads h]
      exact (hq _ _ (by rw [Reads, h])).beyond hsuffix hblame hmissed
  | short h hsuffix hle hf =>
      rw [bind_of_reads h]
      exact (hq _ _ (by rw [Reads, h])).after_short hsuffix hle hf

/-- A repetition stops where nothing of its kind comes next, and another reader goes on. -/
theorem after_declines {attempt : Attempt β} (h : Declines p ts)
    (hfinal : Follows stack final ts attempt) :
    Follows stack final ts ⟨attempt.result, Failure.further (p ts).furthest attempt.furthest⟩ := by
  obtain ⟨f, hf, hrest⟩ := h
  refine hfinal.beyond List.suffix_rfl rfl fun g hg => ?_
  obtain rfl : f = g := by simpa [hf] using hg
  exact Or.inl (by simp [hrest])

/-- A repetition stops where something of its kind is wrong, and nothing else may come there. -/
theorem after_fails {attempt : Attempt β} (hp : Follows stack after ts (p ts))
    (hfails : p.Fails ts) (hblame : (blame stack ts).length < ts.length) {g : Failure}
    (h : attempt = ⟨none, some g⟩) (hg : ts.length ≤ g.rest.length + 1) :
    Follows stack final ts ⟨attempt.result, Failure.further (p ts).furthest attempt.furthest⟩ := by
  unfold Fails at hfails
  cases hp with
  | @fails f hp hf =>
      have hlt : f.rest.length < ts.length := by
        rcases Nat.lt_or_ge f.rest.length ts.length with hlt | hge
        · exact hlt
        · have hall := hf.blame_eq (Nat.le_antisymm hf.suffix.length_le hge)
          rw [hall] at hblame
          omega
      exact .fails (by rw [hp, h, Failure.further_of_le (by omega)]) hf
  | reads hp => simp [hp] at hfails
  | short hp => simp [hp] at hfails

/-- A reader and another one that gives up at once. -/
theorem orElse_left {q : Reader α} (hp : Follows stack after ts (p ts)) (hq : Declines q ts) :
    Follows stack after ts ((p <|> q) ts) := by
  cases hp with
  | fails h hf => exact .fails (hq.orElse_eq h hf.suffix) hf
  | reads h hsuffix hblame hmissed => exact .reads (orElse_of_reads h) hsuffix hblame hmissed
  | short h hsuffix hle hf => exact .short (orElse_of_reads h) hsuffix hle hf

theorem orElse_right {q : Reader α} (hp : Declines p ts) (hq : Follows stack after ts (q ts)) :
    Follows stack after ts ((p <|> q) ts) := by
  obtain ⟨g, hg, hrest⟩ := hp
  have hfails : p.Fails ts := by rw [Fails, hg]
  cases hq with
  | @fails f h hf =>
      have hfurther := orElse_of_fails hg h
      rw [Failure.further_some] at hfurther
      split at hfurther
      · exact .fails hfurther hf
      · next hle =>
          have hlength := hf.suffix.length_le
          rw [hrest] at hle
          exact .fails hfurther (.blamed (by rw [hrest, hf.blame_eq (by omega)]))
  | reads h hsuffix hblame hmissed =>
      exact .reads (orElse_of_fails_reads hfails h) hsuffix hblame hmissed
  | short h hsuffix hle hf => exact .short (orElse_of_fails_reads hfails h) hsuffix hle hf

/-- What could not be read is left out, and nothing else may stand in its place. -/
theorem stops {b : β} (hp : Follows stack after ts (p ts)) (hfails : p.Fails ts)
    (hblame : blame (final b) ts = ts) :
    Follows stack final ts ⟨some (b, ts), (p ts).furthest⟩ := by
  unfold Fails at hfails
  cases hp with
  | fails h hf =>
      rw [h]
      exact .short rfl List.suffix_rfl (by rw [hblame]; exact hf.suffix.length_le) hf
  | reads h => simp [h] at hfails
  | short h => simp [h] at hfails

theorem optional {final : Option α → Symbols} (hp : Follows stack after ts (p ts))
    (hsome : ∀ a, final (some a) = after a) (hnone : p.Fails ts → blame (final none) ts = ts) :
    Follows stack final ts (Reader.optional p ts) := by
  cases hp with
  | fails h hf =>
      have hfails : p.Fails ts := by rw [Fails, h]
      have hstops : Follows stack final ts ⟨some (none, ts), (p ts).furthest⟩ :=
        stops (.fails h hf : Follows stack after ts (p ts)) hfails (hnone hfails)
      rw [Reader.optional, h]
      rwa [h] at hstops
  | reads h hsuffix hblame hmissed =>
      exact .reads (by rw [Reader.optional, h]) hsuffix (by rw [hsome, hblame]) hmissed
  | short h hsuffix hle hf =>
      exact .short (by rw [Reader.optional, h]) hsuffix (by rw [hsome]; exact hle) hf

theorem map {g : α → β} (hp : Follows stack after ts (p ts)) (hg : ∀ a, final (g a) = after a) :
    Follows stack final ts ((do
      let a ← p
      return g a) ts) :=
  hp.bind fun a rest _ => by
    rw [← hg a]
    exact pure

/-- One lexeme, which the stack takes exactly if the reader does. -/
theorem accept {kind : Token → Option α}
    (hsome : ∀ t a, kind t = some a →
      stack.step t = some mid ∧ (stack.opensContainer = true → t ≠ .openBrace))
    (hnone : ∀ t, kind t = none → stack.step t = none) :
    Follows stack (fun _ => mid) ts (Reader.accept kind ts) := by
  cases ts with
  | nil => exact Declines.follows ⟨_, rfl, rfl⟩ rfl
  | cons t ts =>
      cases h : kind t.token with
      | none =>
          exact Declines.follows (.accept (by simp [h])) (blame_of_step_none (hnone t.token h))
      | some a =>
          obtain ⟨hstep, hbrace⟩ := hsome t.token a h
          exact .reads (accept_cons h) (List.suffix_cons t ts) (blame_of_step hstep hbrace) nofun

theorem token {expected : Token} {below : Symbols} :
    Follows (.exactly expected :: below) (fun _ => below) ts (Reader.token expected ts) := by
  have haccept : Follows (.exactly expected :: below) (fun _ : Unit × Span => below) ts
      (Reader.accept (fun t => if t = expected then some () else none) ts) := by
    refine accept (fun t _ ht => ?_) fun t ht => ?_
    · split at ht <;> cases ht
      next heq => exact ⟨by simp [Symbols.step, Symbol.after, heq], fun h => by cases h⟩
    · split at ht
      · cases ht
      · next hne => simp [Symbols.step, Symbol.after, hne]
  exact haccept.map fun _ => rfl

/-- Repeated readings, with what comes after them.  Where the reader stops, what it met counts. -/
theorem many_bind {q : List α → Reader β}
    (hstep : ∀ us a rest, us.length ≤ ts.length → p.Reads us a rest →
      rest.length < us.length ∧ Follows stack (fun _ => stack) us (p us))
    (hstop : ∀ us as, us.length ≤ ts.length → p.Fails us →
      Follows stack final us ⟨(q as us).result, Failure.further (p us).furthest
        (q as us).furthest⟩) :
    Follows stack final ts ((many p >>= q) ts) := by
  induction hn : ts.length using Nat.strongRecOn generalizing ts q with
  | ind n ih =>
      rcases reads_or_fails p ts with ⟨a, rest, ha⟩ | hfails
      · obtain ⟨hlt, hfollows⟩ := hstep ts a rest (Nat.le_refl _) ha
        rw [many_bind_of_reads ha hlt]
        refine hfollows.bind fun a' rest' ha' => ?_
        obtain ⟨rfl, rfl⟩ := ha'.unique ha
        exact ih rest'.length (hn ▸ hlt) (fun us b mid hle => hstep us b mid (by omega))
          (fun us as hle => hstop us (a' :: as) (by omega)) rfl
      · rw [many_bind_of_fails hfails]
        exact hstop ts [] (Nat.le_refl _) hfails

/-- Repeated readings by themselves. -/
theorem many
    (hstep : ∀ us a rest, us.length ≤ ts.length → p.Reads us a rest →
      rest.length < us.length ∧ Follows stack (fun _ => stack) us (p us))
    (hstop : ∀ us, us.length ≤ ts.length → p.Fails us →
      (Declines p us ∧ blame stack us = blame mid us) ∨
        (Follows stack (fun _ => stack) us (p us) ∧ blame mid us = us)) :
    Follows stack (fun _ => mid) ts (Reader.many p ts) := by
  rw [← bind_pure (Reader.many p)]
  refine many_bind hstep fun us as hle hfails => ?_
  rw [show (Pure.pure as : Reader (List α)) us = ⟨some (as, us), none⟩ from rfl,
    Failure.further_none_right]
  rcases hstop us hle hfails with ⟨hdeclines, hblame⟩ | ⟨hfollows, hblame⟩
  · exact hdeclines.stops hblame
  · exact hfollows.stops hfails hblame

end Follows

end Follows

end RoleAudit.Markup
