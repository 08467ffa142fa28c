import RoleAudit.Proofs.Forward

/-!
# Attempts at reading

Equations between whole attempts, with the failures that they met: what becomes of a reader at the
first lexeme of a list, how readings one after the other group, and when repeated readings agree.
-/

namespace RoleAudit.Markup

open RoleAudit.Text (Span)

namespace Failure

@[simp] theorem further_none_left (f : Option Failure) : further none f = f := by
  cases f <;> rfl

@[simp] theorem further_none_right (f : Option Failure) : further f none = f := by
  cases f <;> rfl

theorem further_some (f g : Failure) : further (some f) (some g) =
    if g.rest.length < f.rest.length then some g else some f := rfl

theorem further_eq_some {first second : Option Failure} {f : Failure}
    (h : further first second = some f) : first = some f ∨ second = some f := by
  cases first with
  | none => exact Or.inr (by simpa using h)
  | some first =>
      cases second with
      | none => exact Or.inl h
      | some second =>
          rw [further_some] at h
          split at h
          · exact Or.inr h
          · exact Or.inl h

/-- The furthest of three failures, of those at one place the first. -/
theorem further_assoc (a b c : Option Failure) :
    further (further a b) c = further a (further b c) := by
  cases a with
  | none => simp
  | some a =>
      cases b with
      | none => simp
      | some b =>
          cases c with
          | none => simp
          | some c =>
              -- which of the three is picked goes by the order of the lengths
              by_cases hab : b.rest.length < a.rest.length <;>
                by_cases hbc : c.rest.length < b.rest.length <;>
                by_cases hac : c.rest.length < a.rest.length <;>
                simp only [further_some, hab, hbc, hac, if_true, if_false] <;> omega

end Failure

namespace Reader

variable {α β γ : Type}

theorem bind_of_reads {p : Reader α} {q : α → Reader β} {ts rest : List Lexeme} {a : α}
    {missed : Option Failure} (h : p ts = ⟨some (a, rest), missed⟩) : (p >>= q) ts =
      ⟨(q a rest).result, Failure.further missed (q a rest).furthest⟩ := by
  show Reader.bind p q ts = _
  rw [Reader.bind, h]

theorem bind_of_fails {p : Reader α} {q : α → Reader β} {ts : List Lexeme}
    {failure : Option Failure} (h : p ts = ⟨none, failure⟩) : (p >>= q) ts = ⟨none, failure⟩ := by
  show Reader.bind p q ts = _
  rw [Reader.bind, h]

/-- Readings one after the other group to either side, for of three failures at one place the first
is the furthest in either case. -/
instance : LawfulMonad Reader := by
  refine LawfulMonad.mk' Reader (fun p => ?_) (fun a q => ?_) fun p q r => ?_
  · funext ts
    rcases hp : p ts with ⟨_ | ⟨a, rest⟩, missed⟩
    · exact bind_of_fails hp
    · refine (bind_of_reads hp).trans ?_
      simp [Reader.pure]
  · funext ts
    rw [bind_of_reads (show (pure a : Reader _) ts = ⟨some (a, ts), none⟩ from rfl)]
    simp
  · funext ts
    rcases hp : p ts with ⟨_ | ⟨a, mid⟩, missed⟩
    · rw [bind_of_fails hp, bind_of_fails (bind_of_fails hp)]
    · rw [bind_of_reads hp]
      rcases hq : q a mid with ⟨_ | ⟨b, rest⟩, missed'⟩
      · rw [bind_of_fails hq, bind_of_fails (by rw [bind_of_reads hp, hq])]
      · rw [bind_of_reads hq, bind_of_reads (by rw [bind_of_reads hp, hq]),
          Failure.further_assoc]

theorem orElse_of_reads {p q : Reader α} {ts : List Lexeme} {read : α × List Lexeme}
    {missed : Option Failure} (h : p ts = ⟨some read, missed⟩) :
    (p <|> q) ts = ⟨some read, missed⟩ := by
  show Reader.orElse p q ts = _
  rw [Reader.orElse, h]

/-- The failures of a reading that failed are forgotten where another one succeeds. -/
theorem orElse_of_fails_reads {p q : Reader α} {ts : List Lexeme} {read : α × List Lexeme}
    {missed : Option Failure} (h : p.Fails ts) (h' : q ts = ⟨some read, missed⟩) :
    (p <|> q) ts = ⟨some read, missed⟩ := by
  show Reader.orElse p q ts = _
  unfold Fails at h
  rcases hp : p ts with ⟨result, failure⟩
  rw [hp] at h
  obtain rfl : result = none := h
  rw [Reader.orElse, hp, h']

theorem orElse_of_fails {p q : Reader α} {ts : List Lexeme} {failure failure' : Option Failure}
    (h : p ts = ⟨none, failure⟩) (h' : q ts = ⟨none, failure'⟩) :
    (p <|> q) ts = ⟨none, Failure.further failure failure'⟩ := by
  show Reader.orElse p q ts = _
  rw [Reader.orElse, h, h']

theorem accept_cons {kind : Token → Option α} {t : Lexeme} {ts : List Lexeme} {a : α}
    (h : kind t.token = some a) : accept kind (t :: ts) = ⟨some ((a, t.span), ts), none⟩ := by
  rw [accept, h]

theorem accept_of_next {kind : Token → Option α} {ts : List Lexeme}
    (h : next (fun t => (kind t).isSome) ts = false) :
    accept kind ts = ⟨none, some ⟨ts, .unexpected⟩⟩ := by
  cases ts with
  | nil => rfl
  | cons t ts =>
      rw [next_cons, Option.isSome_eq_false_iff, Option.isNone_iff_eq_none] at h
      rw [accept, h]
      rfl

theorem token_cons (expected : Token) (span : Span) (ts : List Lexeme) :
    token expected (⟨expected, span⟩ :: ts) = ⟨some (span, ts), none⟩ := by
  unfold token
  rw [bind_of_reads (accept_cons (if_pos rfl))]
  rfl

theorem token_of_next {expected : Token} {ts : List Lexeme}
    (h : next (fun t => t = expected) ts = false) :
    token expected ts = ⟨none, some ⟨ts, .unexpected⟩⟩ := by
  refine bind_of_fails (accept_of_next ?_)
  refine next_of_imp (fun t ht => ?_) h
  by_cases heq : t = expected
  · simpa using heq
  · simp [heq] at ht

theorem token_bind_cons (expected : Token) (span : Span) (ts : List Lexeme) (q : Span → Reader β) :
    (token expected >>= q) (⟨expected, span⟩ :: ts) = q span ts := by
  rw [bind_of_reads (token_cons expected span ts)]
  simp

theorem token_bind_of_next {expected : Token} {ts : List Lexeme} {q : Span → Reader β}
    (h : next (fun t => t = expected) ts = false) :
    (token expected >>= q) ts = ⟨none, some ⟨ts, .unexpected⟩⟩ :=
  bind_of_fails (token_of_next h)

/-- Repeated readings agree where single ones do on all lists that are not longer. -/
theorem many_congr {p q : Reader α} {ts : List Lexeme}
    (h : ∀ us : List Lexeme, us.length ≤ ts.length → p us = q us) : many p ts = many q ts := by
  induction hn : ts.length using Nat.strongRecOn generalizing ts with
  | ind n ih =>
      rw [many, many, h ts (Nat.le_refl _)]
      rcases q ts with ⟨_ | ⟨a, mid⟩, missed⟩
      · rfl
      · by_cases hlt : mid.length < ts.length
        · have hmid := ih mid.length (hn ▸ hlt) (fun us hus => h us (by omega)) rfl
          simp only [hlt, if_true, hmid]
        · simp only [hlt, if_false]

theorem many_of_fails {p : Reader α} {ts : List Lexeme} {failure : Option Failure}
    (h : p ts = ⟨none, failure⟩) : many p ts = ⟨some ([], ts), failure⟩ := by
  rw [many, h]

theorem many_of_reads {p : Reader α} {ts rest : List Lexeme} {a : α} {missed : Option Failure}
    (h : p ts = ⟨some (a, rest), missed⟩) (hlt : rest.length < ts.length) :
    many p ts = (do
      let a ← p
      let others ← many p
      return a :: others) ts := by
  rw [many, h, bind_of_reads h]
  dsimp only
  rw [if_pos hlt]
  rcases hmany : many p rest with ⟨_ | ⟨others, rest'⟩, missed'⟩
  · rw [bind_of_fails hmany]
    rfl
  · rw [bind_of_reads hmany]
    simp [Pure.pure, Reader.pure]

theorem bind_congr {p p' : Reader α} {q : α → Reader β} {ts : List Lexeme} (h : p ts = p' ts) :
    (p >>= q) ts = (p' >>= q) ts := by
  show Reader.bind p q ts = Reader.bind p' q ts
  rw [Reader.bind, h, Reader.bind]

theorem many_bind_of_fails {p : Reader α} {q : List α → Reader β} {ts : List Lexeme}
    (h : p.Fails ts) : (many p >>= q) ts =
      ⟨(q [] ts).result, Failure.further (p ts).furthest (q [] ts).furthest⟩ := by
  unfold Fails at h
  rcases hp : p ts with ⟨result, failure⟩
  rw [hp] at h
  obtain rfl : result = none := h
  exact bind_of_reads (many_of_fails hp)

theorem many_bind_of_reads {p : Reader α} {q : List α → Reader β} {ts rest : List Lexeme} {a : α}
    (h : p.Reads ts a rest) (hlt : rest.length < ts.length) :
    (many p >>= q) ts = (p >>= fun a => many p >>= fun others => q (a :: others)) ts := by
  unfold Reads at h
  rcases hp : p ts with ⟨result, missed⟩
  rw [hp] at h
  obtain rfl : result = some (a, rest) := h
  rw [bind_congr (many_of_reads hp hlt), bind_assoc]
  simp only [bind_assoc, pure_bind]

end Reader

end RoleAudit.Markup
