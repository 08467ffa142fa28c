import RoleAudit.Proofs.Attempts

/-!
# Braces that stay open

A token list stays inside the braces it stands in if none of its front parts closes a brace that it
does not open.  Such a list is balanced but for groups that are never closed, and every other list
leads up to a closing brace that ends the braces around it (`staysInside_or_closes`).

The reader that skips groups meets the end of a list that stays inside
(`skipsToEnd_of_staysInside`).
-/

namespace RoleAudit.Markup

open RoleAudit.Text (Span)
open Reader Grammar

/-- Token lists that close no brace but their own. -/
inductive StaysInside : List Token → Prop
  | balanced {ts : List Token} (h : Balanced ts) : StaysInside ts
  /-- A group is opened and never closed. -/
  | unclosed {inside rest : List Token} (h : Balanced inside) (hrest : StaysInside rest) :
      StaysInside (inside ++ .openBrace :: rest)

namespace StaysInside

theorem nil : StaysInside [] :=
  balanced .nil

theorem append_balanced {first second : List Token} (h : Balanced first)
    (h' : StaysInside second) : StaysInside (first ++ second) := by
  cases h' with
  | balanced h' => exact balanced (h.append h')
  | unclosed h' hrest =>
      rw [← List.append_assoc]
      exact unclosed (h.append h') hrest

theorem append {first second : List Token} (h : StaysInside first) (h' : StaysInside second) :
    StaysInside (first ++ second) := by
  induction h with
  | balanced h => exact append_balanced h h'
  | unclosed h _ ih =>
      rw [List.append_assoc, List.cons_append]
      exact unclosed h ih

theorem cons {t : Token} {ts : List Token} (ht : t ≠ .closeBrace) (h : StaysInside ts) :
    StaysInside (t :: ts) := by
  by_cases hopen : t = .openBrace
  · subst hopen
    exact @unclosed [] ts .nil h
  · have hbrace : t.isBrace = false := by
      cases t with
      | openBrace => exact absurd rfl hopen
      | closeBrace => exact absurd rfl ht
      | _ => rfl
    exact append_balanced (.single hbrace .nil) h

theorem single {t : Token} (ht : t ≠ .closeBrace) : StaysInside [t] :=
  cons ht nil

/-- What stays inside braces does so with these braces around it. -/
theorem braced {inside : List Token} (h : StaysInside inside) :
    StaysInside (.openBrace :: (inside ++ [.closeBrace])) := by
  induction h with
  | balanced h => exact balanced h.braced
  | @unclosed inside rest h _ ih =>
      -- the closing brace goes to the last group that is open
      rw [List.append_assoc]
      exact cons (by simp) (append_balanced h ih)

/-- As many groups are opened as are closed, at least. -/
theorem count_close_le {ts : List Token} (h : StaysInside ts) {front : List Token}
    (hfront : front <+: ts) : front.count .closeBrace ≤ front.count .openBrace := by
  induction h generalizing front with
  | balanced h => exact h.count_close_le hfront
  | @unclosed inside rest h _ ih =>
      obtain ⟨behind, hbehind⟩ := hfront
      rcases List.append_eq_append_iff.1 hbehind with ⟨more, hmore, -⟩ | ⟨more, rfl, hmore⟩
      · exact h.count_close_le ⟨more, hmore.symm⟩
      · have hcount := h.count_eq
        cases more with
        | nil => simp [hcount]
        | cons t more =>
            obtain ⟨rfl, hrest⟩ := List.cons.inj hmore
            have hle := ih ⟨behind, hrest.symm⟩
            simp [hcount]
            omega

/-- What closes as many braces as it opens is balanced. -/
theorem balanced_of_count {ts : List Token} (h : StaysInside ts)
    (hcount : ts.count .closeBrace = ts.count .openBrace) : Balanced ts := by
  cases h with
  | balanced h => exact h
  | @unclosed inside rest h hrest =>
      have hle := hrest.count_close_le List.prefix_rfl
      have heq := h.count_eq
      simp at hcount
      omega

/-- A closing brace after a balanced list ends the braces around it. -/
theorem not_append_close {inside rest : List Token} (h : Balanced inside) :
    ¬ StaysInside (inside ++ .closeBrace :: rest) := by
  intro hstays
  have hle := hstays.count_close_le
    (show inside ++ [.closeBrace] <+: inside ++ .closeBrace :: rest from ⟨rest, by simp⟩)
  have hcount := h.count_eq
  simp at hle
  omega

end StaysInside

/-- A token list stays inside the braces it stands in, or leads up to the one that closes them. -/
theorem staysInside_or_closes (ts : List Token) :
    StaysInside ts ∨ ∃ inside rest, ts = inside ++ .closeBrace :: rest ∧ Balanced inside := by
  induction hn : ts.length using Nat.strongRecOn generalizing ts with
  | ind n ih =>
      cases ts with
      | nil => exact Or.inl .nil
      | cons t ts =>
          simp only [List.length_cons] at hn
          by_cases hclose : t = .closeBrace
          · subst hclose
            exact Or.inr ⟨[], ts, rfl, .nil⟩
          · rcases ih ts.length (by omega) ts rfl with h | ⟨inside, rest, rfl, hinside⟩
            · exact Or.inl (h.cons hclose)
            · by_cases hopen : t = .openBrace
              · -- a group, behind which the list goes on
                subst hopen
                simp only [List.length_append, List.length_cons] at hn
                rcases ih rest.length (by omega) rest rfl with h | ⟨inside', rest', rfl, hinside'⟩
                · have hgroup := StaysInside.append_balanced hinside.braced h
                  exact Or.inl (by simpa using hgroup)
                · exact Or.inr ⟨.openBrace :: (inside ++ .closeBrace :: inside'), rest', by simp,
                    .group hinside hinside'⟩
              · have hbrace : t.isBrace = false := by
                  cases t with
                  | openBrace => exact absurd rfl hopen
                  | closeBrace => exact absurd rfl hclose
                  | _ => rfl
                exact Or.inr ⟨t :: inside, rest, rfl, .single hbrace hinside⟩

/-- Counting braces tells whether a list stays inside. -/
theorem staysInside_iff_count {ts : List Token} : StaysInside ts ↔
    ∀ front, front <+: ts → front.count .closeBrace ≤ front.count .openBrace := by
  refine ⟨fun h front hfront => h.count_close_le hfront, fun h => ?_⟩
  rcases staysInside_or_closes ts with hstays | ⟨inside, rest, rfl, hinside⟩
  · exact hstays
  · have hle := h (inside ++ [.closeBrace]) ⟨rest, by simp⟩
    have hcount := hinside.count_eq
    simp at hle
    omega

/-- Whether a list closes no more braces than it opens and `depth` ones before it. -/
def staysWithin : Nat → List Token → Bool
  | _, [] => true
  | depth, t :: ts =>
      if t = .openBrace then staysWithin (depth + 1) ts
      else if t = .closeBrace then decide (0 < depth) && staysWithin (depth - 1) ts
      else staysWithin depth ts

theorem forall_prefix_cons {P : List Token → Prop} {t : Token} {ts : List Token} :
    (∀ front, front <+: t :: ts → P front) ↔ P [] ∧ ∀ front, front <+: ts → P (t :: front) := by
  constructor
  · exact fun h => ⟨h [] (List.nil_prefix), fun front hfront =>
      h _ (List.cons_prefix_cons.2 ⟨rfl, hfront⟩)⟩
  · rintro ⟨hnil, hcons⟩ front hfront
    rcases List.prefix_cons_iff.1 hfront with rfl | ⟨front', rfl, hfront'⟩
    · exact hnil
    · exact hcons front' hfront'

theorem staysWithin_iff_count {ts : List Token} {depth : Nat} : staysWithin depth ts = true ↔
    ∀ front, front <+: ts → front.count .closeBrace ≤ depth + front.count .openBrace := by
  induction ts generalizing depth with
  | nil => simp [staysWithin]
  | cons t ts ih =>
      rw [forall_prefix_cons, staysWithin]
      split
      · next hopen =>
          subst hopen
          rw [ih]
          simp [Nat.add_assoc, Nat.add_comm 1]
      · next hopen =>
          split
          · next hclose =>
              subst hclose
              rw [Bool.and_eq_true, ih, decide_eq_true_eq]
              constructor
              · rintro ⟨hpos, hfront⟩
                refine ⟨by simp, fun front hprefix => ?_⟩
                have hle := hfront front hprefix
                simp only [List.count_cons_self, List.count_cons_of_ne hopen]
                omega
              · rintro ⟨-, hfront⟩
                have hempty := hfront [] List.nil_prefix
                refine ⟨Nat.lt_of_lt_of_le Nat.zero_lt_one (by simpa using hempty),
                  fun front hprefix => ?_⟩
                have hle := hfront front hprefix
                simp only [List.count_cons_self, List.count_cons_of_ne hopen] at hle
                omega
          · next hclose =>
              rw [ih]
              simp [List.count_cons_of_ne hopen, List.count_cons_of_ne hclose]

theorem staysInside_iff_staysWithin {ts : List Token} :
    StaysInside ts ↔ staysWithin 0 ts = true := by
  rw [staysInside_iff_count, staysWithin_iff_count]
  simp

instance : DecidablePred StaysInside := fun _ =>
  decidable_of_iff _ staysInside_iff_staysWithin.symm

/-! ### Skipping what stays inside -/

/-- A group in braces, given how to read what is nested in it. -/
def group (nested : Reader Unit) : Reader Unit := do
  let _ ← token .openBrace
  let _ ← many nested
  let _ ← token .closeBrace

/-- One token that is no brace. -/
def unbraced : Reader Unit := do
  let _ ← accept fun t => if t.isBrace then none else some ()

theorem balancedTo_eq (depth : Nat) :
    balancedTo (depth + 1) = (group (balancedTo depth) <|> unbraced) :=
  rfl

theorem group_congr {p q : Reader Unit} {ts : List Lexeme}
    (h : ∀ us : List Lexeme, us.length < ts.length → p us = q us) : group p ts = group q ts := by
  cases ts with
  | nil => rfl
  | cons t ts =>
      obtain ⟨t, span⟩ := t
      by_cases ht : t = .openBrace
      · subst ht
        have hmany : many p ts = many q ts := many_congr fun us hus => h us (by simp; omega)
        rw [group, group, token_bind_cons, token_bind_cons]
        rcases hq : many q ts with ⟨_ | ⟨units, rest⟩, missed⟩
        · rw [bind_of_fails (hmany.trans hq), bind_of_fails hq]
        · rw [bind_of_reads (hmany.trans hq), bind_of_reads hq]
      · have hnext : next (fun t => t = .openBrace) (⟨t, span⟩ :: ts) = false := by simpa using ht
        rw [group, group, token_bind_of_next hnext, token_bind_of_next hnext]

theorem orElse_congr {α : Type} {p p' q : Reader α} {ts : List Lexeme} (h : p ts = p' ts) :
    (p <|> q) ts = (p' <|> q) ts := by
  show Reader.orElse p q ts = Reader.orElse p' q ts
  rw [Reader.orElse, h, Reader.orElse]

/-- More depth than there are lexemes makes no difference. -/
theorem balancedTo_congr {depth depth' : Nat} {ts : List Lexeme} (h : ts.length < depth)
    (h' : ts.length < depth') : balancedTo depth ts = balancedTo depth' ts := by
  induction depth generalizing depth' ts with
  | zero => omega
  | succ depth ih =>
      cases depth' with
      | zero => omega
      | succ depth' =>
          rw [balancedTo_eq, balancedTo_eq]
          exact orElse_congr (group_congr fun us hus => ih (by omega) (by omega))

/-- Skipping nests without a bound. -/
theorem balanced_eq (ts : List Lexeme) : balanced ts = (group balanced <|> unbraced) ts := by
  show balancedTo (ts.length + 1) ts = _
  rw [balancedTo_eq]
  exact orElse_congr (group_congr fun us hus =>
    balancedTo_congr (by omega) (Nat.lt_succ_self us.length))

theorem unbraced_cons {t : Token} {span : Span} {ts : List Lexeme} (h : t.isBrace = false) :
    unbraced (⟨t, span⟩ :: ts) = ⟨some ((), ts), none⟩ := by
  unfold unbraced
  rw [bind_of_reads (accept_cons (if_neg (by simpa using h)))]
  rfl

theorem unbraced_of_next {ts : List Lexeme} (h : next (fun t => !t.isBrace) ts = false) :
    unbraced ts = ⟨none, some ⟨ts, .unexpected⟩⟩ := by
  refine bind_of_fails (accept_of_next (next_of_imp (fun t ht => ?_) h))
  cases hbrace : t.isBrace with
  | false => rfl
  | true => simp [hbrace] at ht

/-- A token that is no brace is skipped by itself. -/
theorem balanced_cons {t : Token} {span : Span} {ts : List Lexeme} (h : t.isBrace = false) :
    balanced (⟨t, span⟩ :: ts) = ⟨some ((), ts), none⟩ := by
  have hgroup : (group balanced).Fails (⟨t, span⟩ :: ts) := by
    unfold Fails group
    rw [token_bind_of_next (by simpa using (t.ne_of_not_isBrace h).1)]
  rw [balanced_eq, orElse_of_fails_reads hgroup (unbraced_cons h)]

/-- A group is skipped up to the brace that closes it. -/
theorem balanced_group {inside tail : List Lexeme} {left right : Span}
    (h : Balanced (inside.map Lexeme.token)) : ∃ missed,
      balanced (⟨.openBrace, left⟩ :: (inside ++ ⟨.closeBrace, right⟩ :: tail)) =
        ⟨some ((), tail), missed⟩ := by
  obtain ⟨units, hunits⟩ := @many_balanced_reads inside tail right h
  have hreads : (group balanced).Reads
      (⟨.openBrace, left⟩ :: (inside ++ ⟨.closeBrace, right⟩ :: tail)) () tail := by
    simp only [group, reads_bind, reads_token, reads_pure]
    exact ⟨left, _, rfl, units, _, hunits, right, tail, rfl, trivial, rfl⟩
  unfold Reads at hreads
  rw [balanced_eq]
  rcases hgroup : group balanced
      (⟨.openBrace, left⟩ :: (inside ++ ⟨.closeBrace, right⟩ :: tail)) with ⟨result, missed⟩
  rw [hgroup] at hreads
  obtain rfl : result = some ((), tail) := hreads
  exact ⟨missed, orElse_of_reads hgroup⟩

/-- A list leads up to the brace that closes the group it is in, or nothing closes the group. -/
theorem staysInside_or_eq_append (ts : List Lexeme) : StaysInside (ts.map Lexeme.token) ∨
    ∃ inside right tail, ts = inside ++ ⟨.closeBrace, right⟩ :: tail ∧
      Balanced (inside.map Lexeme.token) := by
  rcases staysInside_or_closes (ts.map Lexeme.token) with hstays | ⟨_, _, htokens, hinside⟩
  · exact Or.inl hstays
  · obtain ⟨inside, _, rfl, rfl, hrest⟩ := List.map_eq_append_iff.1 htokens
    obtain ⟨⟨_, right⟩, tail, rfl, rfl, rfl⟩ := List.map_eq_cons_iff.1 hrest
    exact Or.inr ⟨inside, right, tail, rfl, hinside⟩

/-- What was met before it does not matter where the end of the list is met. -/
theorem exists_further_end (missed : Option Failure) {f : Failure} (h : f.rest = []) :
    ∃ g, Failure.further missed (some f) = some g ∧ g.rest = [] := by
  cases missed with
  | none => exact ⟨f, rfl, h⟩
  | some g =>
      rw [Failure.further_some]
      split
      · exact ⟨f, rfl, h⟩
      · next hlt =>
          refine ⟨g, rfl, List.length_eq_zero_iff.1 ?_⟩
          rw [h] at hlt
          simpa using hlt

/-- What stays inside braces does so without a balanced part in front of it. -/
theorem StaysInside.of_append {first second : List Token} (h : StaysInside (first ++ second))
    (hfirst : Balanced first) : StaysInside second := by
  rcases staysInside_or_closes second with hsecond | ⟨inside, rest, rfl, hinside⟩
  · exact hsecond
  · rw [← List.append_assoc] at h
    exact absurd h (not_append_close (hfirst.append hinside))

/-- Skipping meets the end of the list, and goes on to no closing brace. -/
def SkipsToEnd (ts : List Lexeme) : Prop :=
  ∃ units rest f, many balanced ts = ⟨some (units, rest), some f⟩ ∧ f.rest = [] ∧
    next (fun t => t = .closeBrace) rest = false

theorem SkipsToEnd.of_reads {ts rest : List Lexeme} {missed : Option Failure}
    (h : balanced ts = ⟨some ((), rest), missed⟩) (hlt : rest.length < ts.length)
    (hrest : SkipsToEnd rest) : SkipsToEnd ts := by
  obtain ⟨units, rest', f, hmany, hf, hnext⟩ := hrest
  obtain ⟨g, hg, hgrest⟩ := exists_further_end missed hf
  refine ⟨() :: units, rest', g, ?_, hgrest, hnext⟩
  rw [many_of_reads h hlt, bind_of_reads h, bind_of_reads hmany, ← hg]
  simp [Pure.pure, Reader.pure]

/-- A group cannot be skipped where no brace closes it. -/
theorem SkipsToEnd.balanced_fails {ts : List Lexeme} (h : SkipsToEnd ts) (span : Span) :
    ∃ f, balanced (⟨.openBrace, span⟩ :: ts) = ⟨none, some f⟩ ∧ f.rest = [] := by
  obtain ⟨units, rest, f, hmany, hf, hnext⟩ := h
  have hgroup : group balanced (⟨.openBrace, span⟩ :: ts) = ⟨none, some f⟩ := by
    rw [group, token_bind_cons, bind_of_reads hmany, token_bind_of_next hnext,
      Failure.further_some, if_neg (by simp [hf])]
  have hsingle : unbraced (⟨.openBrace, span⟩ :: ts) = ⟨none, some ⟨_, .unexpected⟩⟩ :=
    unbraced_of_next rfl
  refine ⟨f, ?_, hf⟩
  rw [balanced_eq, orElse_of_fails hgroup hsingle, Failure.further_some, if_neg (by simp [hf])]

/-- A group stands first that no brace closes. -/
def UnclosedFirst : List Lexeme → Prop
  | [] => False
  | t :: ts => t.token = .openBrace ∧ StaysInside (ts.map Lexeme.token)

instance : DecidablePred UnclosedFirst
  | [] => isFalse id
  | t :: ts =>
      inferInstanceAs (Decidable (t.token = .openBrace ∧ StaysInside (ts.map Lexeme.token)))

theorem UnclosedFirst.staysInside {ts : List Lexeme} (h : UnclosedFirst ts) :
    StaysInside (ts.map Lexeme.token) := by
  cases ts with
  | nil => exact .nil
  | cons t ts => exact .cons (by simp [h.1]) h.2

/-- On a list that stays inside braces, one unit can be skipped unless a group stands first that
is never closed. -/
theorem exists_balanced_eq {t : Lexeme} {ts : List Lexeme}
    (h : StaysInside ((t :: ts).map Lexeme.token)) (hclosed : ¬ UnclosedFirst (t :: ts)) :
    ∃ rest missed, balanced (t :: ts) = ⟨some ((), rest), missed⟩ ∧
      rest.length < (t :: ts).length ∧ StaysInside (rest.map Lexeme.token) := by
  obtain ⟨t, span⟩ := t
  cases hbrace : t.isBrace with
  | false =>
      exact ⟨ts, none, balanced_cons hbrace, by simp, h.of_append (.single hbrace .nil)⟩
  | true =>
      cases t with
      | openBrace =>
          rcases staysInside_or_eq_append ts with hts | ⟨inside, right, tail, rfl, hinside⟩
          · exact absurd ⟨rfl, hts⟩ hclosed
          · obtain ⟨missed, hgroup⟩ := @balanced_group inside tail span right hinside
            refine ⟨tail, missed, hgroup, by simp; omega, ?_⟩
            exact StaysInside.of_append (by simpa using h) hinside.braced
      | closeBrace => exact absurd h (StaysInside.not_append_close .nil)
      | _ => cases hbrace

theorem skipsToEnd_of_staysInside {ts : List Lexeme} (h : StaysInside (ts.map Lexeme.token)) :
    SkipsToEnd ts := by
  induction hn : ts.length using Nat.strongRecOn generalizing ts with
  | ind n ih =>
      cases ts with
      | nil => exact ⟨[], [], _, many_of_fails rfl, rfl, rfl⟩
      | cons t ts =>
          by_cases hunclosed : UnclosedFirst (t :: ts)
          · obtain ⟨t, span⟩ := t
            obtain ⟨rfl, hts⟩ := hunclosed
            rw [List.length_cons] at hn
            obtain ⟨f, hf, hrest⟩ := (ih ts.length (by omega) hts rfl).balanced_fails span
            exact ⟨[], _, f, many_of_fails hf, hrest, rfl⟩
          · obtain ⟨rest, missed, hread, hlt, hrest⟩ := exists_balanced_eq h hunclosed
            exact .of_reads hread hlt (ih rest.length (hn ▸ hlt) hrest rfl)

end RoleAudit.Markup
