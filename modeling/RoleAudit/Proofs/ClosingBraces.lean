import RoleAudit.Proofs.OpenBraces
import RoleAudit.Proofs.Spelling

/-!
# Where a container ends

A pair of braces may be read as an expression, or passed over as a group.  The first way sees braces
only through what is nested in the expression, and the second only counts them.  Both come to the
same brace, which is the first one up to which as many braces are closed as opened: whatever an
expression takes up is balanced, and one balanced list at most leads up to a closing brace.

Main statements: `closesAt_iff`, `exists_content` and `container_ends_at_close`.
-/

namespace RoleAudit.Markup

open RoleAudit.Text (Span)
open Reader Grammar

/-! ### Counting braces -/

/-- The brace of this number is the first closing one up to which as many braces are closed as
opened. -/
structure ClosesAt (ts : List Token) (n : Nat) : Prop where
  brace : ts[n]? = some .closeBrace
  count : (ts.take (n + 1)).count .closeBrace = (ts.take (n + 1)).count .openBrace
  first : ∀ m < n, ts[m]? = some .closeBrace →
    (ts.take (m + 1)).count .closeBrace ≠ (ts.take (m + 1)).count .openBrace

instance (ts : List Token) (n : Nat) : Decidable (ClosesAt ts n) :=
  decidable_of_iff (ts[n]? = some .closeBrace ∧
      (ts.take (n + 1)).count .closeBrace = (ts.take (n + 1)).count .openBrace ∧
      ∀ m < n, ts[m]? = some .closeBrace →
        (ts.take (m + 1)).count .closeBrace ≠ (ts.take (m + 1)).count .openBrace)
    ⟨fun ⟨hbrace, hcount, hfirst⟩ => ⟨hbrace, hcount, hfirst⟩,
      fun ⟨hbrace, hcount, hfirst⟩ => ⟨hbrace, hcount, hfirst⟩⟩

/-- After a balanced list comes the brace that closes the one before it. -/
theorem closesAt_of_balanced {inside rest : List Token} (h : Balanced inside) :
    ClosesAt (.openBrace :: (inside ++ .closeBrace :: rest)) (inside.length + 1) where
  brace := by simp
  count := by
    have hall : inside.take (inside.length + 1) = inside := List.take_of_length_le (by omega)
    simp [List.take_append, hall, h.count_eq]
  first := by
    intro m hm hbrace
    cases m with
    | zero => simp at hbrace
    | succ k =>
        -- the front part of the list closes no more than it opens
        have hle := h.count_close_le (List.take_prefix (k + 1) inside)
        have htake : (inside ++ .closeBrace :: rest).take (k + 1) = inside.take (k + 1) :=
          List.take_append_of_le_length (by omega)
        simp only [List.take_succ_cons, htake, List.count_cons_self,
          List.count_cons_of_ne (show Token.openBrace ≠ .closeBrace by decide)]
        omega

/-- The brace that closes the first one of a list ends a balanced list. -/
theorem ClosesAt.exists_balanced {ts : List Token} {n : Nat} (h : ClosesAt (.openBrace :: ts) n) :
    ∃ inside rest, ts = inside ++ .closeBrace :: rest ∧ Balanced inside ∧
      n = inside.length + 1 := by
  cases n with
  | zero => simpa using h.brace
  | succ k =>
      have hbrace : ts[k]? = some .closeBrace := by simpa using h.brace
      obtain ⟨hlt, hget⟩ := List.getElem?_eq_some_iff.1 hbrace
      have hsplit : ts = ts.take k ++ .closeBrace :: ts.drop (k + 1) := by
        rw [← hget, List.getElem_cons_drop, List.take_append_drop]
      have hlength : (ts.take k).length = k := by
        rw [List.length_take]
        omega
      refine ⟨ts.take k, ts.drop (k + 1), hsplit, ?_, by omega⟩
      rcases staysInside_or_closes (ts.take k) with hstays | ⟨inside, rest, hfront, hinside⟩
      · refine hstays.balanced_of_count ?_
        have hcount := h.count
        rw [List.take_succ_cons, List.take_add_one, hbrace] at hcount
        simpa using hcount
      · -- a brace before this one would be the first up to which the counts are equal
        have hfirst : ClosesAt (.openBrace :: (inside ++ .closeBrace :: (rest ++ .closeBrace ::
            ts.drop (k + 1)))) (inside.length + 1) := closesAt_of_balanced hinside
        rw [hfront, List.append_assoc, List.cons_append] at hsplit
        rw [← hsplit] at hfirst
        have hshorter := congrArg List.length hfront
        simp only [List.length_append, List.length_cons] at hshorter
        exact absurd hfirst.count (h.first _ (by omega) hfirst.brace)

theorem closesAt_iff {ts : List Token} {n : Nat} : ClosesAt (.openBrace :: ts) n ↔
    ∃ inside rest, ts = inside ++ .closeBrace :: rest ∧ Balanced inside ∧
      n = inside.length + 1 := by
  refine ⟨ClosesAt.exists_balanced, ?_⟩
  rintro ⟨inside, rest, rfl, hinside, rfl⟩
  exact closesAt_of_balanced hinside

/-! ### What stands between the braces -/

/-- What stands between two braces makes this the content of them. -/
structure Content.Fits (content : Content) (inside : List Lexeme) : Prop where
  /-- Braces are empty if nothing stands between them. -/
  empty : content = .empty ↔ inside = []
  /-- They hold the expression that all the lexemes between them spell. -/
  expr : ∀ e, content = .expr e ↔ Spells inside (.expr .full e)
  covered : (∃ e, content = .expr e) ↔ ∃ e, Derives inside (.expr .full e)
  /-- Anything else is passed over. -/
  other : content = .other ↔ inside ≠ [] ∧ ¬ ∃ e, Derives inside (.expr .full e)

theorem not_derives_nil {level : Level} {e : Expr} : ¬ Derives [] (.expr level e) := fun h => by
  cases h.starts

/-- Lexemes spell one expression at most. -/
theorem Spells.expr_unique {inside : List Lexeme} {e e' : Expr}
    (h : Spells inside (.expr .full e)) (h' : Spells inside (.expr .full e')) : e = e' := by
  have hreads : (exprTo (inside.length + 1)).Reads (inside ++ []) e [] :=
    h.isReadAs.exprTo_reads (by simp) rfl
  have hreads' : (exprTo (inside.length + 1)).Reads (inside ++ []) e' [] :=
    h'.isReadAs.exprTo_reads (by simp) rfl
  exact (hreads.unique hreads').1

/-- Braces around a balanced list are spelled by what stands between them. -/
theorem exists_content {inside : List Lexeme} (left right : Span)
    (hbalanced : Balanced (inside.map Lexeme.token)) : ∃ content : Content, content.Fits inside ∧
      Spells (⟨.openBrace, left⟩ :: (inside ++ [⟨.closeBrace, right⟩]))
        (.container ⟨content, ⟨left.start, right.stop⟩⟩) := by
  by_cases hcovered : ∃ e, Derives inside (.expr .full e)
  · obtain ⟨e, he⟩ := hcovered
    obtain ⟨e, hspells⟩ := he.isSpelled
    have hne : inside ≠ [] := by
      rintro rfl
      exact not_derives_nil he
    refine ⟨.expr e, ?_, .coveredBraces hspells⟩
    exact {
      empty := by simp [hne]
      expr := fun e' => by
        rw [Content.expr.injEq]
        exact ⟨fun heq => heq ▸ hspells, hspells.expr_unique⟩
      covered := ⟨fun _ => ⟨_, he⟩, fun _ => ⟨e, rfl⟩⟩
      other := by simpa using fun _ => ⟨_, he⟩ }
  · have hno : ∀ e, ¬ Spells inside (.expr .full e) := fun e he => hcovered ⟨e, he.derives⟩
    by_cases hne : inside = []
    · subst hne
      refine ⟨.empty, ?_, .emptyBraces⟩
      exact {
        empty := by simp
        expr := fun e => by simpa using hno e
        covered := by simpa using hcovered
        other := by simp }
    · refine ⟨.other, ?_, .skippedBraces hne hbalanced hcovered⟩
      exact {
        empty := by simp [hne]
        expr := fun e => by simpa using hno e
        covered := by simpa using hcovered
        other := by simp [hne, hcovered] }

/-! ### Reading braces -/

/-- A container that is read ends where the counts of braces say. -/
theorem exists_closesAt_of_reads {ts rest : List Lexeme} {depth : Nat} {c : Container}
    (h : (container (exprTo depth)).Reads ts c rest) : ∃ n, ClosesAt (ts.map Lexeme.token) n := by
  obtain ⟨used, rfl, hused⟩ := container_takes (takes_to depth).2 h
  have hform : IsContainer (used.map Lexeme.token) := hused.isForm
  generalize htoks : used.map Lexeme.token = toks at hform
  obtain @⟨inside, hinside⟩ := hform
  refine ⟨inside.length + 1, ?_⟩
  rw [List.map_append, htoks, List.cons_append, List.append_assoc]
  exact closesAt_of_balanced hinside

section Reading

variable {inside tail : List Lexeme} {left right : Span} {depth : Nat}
  (hbalanced : Balanced (inside.map Lexeme.token))
include hbalanced

/-- An expression that gets up to a closing brace gets up to the one that closes the braces. -/
theorem exprTo_reads_to_close {right' : Span} {e : Expr} {rest : List Lexeme}
    (h : (exprTo depth).Reads (inside ++ ⟨.closeBrace, right⟩ :: tail) e
      (⟨.closeBrace, right'⟩ :: rest)) : rest = tail := by
  obtain ⟨used, hused, hderives⟩ := (takes_to depth).2 h
  have hsplit := Balanced.append_close_inj hbalanced hderives.balanced
    (by simpa using congrArg (List.map Lexeme.token) hused)
  have hlength : inside.length = used.length := by
    simpa using congrArg List.length hsplit.1
  obtain ⟨-, hrest⟩ := List.append_inj hused hlength
  exact (List.cons.inj hrest).2.symm

/-- So does the skipping of tokens and groups. -/
theorem many_balanced_reads_to_close {units : List Unit} {rest : List Lexeme}
    (h : (many balanced).Reads (inside ++ ⟨.closeBrace, right⟩ :: tail) units rest) :
    rest = ⟨.closeBrace, right⟩ :: tail := by
  obtain ⟨_, hunits⟩ := @many_balanced_reads inside tail right hbalanced
  exact (h.unique hunits).2

/-- Braces around a balanced list are read up to the second of them. -/
theorem exists_container_reads
    (hdepth : (⟨.openBrace, left⟩ :: (inside ++ ⟨.closeBrace, right⟩ :: tail)).length < depth) :
    ∃ content : Content, content.Fits inside ∧ (container (exprTo depth)).Reads
      (⟨.openBrace, left⟩ :: (inside ++ ⟨.closeBrace, right⟩ :: tail))
      ⟨content, ⟨left.start, right.stop⟩⟩ tail := by
  obtain ⟨content, hfits, hspells⟩ := exists_content left right hbalanced
  refine ⟨content, hfits, ?_⟩
  have hreads := hspells.isReadAs depth tail (by simpa using hdepth)
  simpa using hreads

end Reading

/-- A container is read exactly if the brace that closes its first one is there, up to which as many
braces are closed as opened, and it takes up everything to this brace.  It is empty if nothing
stands between the two, holds an expression if all that stands between them is one, and otherwise
passes over it.  Whichever it is, both ways of reading come to this brace: an expression that gets
to a closing brace at all, and the skipping of groups.  For what an expression takes up is balanced,
through all that is nested in it.  (More depth than there are lexemes is depth enough.) -/
theorem container_ends_at_close (ts : List Lexeme)
    (hopen : next (fun t => t = .openBrace) ts = true) (depth : Nat) (hdepth : ts.length < depth) :
    ((∃ c rest, (container (exprTo depth)).Reads ts c rest) ↔
      ∃ n, ClosesAt (ts.map Lexeme.token) n) ∧
    (∀ n, ClosesAt (ts.map Lexeme.token) n → ∃ left inside right content,
      ts = ⟨.openBrace, left⟩ :: (inside ++ ⟨.closeBrace, right⟩ :: ts.drop (n + 1)) ∧
      (container (exprTo depth)).Reads ts ⟨content, ⟨left.start, right.stop⟩⟩ (ts.drop (n + 1)) ∧
      content.Fits inside ∧
      (∀ e right' rest, (exprTo depth).Reads ts.tail e (⟨.closeBrace, right'⟩ :: rest) →
        rest = ts.drop (n + 1)) ∧
      ∀ units rest, (many balanced).Reads ts.tail units rest → rest = ts.drop n) ∧
    ∀ us e rest, (exprTo depth).Reads us e rest →
      ∃ used, us = used ++ rest ∧ Derives used (.expr .full e) ∧
        Balanced (used.map Lexeme.token) := by
  obtain _ | ⟨⟨t, left⟩, us⟩ := ts
  · cases hopen
  obtain rfl : t = .openBrace := of_decide_eq_true hopen
  have hclosed : ∀ n, ClosesAt ((⟨.openBrace, left⟩ :: us : List Lexeme).map Lexeme.token) n →
      ∃ inside right tail, us = inside ++ ⟨.closeBrace, right⟩ :: tail ∧
        Balanced (inside.map Lexeme.token) ∧ n = inside.length + 1 := by
    intro n hn
    obtain ⟨toks, others, hsplit, hbalanced, rfl⟩ := closesAt_iff.1 hn
    obtain ⟨inside, _, rfl, rfl, hclose⟩ := List.map_eq_append_iff.1 hsplit
    obtain ⟨right, tail, rfl, -⟩ := lexemes_cons hclose
    exact ⟨inside, right, tail, rfl, hbalanced, by simp⟩
  refine ⟨⟨?_, ?_⟩, ?_, ?_⟩
  · rintro ⟨c, rest, hreads⟩
    exact exists_closesAt_of_reads hreads
  · rintro ⟨n, hn⟩
    obtain ⟨inside, right, tail, rfl, hbalanced, -⟩ := hclosed n hn
    obtain ⟨content, -, hreads⟩ := exists_container_reads hbalanced hdepth
    exact ⟨_, _, hreads⟩
  · intro n hn
    obtain ⟨inside, right, tail, rfl, hbalanced, rfl⟩ := hclosed n hn
    obtain ⟨content, hfits, hreads⟩ := exists_container_reads hbalanced hdepth
    have hdrop : (⟨.openBrace, left⟩ :: (inside ++ ⟨.closeBrace, right⟩ :: tail) :
        List Lexeme).drop (inside.length + 1) = ⟨.closeBrace, right⟩ :: tail := by
      simp
    have hdrop' : (⟨.openBrace, left⟩ :: (inside ++ ⟨.closeBrace, right⟩ :: tail) :
        List Lexeme).drop (inside.length + 1 + 1) = tail := by
      simp [List.drop_append]
    rw [hdrop, hdrop']
    exact ⟨left, inside, right, content, rfl, hreads, hfits,
      fun e right' rest => exprTo_reads_to_close hbalanced,
      fun units rest => many_balanced_reads_to_close hbalanced⟩
  · intro us e rest hreads
    obtain ⟨used, rfl, hused⟩ := (takes_to depth).2 hreads
    exact ⟨used, rfl, hused, hused.balanced⟩

/-- A group with another in it, and a word behind it. -/
def nestedGroup : List Lexeme :=
  [⟨.openBrace, ⟨0, 1⟩⟩, ⟨.word "a", ⟨1, 2⟩⟩, ⟨.openBrace, ⟨2, 3⟩⟩, ⟨.closeBrace, ⟨3, 4⟩⟩,
    ⟨.closeBrace, ⟨4, 5⟩⟩, ⟨.word "b", ⟨5, 6⟩⟩]

theorem container_ends_at_close_sample :
    ClosesAt (nestedGroup.map Lexeme.token) 4 ∧ ∃ left inside right content,
      nestedGroup = ⟨.openBrace, left⟩ ::
        (inside ++ ⟨.closeBrace, right⟩ :: [⟨.word "b", ⟨5, 6⟩⟩]) ∧
      (container (exprTo 7)).Reads nestedGroup ⟨content, ⟨left.start, right.stop⟩⟩
        [⟨.word "b", ⟨5, 6⟩⟩] ∧ content.Fits inside := by
  have hcloses : ClosesAt (nestedGroup.map Lexeme.token) 4 := by decide
  obtain ⟨left, inside, right, content, hsplit, hreads, hfits, -⟩ :=
    (container_ends_at_close nestedGroup rfl 7 (by decide)).2.1 4 hcloses
  exact ⟨hcloses, left, inside, right, content, hsplit, hreads, hfits⟩

end RoleAudit.Markup
