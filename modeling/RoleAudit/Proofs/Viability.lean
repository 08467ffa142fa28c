import RoleAudit.Proofs.LooseLanguage

/-!
# Which lists begin a document

The stack of symbols takes whatever the loose language has, phrase by phrase: each phrase leads from
the symbol it begins with to what is to come after it, whatever that is.  Where a phrase could go
on, the next token says that it does not.

Main statement: `viable_iff_run`.  A list begins a document of the loose language exactly if the
stack takes all of its tokens.
-/

namespace RoleAudit.Markup

theorem IsItem.exists_starts {us : List Token} (h : IsItem us) :
    ∃ t rest, us = t :: rest ∧ t.startsItem = true := by
  cases h <;> exact ⟨_, _, rfl, rfl⟩

theorem Name.exists_tokens {name : Name} (hproper : name.IsProper) (hne : name ≠ .fragment) :
    ∃ text rest, name.tokens = .word text :: rest := by
  match name, hproper with
  | .plain _, _ | .namespaced _ _, _ | .member (_ :: _ :: _), _ => exact ⟨_, _, rfl⟩
  | .fragment, _ => exact absurd rfl hne

/-- After its attributes a tag ends. -/
theorem Repeated.exists_next {items : List Token} (h : Repeated IsItem items) (t : Token)
    (ts : List Token) : ∃ u rest, items ++ t :: ts = u :: rest ∧
      (u.startsItem = true ∧ (∃ others, items = u :: others) ∨ items = [] ∧ u = t) := by
  obtain ⟨parts, hparts, rfl⟩ := h
  cases parts with
  | nil => exact ⟨t, ts, rfl, Or.inr ⟨rfl, rfl⟩⟩
  | cons part parts =>
      obtain ⟨u, rest, rfl, hu⟩ := (hparts part (by simp)).exists_starts
      exact ⟨u, _, rfl, Or.inl ⟨hu, _, rfl⟩⟩

namespace Symbols

variable {stack : Symbols}

theorem run_balanced {us : List Token} (h : Balanced us) {vs : List Token} :
    run (.inside :: stack) (us ++ vs) = run (.inside :: stack) vs := by
  induction h generalizing stack vs with
  | nil => rfl
  | @single t rest ht _ ih =>
      have hstep : step (.inside :: stack) t = some (.inside :: stack) := by
        rw [step, Symbol.after_inside ht]
        rfl
      rw [List.cons_append, run_cons hstep, ih]
  | @group inside rest _ _ ih ih' =>
      have hopen : step (.inside :: stack) .openBrace = some (.inside :: .inside :: stack) := rfl
      have hclose : step (.inside :: .inside :: stack) .closeBrace = some (.inside :: stack) := rfl
      rw [List.cons_append, run_cons hopen, List.append_assoc, ih, List.cons_append,
        run_cons hclose, ih']

/-- A group in braces, behind its opening brace. -/
theorem run_inside {us : List Token} (h : Balanced us) {vs : List Token} :
    run (.inside :: stack) (us ++ .closeBrace :: vs) = run stack vs := by
  have hclose : step (.inside :: stack) .closeBrace = some stack := rfl
  rw [run_balanced h, run_cons hclose]

/-- Where an extra could go on and does not, it may be left out. -/
theorem run_maybe {extra : Extra} {next : Symbol} {t : Token} {ts : List Token}
    (h : extra.starts t = false) :
    run (.maybe extra next :: stack) (t :: ts) = run (next :: stack) (t :: ts) := by
  rw [run, run, step, step, Symbol.after_maybe h]

theorem run_dots {next : Symbol} {us : List Token} (h : AreDots us) {t : Token}
    (ht : t ≠ .dot) {ts : List Token} :
    run (.maybe .dots next :: stack) (us ++ t :: ts) = run (next :: stack) (t :: ts) := by
  obtain ⟨names, rfl⟩ := h
  induction names with
  | nil =>
      refine run_maybe ?_
      cases t <;> first | rfl | exact absurd rfl ht
  | cons name names ih =>
      have hdot : step (.maybe .dots next :: stack) .dot =
          some (.word :: .maybe .dots next :: stack) := rfl
      have hword : step (.word :: .maybe .dots next :: stack) (.word name) =
          some (.maybe .dots next :: stack) := rfl
      rw [List.flatMap_cons, List.append_assoc, List.cons_append, run_cons hdot, List.cons_append,
        run_cons hword, List.nil_append, ih]

theorem run_name {next : Symbol} {us : List Token} (h : Extra.name.Adds us) {t : Token}
    (ht : t.continuesName = false) {ts : List Token} :
    run (.maybe .name next :: stack) (us ++ t :: ts) = run (next :: stack) (t :: ts) := by
  rcases h with ⟨text, rfl⟩ | hdots
  · rfl
  · have hdot : t ≠ .dot := by
      rintro rfl
      cases ht
    obtain ⟨names, rfl⟩ := hdots
    cases names with
    | nil =>
        refine run_maybe ?_
        cases t <;> first | rfl | cases ht
    | cons name names =>
        -- after its first dot a name goes on with dots only
        have hrun : run (.maybe .dots next :: stack)
            ((name :: names).flatMap (fun name => [.dot, .word name]) ++ t :: ts) =
              run (next :: stack) (t :: ts) := run_dots ⟨name :: names, rfl⟩ hdot
        rw [← hrun]
        rfl

theorem run_value {next : Symbol} {us : List Token} (h : IsValue us) {t : Token}
    (ht : t ≠ .equals) {ts : List Token} :
    run (.maybe .value next :: stack) (us ++ t :: ts) = run (next :: stack) (t :: ts) := by
  cases h with
  | none =>
      refine run_maybe ?_
      cases t <;> first | rfl | exact absurd rfl ht
  | quoted => rfl
  | braced h =>
      obtain ⟨hinside⟩ := h
      rw [List.cons_append, List.cons_append, List.append_assoc]
      exact run_inside hinside

theorem run_attr {next : Symbol} {us : List Token} (h : Extra.attr.Adds us) {t : Token}
    (ht : t.continuesItem = false) {ts : List Token} :
    run (.maybe .attr next :: stack) (us ++ t :: ts) = run (next :: stack) (t :: ts) := by
  have hequals : t ≠ .equals := by
    rintro rfl
    cases ht
  rcases h with h | ⟨text, us, h, rfl⟩
  · cases h with
    | none =>
        refine run_maybe ?_
        cases t <;> first | rfl | cases ht
    | quoted => rfl
    | braced h =>
        obtain ⟨hinside⟩ := h
        rw [List.cons_append, List.cons_append, List.append_assoc]
        exact run_inside hinside
  · exact run_value h hequals

theorem run_item {isNamed : Bool} {us : List Token} (h : IsItem us) {t : Token}
    (ht : t.continuesItem = false) {ts : List Token} :
    run (.items isNamed :: stack) (us ++ t :: ts) = run (.items isNamed :: stack) (t :: ts) := by
  cases h with
  | plain h => exact run_attr (Or.inl h) ht
  | @spaced _ name ts h => exact run_attr (Or.inr ⟨name, ts, h, rfl⟩) ht
  | spread h =>
      rw [List.cons_append, List.cons_append, List.append_assoc]
      exact run_inside h

/-- What stands in a tag after its name leaves the rest of the element to come. -/
theorem run_items {isNamed : Bool} {us : List Token} (h : Repeated IsItem us) {t : Token}
    (ht : t.continuesItem = false) {ts : List Token} :
    run (.items isNamed :: stack) (us ++ t :: ts) = run (.items isNamed :: stack) (t :: ts) := by
  obtain ⟨parts, hparts, rfl⟩ := h
  induction parts with
  | nil => rfl
  | cons part parts ih =>
      have hothers := ih fun part hpart => hparts part (List.mem_cons_of_mem _ hpart)
      have hpart := hparts part List.mem_cons_self
      rw [List.flatten_cons, List.append_assoc, ← hothers]
      cases parts with
      | nil => exact run_item hpart ht
      | cons next parts =>
          obtain ⟨u, rest, rfl, hu⟩ := (hparts next (by simp)).exists_starts
          exact run_item hpart (continuesItem_of_startsItem hu)

/-- The name of an element, if it has one, leaves the rest of the tag to come. -/
theorem run_opening {name : Name} (hproper : name.IsProper) {t : Token}
    (ht : t.continuesName = false) {ts : List Token}
    (hfirst : name = .fragment → t.isWord = false) :
    run (.opening :: stack) (name.tokens ++ t :: ts) =
      run (.items (decide (name ≠ .fragment)) :: stack) (t :: ts) := by
  cases name with
  | plain name => exact run_maybe (by cases t <;> first | rfl | cases ht)
  | namespaced space name => rfl
  | member parts =>
      match parts, hproper with
      | first :: second :: others, _ =>
          have hname : Extra.name.Adds
              ((second :: others).flatMap fun name => [.dot, .word name]) := Or.inr ⟨_, rfl⟩
          exact run_name hname ht
  | fragment =>
      have hword := hfirst rfl
      show run (.opening :: stack) (t :: ts) = run (.items false :: stack) (t :: ts)
      rw [run, run, step, step]
      cases t <;> first | rfl | cases hword

theorem run_closing {name : Name} (hproper : name.IsProper) {ts : List Token} :
    run (.closing :: stack) (name.tokens ++ .greater :: ts) = run stack ts := by
  cases name with
  | plain name => rfl
  | namespaced space name => rfl
  | member parts =>
      match parts, hproper with
      | first :: second :: others, _ =>
          have hname : Extra.name.Adds
              ((second :: others).flatMap fun name => [.dot, .word name]) := Or.inr ⟨_, rfl⟩
          have hrun := @run_name stack (.exactly .greater) _ hname .greater rfl ts
          exact hrun
  | fragment => rfl

theorem run_less {t : Token} (h : t ≠ .slash) {ts : List Token} :
    run (.less :: stack) (t :: ts) = run (.opening :: .children :: stack) (t :: ts) := by
  rw [run, run, step_less h]

end Symbols

namespace Symbols

/-- The first tag of an element, up to what ends it. -/
theorem run_tag {stack : Symbols} {name : Name} {items : List Token} (hproper : name.IsProper)
    (hfirst : name = .fragment → ∀ text others, items ≠ .word text :: others)
    (hitems : Repeated IsItem items) {t : Token} (ht : t = .slash ∨ t = .greater)
    {ts : List Token} : run (.opening :: stack) (name.tokens ++ (items ++ t :: ts)) =
      run (.items (decide (name ≠ .fragment)) :: stack) (t :: ts) := by
  have hend : t.continuesItem = false ∧ t.continuesName = false ∧ t.isWord = false := by
    rcases ht with rfl | rfl <;> exact ⟨rfl, rfl, rfl⟩
  rw [← run_items hitems hend.1]
  obtain ⟨u, rest, hrest, hu⟩ := hitems.exists_next t ts
  rw [hrest]
  rcases hu with ⟨hu, others, hitems'⟩ | ⟨hitems', rfl⟩
  · refine run_opening hproper (continuesName_of_startsItem hu) fun hname => ?_
    cases u with
    | word text => exact absurd hitems' (hfirst hname text others)
    | _ => rfl
  · exact run_opening hproper hend.2.1 fun _ => hend.2.2

/-- No slash follows the `<` of an element. -/
theorem exists_next {name : Name} {items : List Token} (hproper : name.IsProper)
    (hitems : Repeated IsItem items) {t : Token} (ht : name = .fragment → t ≠ .slash)
    (ts : List Token) :
    ∃ u us, name.tokens ++ (items ++ t :: ts) = u :: us ∧ u ≠ .slash := by
  by_cases hname : name = .fragment
  · subst hname
    obtain ⟨u, us, hus, ⟨hu, -⟩ | ⟨-, rfl⟩⟩ := hitems.exists_next t ts
    · refine ⟨u, us, hus, ?_⟩
      rintro rfl
      cases hu
    · exact ⟨u, us, hus, ht rfl⟩
  · obtain ⟨text, rest, htokens⟩ := Name.exists_tokens hproper hname
    exact ⟨.word text, _, by rw [htokens]; rfl, by simp⟩

theorem run_children {stack : Symbols} {cs : List (List Token)} (h : ∀ c ∈ cs,
    ∀ vs : List Token, run (.children :: stack) (c ++ vs) = run (.children :: stack) vs)
    (vs : List Token) : run (.children :: stack) (cs.flatten ++ vs) =
      run (.children :: stack) vs := by
  induction cs with
  | nil => rfl
  | cons c cs ih =>
      rw [List.flatten_cons, List.append_assoc, h c List.mem_cons_self,
        ih fun c hc => h c (List.mem_cons_of_mem _ hc)]

mutual

/-- A whole element leaves to come what is to come after it.  No slash follows its `<`. -/
theorem run_element {ts : List Token} : IsLooseElement ts → ∃ t us, ts = .less :: t :: us ∧
    t ≠ .slash ∧ ∀ (stack : Symbols) (vs : List Token),
      run (.opening :: stack) (t :: us ++ vs) = run stack vs
  | @IsLooseElement.single name items hproper hname hitems => by
      obtain ⟨t, us, hus, ht⟩ := exists_next hproper hitems
        (fun heq => absurd heq hname) [.greater]
      refine ⟨t, us, by rw [← hus], ht, fun stack vs => ?_⟩
      have htag := @run_tag stack name items hproper (fun heq => absurd heq hname) hitems .slash
        (Or.inl rfl) (.greater :: vs)
      rw [decide_eq_true hname] at htag
      rw [← hus, List.append_assoc, List.append_assoc]
      exact htag
  | @IsLooseElement.pair name name' items children hproper hproper' hfirst hitems hchildren => by
      let closing := .less :: .slash :: (name'.tokens ++ [.greater])
      obtain ⟨t, us, hus, ht⟩ := exists_next hproper hitems
        (fun _ => show Token.greater ≠ .slash by simp) (children.flatten ++ closing)
      refine ⟨t, us, by rw [← hus], ht, fun stack vs => ?_⟩
      have htag := @run_tag stack name items hproper hfirst hitems .greater (Or.inr rfl)
        (children.flatten ++ (closing ++ vs))
      have hinside : run (.children :: stack) (children.flatten ++ (closing ++ vs)) =
          run (.children :: stack) (closing ++ vs) :=
        run_children (fun c hc vs => run_child (hchildren c hc) stack vs) _
      have hclosing : run (.children :: stack) (closing ++ vs) = run stack vs := by
        have hrun := @run_closing stack name' hproper' vs
        rw [← hrun]
        simp only [closing, List.cons_append, List.append_assoc, List.nil_append]
        rfl
      rw [← hus, List.append_assoc, List.append_assoc, List.cons_append, List.append_assoc, htag,
        ← hclosing, ← hinside]
      rfl

theorem run_child {ts : List Token} : IsLooseChild ts → ∀ (stack : Symbols) (vs : List Token),
    run (.children :: stack) (ts ++ vs) = run (.children :: stack) vs
  | .element h => by
      intro stack vs
      obtain ⟨t, us, rfl, ht, hrun⟩ := run_element h
      show run (.less :: stack) (t :: (us ++ vs)) = _
      rw [run_less ht]
      exact hrun _ vs
  | .braced h => by
      intro stack vs
      obtain ⟨hinside⟩ := h
      rw [List.cons_append, List.append_assoc]
      exact run_inside hinside
  | .prose => fun stack vs => rfl

end

theorem run_document {ts : List Token} (h : IsLooseDocument ts) : run [] ts = some [] := by
  obtain ⟨parts, hparts, rfl⟩ := h
  induction parts with
  | nil => rfl
  | cons part parts ih =>
      obtain ⟨t, us, rfl, -, hrun⟩ := run_element (hparts part (by simp))
      have hothers := ih fun part hpart => hparts part (List.mem_cons_of_mem _ hpart)
      rw [← hothers, ← hrun [] parts.flatten]
      rfl

end Symbols

/-- A list begins a document exactly if the stack takes it, from its first token to its last. -/
theorem viable_iff_run {front : List Token} :
    Viable front ↔ ∃ stack, Symbols.run [] front = some stack := by
  constructor
  · rintro ⟨more, hmore⟩
    have hall := Symbols.run_document hmore
    cases hfront : Symbols.run [] front with
    | some stack => exact ⟨stack, rfl⟩
    | none =>
        rw [Symbols.run_append_none hfront] at hall
        cases hall
  · rintro ⟨stack, hstack⟩
    exact viable_of_run hstack

end RoleAudit.Markup
