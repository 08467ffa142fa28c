import RoleAudit.Proofs.Blame
import RoleAudit.Proofs.Completeness
import RoleAudit.Proofs.Failures
import RoleAudit.Proofs.Viability

/-!
# The readers of the grammar follow the stack

Every reader of names, containers, attributes and elements goes with the stack of symbols from the
symbol that it reads to what is to come after it.

Main statement: `follows_document`.
-/

namespace RoleAudit.Markup

open RoleAudit.Text (Span)
open Reader Grammar

variable {stack below : Symbols} {ts us : List Lexeme}

theorem exists_of_next {t : Token} (h : next (fun u => u = t) ts = true) :
    ∃ span us, ts = ⟨t, span⟩ :: us := by
  cases ts with
  | nil => cases h
  | cons u us =>
      obtain ⟨u, span⟩ := u
      obtain rfl : u = t := by simpa using h
      exact ⟨span, us, rfl⟩

/-! ### Names -/

theorem word_follows : Follows (.word :: below) (fun _ => below) ts (word ts) := by
  refine .accept (fun t text ht => ?_) fun t ht => ?_
  · cases t with
    | word => exact ⟨rfl, fun h => by cases h⟩
    | _ => cases ht
  · cases t with
    | word => cases ht
    | _ => rfl

theorem word_declines (h : next Token.isWord ts = false) : Declines word ts := by
  refine .accept (next_of_imp (fun t ht => ?_) h)
  cases t with
  | word => rfl
  | _ => cases ht

theorem word_bind_cons {α : Type} {q : String × Span → Reader α} {text : String} {span : Span} :
    (word >>= q) (⟨.word text, span⟩ :: us) = q (text, span) us := by
  have hword : word (⟨.word text, span⟩ :: us) = ⟨some ((text, span), us), none⟩ := accept_cons rfl
  rw [bind_of_reads hword]
  simp

/-- What may follow the first part of a name. -/
def longerName (first : String) : Reader Name :=
  let namespaced : Reader Name := do
    let _ ← token .colon
    let (second, _) ← word
    return .namespaced first second
  let member : Reader Name := do
    let parts ← many1 do
      let _ ← token .dot
      word
    return .member (first :: parts.map Prod.fst)
  namespaced <|> member

theorem name_eq : name = (do
    let (first, _) ← word
    let longer ← optional (longerName first)
    return longer.getD (.plain first)) :=
  rfl

/-- A dot and the part of a name after it. -/
def dotted : Reader (String × Span) := do
  let _ ← token .dot
  word

theorem dotted_follows {extra : Extra} {symbol : Symbol} {span : Span}
    (h : (Symbol.maybe extra symbol).after .dot = some [.word, .maybe .dots symbol]) :
    Follows (.maybe extra symbol :: below) (fun _ => .maybe .dots symbol :: below)
      (⟨.dot, span⟩ :: us) (dotted (⟨.dot, span⟩ :: us)) := by
  have hstep : Symbols.step (.maybe extra symbol :: below) .dot =
      some (.word :: .maybe .dots symbol :: below) := by
    rw [Symbols.step, h]
    rfl
  rw [dotted, token_bind_cons]
  exact word_follows.behind (List.suffix_cons _ _) (blame_of_step hstep (fun h => by cases h))

theorem dotted_declines (h : next (fun t => t = .dot) ts = false) : Declines dotted ts :=
  (Declines.token h).bind

theorem length_lt_of_reads_dotted {rest : List Lexeme} {part : String × Span}
    (h : dotted.Reads ts part rest) : rest.length < ts.length := by
  simp only [dotted, reads_bind, reads_token] at h
  obtain ⟨_, _, rfl, h⟩ := h
  obtain ⟨t, -, rfl⟩ := reads_accept.1 h
  simp only [List.length_cons]
  omega

theorem many_dotted_follows {symbol : Symbol} (hdot : symbol.after .dot = none)
    (hcontainer : Symbols.opensContainer (symbol :: below) = false) :
    Follows (.maybe .dots symbol :: below) (fun _ => symbol :: below) ts (many dotted ts) := by
  refine .many (fun us part rest _ hread => ?_) fun us _ _ => ?_
  · refine ⟨length_lt_of_reads_dotted hread, ?_⟩
    simp only [dotted, reads_bind, reads_token] at hread
    obtain ⟨span, _, rfl, -⟩ := hread
    exact dotted_follows rfl
  · cases h : next (fun t => t = .dot) us with
    | false =>
        refine Or.inl ⟨dotted_declines h, blame_maybe (next_of_imp (fun t ht => ?_) h) hcontainer⟩
        cases t <;> first | rfl | cases ht
    | true =>
        obtain ⟨span, us, rfl⟩ := exists_of_next h
        exact Or.inr ⟨dotted_follows rfl, blame_of_next (by simp [Symbols.step, hdot])⟩

section Longer

variable {first : String} {symbol : Symbol} {span : Span}

theorem longerName_follows_colon :
    Follows (.maybe .name symbol :: below) (fun _ => symbol :: below) (⟨.colon, span⟩ :: us)
      (longerName first (⟨.colon, span⟩ :: us)) := by
  have hstep : Symbols.step (.maybe .name symbol :: below) .colon =
      some (.word :: symbol :: below) := rfl
  refine .orElse_left ?_ (dotted_declines rfl).bind.bind
  rw [token_bind_cons]
  have hsecond : Follows (.word :: symbol :: below) (fun _ => symbol :: below) us
      ((word >>= fun second => pure (Name.namespaced first second.1)) us) :=
    word_follows.map fun _ => rfl
  exact hsecond.behind (List.suffix_cons _ _) (blame_of_step hstep fun h => by cases h)

theorem longerName_follows_dot (hdot : symbol.after .dot = none)
    (hcontainer : Symbols.opensContainer (symbol :: below) = false) :
    Follows (.maybe .name symbol :: below) (fun _ => symbol :: below) (⟨.dot, span⟩ :: us)
      (longerName first (⟨.dot, span⟩ :: us)) := by
  have hparts : Follows (.maybe .name symbol :: below) (fun _ => symbol :: below)
      (⟨.dot, span⟩ :: us) (many1 dotted (⟨.dot, span⟩ :: us)) :=
    .bind (dotted_follows rfl) fun _ _ _ =>
      .map (many_dotted_follows hdot hcontainer) fun _ => rfl
  exact .orElse_right (Declines.token rfl).bind (.map hparts fun _ => rfl)

/-- What may follow the first part of a name, if it does. -/
theorem longerName_follows (hcolon : symbol.after .colon = none) (hdot : symbol.after .dot = none)
    (hcontainer : Symbols.opensContainer (symbol :: below) = false) :
    Follows (.maybe .name symbol :: below) (fun _ => symbol :: below) ts
      (optional (longerName first) ts) := by
  cases h : next (fun t => t = .colon) ts with
  | true =>
      obtain ⟨span, us, rfl⟩ := exists_of_next h
      exact longerName_follows_colon.optional (fun _ => rfl) fun _ =>
        blame_of_next (by simp [Symbols.step, hcolon])
  | false =>
      cases h' : next (fun t => t = .dot) ts with
      | true =>
          obtain ⟨span, us, rfl⟩ := exists_of_next h'
          exact (longerName_follows_dot hdot hcontainer).optional (fun _ => rfl) fun _ =>
            blame_of_next (by simp [Symbols.step, hdot])
      | false =>
          have hdeclines : Declines (longerName first) ts :=
            .orElse (Declines.token h).bind (dotted_declines h').bind.bind
          refine hdeclines.optional (blame_maybe ?_ hcontainer)
          cases ts with
          | nil => rfl
          | cons t ts =>
              obtain ⟨t, span⟩ := t
              cases t with
              | colon => simp at h
              | dot => simp at h'
              | _ => rfl

/-- A name, where the stack may go without one to `final none`. -/
theorem optional_name_follows {final : Option Name → Symbols} (hcolon : symbol.after .colon = none)
    (hdot : symbol.after .dot = none)
    (hcontainer : Symbols.opensContainer (symbol :: below) = false)
    (hword : ∀ text, stack.step (.word text) = some (.maybe .name symbol :: below))
    (hsome : ∀ n, final (some n) = symbol :: below)
    (hnone : next Token.isWord ts = false → blame stack ts = blame (final none) ts) :
    Follows stack final ts (optional name ts) := by
  cases h : next Token.isWord ts with
  | false => exact (word_declines h).bind.optional (hnone h)
  | true =>
      rcases ts with _ | ⟨⟨t, span⟩, us⟩
      · cases h
      · cases t with
        | word text =>
            have hname : Follows stack (fun _ => symbol :: below) (⟨.word text, span⟩ :: us)
                (name (⟨.word text, span⟩ :: us)) := by
              rw [name_eq, word_bind_cons]
              have hlonger : Follows (.maybe .name symbol :: below) (fun _ => symbol :: below) us
                  ((optional (longerName text) >>= fun longer =>
                    pure (longer.getD (.plain text))) us) :=
                (longerName_follows hcolon hdot hcontainer).map fun _ => rfl
              exact hlonger.behind (List.suffix_cons _ _)
                (blame_of_step (hword text) fun _ => by simp)
            refine hname.optional hsome fun hfails => ?_
            rw [name_eq, Fails, word_bind_cons] at hfails
            rcases fails_bind.1 hfails with hfails | ⟨_, _, _, hfails⟩
            · exact absurd hfails not_fails_optional
            · exact absurd hfails not_fails_pure
        | _ => cases h

end Longer

/-! ### Groups in braces -/

section Groups

variable {α : Type} {inside tail : List Lexeme} {left right : Span}

/-- What a reader meets that goes up to a closing brace lies in front of what is left behind it. -/
theorem Closes.passed {known : Name → Prop} {p : Reader α} (hp : Closes known p)
    (hinside : Balanced (inside.map Lexeme.token)) {f : Failure}
    (hf : (p (inside ++ ⟨.closeBrace, right⟩ :: tail)).furthest = some f) :
    f.rest <:+ inside ++ ⟨.closeBrace, right⟩ :: tail ∧ tail.length ≤ f.rest.length := by
  obtain ⟨front, hfront, hmissed⟩ := hp.meets hf
  refine ⟨⟨front, hfront.symm⟩, ?_⟩
  rcases List.append_eq_append_iff.1 hfront with ⟨more, rfl, hmore⟩ | ⟨more, rfl, hmore⟩
  · cases more with
    | nil =>
        rw [List.nil_append] at hmore
        rw [← hmore, List.length_cons]
        omega
    | cons t more =>
        -- the closing brace would have been passed
        obtain ⟨rfl, -⟩ := List.cons.inj hmore
        refine absurd hmissed.staysInside ?_
        rw [List.map_append, List.map_cons]
        exact StaysInside.not_append_close hinside
  · rw [hmore, List.length_append, List.length_cons]
    omega

/-- A reader that goes up to the brace that closes a group follows the stack out of the group. -/
theorem Closes.follows {known : Name → Prop} {p : Reader α} (hp : Closes known p)
    (hinside : Balanced (inside.map Lexeme.token)) {a : α}
    (h : p.Reads (inside ++ ⟨.closeBrace, right⟩ :: tail) a tail) :
    Follows (.inside :: below) (fun _ => below) (inside ++ ⟨.closeBrace, right⟩ :: tail)
      (p (inside ++ ⟨.closeBrace, right⟩ :: tail)) := by
  unfold Reads at h
  rcases hattempt : p (inside ++ ⟨.closeBrace, right⟩ :: tail) with ⟨result, missed⟩
  rw [hattempt] at h
  obtain rfl : result = some (a, tail) := h
  refine .reads rfl ⟨inside ++ [⟨.closeBrace, right⟩], by simp⟩ (blame_closed hinside) ?_
  exact fun f hf => Or.inl (hp.passed hinside (by rw [hattempt, hf]))

/-- A group that is skipped, behind its opening brace. -/
theorem skipped_follows {f : Span → α} : Follows (.inside :: below) (fun _ => below) ts ((do
    let _ ← many balanced
    let right ← token .closeBrace
    return f right) ts) := by
  rcases staysInside_or_eq_append ts with hstays | ⟨inside, right, tail, rfl, hinside⟩
  · obtain ⟨units, rest, g, hmany, hg, hnext⟩ := skipsToEnd_of_staysInside hstays
    refine .fails (f := g) ?_ (.blamed (hg.trans (blame_staysInside hstays).symm))
    rw [bind_of_reads hmany, token_bind_of_next hnext, Failure.further_of_le (by simp [hg])]
  · have hcloses : Closes (fun _ => False) (do
      let _ ← many balanced
      let right ← token .closeBrace
      return f right) := skipped_closes
    refine hcloses.follows (a := f right) hinside ?_
    obtain ⟨units, hunits⟩ := @many_balanced_reads inside tail right hinside
    simp only [reads_bind, reads_token, reads_pure]
    exact ⟨units, _, hunits, right, tail, rfl, rfl, rfl⟩

/-- What is asked of the reader of the expressions that may stand in containers. -/
structure ReadsExpressions (expr : Reader Expr) : Prop where
  takes : expr.Takes fun used e => Derives used (.expr .full e)
  keeps : KeepsAll expr

variable {expr : Reader Expr}

/-- No expression reaches up to the closing brace of a group that nothing closes. -/
theorem ReadsExpressions.covered_fails (hexpr : ReadsExpressions expr)
    (hstays : StaysInside (us.map Lexeme.token)) : Reader.Fails (do
      let inner ← expr
      let _ ← ahead (token .closeBrace)
      return Content.expr inner) us := by
  rw [fails_iff_forall]
  intro c rest h
  simp only [reads_bind, reads_ahead, reads_token, reads_pure] at h
  obtain ⟨e, mid, he, span, _, ⟨rfl, _, rfl⟩, -, -⟩ := h
  obtain ⟨used, rfl, hused⟩ := hexpr.takes he
  rw [List.map_append, List.map_cons] at hstays
  exact StaysInside.not_append_close hused.balanced hstays

/-- A container that nothing closes, behind its opening brace. -/
theorem container_unclosed (hexpr : ReadsExpressions expr)
    (hstays : StaysInside (us.map Lexeme.token)) : ∃ f, (do
      let inner ← content expr
      let right ← token .closeBrace
      return (⟨inner, ⟨left.start, right.stop⟩⟩ : Container)) us = ⟨none, some f⟩ ∧
        f.rest = if UnclosedFirst us then us else [] := by
  have hcovered := hexpr.covered_fails hstays
  -- where no group can be skipped, the container is taken to be empty
  have hempty (hfails : balanced.Fails us) (hnext : next (fun t => t = .closeBrace) us = false) :
      (do
        let inner ← content expr
        let right ← token .closeBrace
        return (⟨inner, ⟨left.start, right.stop⟩⟩ : Container)) us =
          ⟨none, some ⟨us, .unexpected⟩⟩ := by
    have hcontent : content expr us = ⟨some (.empty, us), none⟩ :=
      orElse_of_fails_reads hcovered
        (orElse_of_fails_reads (fails_bind.2 (Or.inl (fails_many1.2 hfails))) rfl)
    rw [bind_of_reads hcontent, token_bind_of_next hnext]
    rfl
  cases us with
  | nil => exact ⟨_, hempty rfl rfl, by simp [UnclosedFirst]⟩
  | cons t us =>
      by_cases hunclosed : UnclosedFirst (t :: us)
      · obtain ⟨t, span⟩ := t
        obtain ⟨rfl, hstays'⟩ := hunclosed
        obtain ⟨f, hf, -⟩ := (skipsToEnd_of_staysInside hstays').balanced_fails span
        exact ⟨_, hempty (by rw [Fails, hf]) rfl, (if_pos ⟨rfl, hstays'⟩).symm⟩
      · obtain ⟨rest, missed, hread, hlt, -⟩ := exists_balanced_eq hstays hunclosed
        obtain ⟨units, rest', f, hmany, hf, hnext⟩ := skipsToEnd_of_staysInside hstays
        rw [many_of_reads hread hlt] at hmany
        have hskipped : (do
            let _ ← many1 balanced
            return Content.other) (t :: us) = ⟨some (.other, rest'), some f⟩ :=
          bind_of_reads hmany
        have hcontent : content expr (t :: us) = ⟨some (.other, rest'), some f⟩ :=
          orElse_of_fails_reads hcovered (orElse_of_reads hskipped)
        refine ⟨f, ?_, by rw [if_neg hunclosed, hf]⟩
        rw [bind_of_reads hcontent, token_bind_of_next hnext,
          Failure.further_of_le (by simp [hf])]

/-- Where the stack has a container or something else come next, a brace begins a container. -/
theorem container_follows (hexpr : ReadsExpressions expr)
    (hcontainer : stack.opensContainer = true)
    (hstep : stack.step .openBrace = some (.inside :: below)) :
    Follows stack (fun _ => below) (⟨.openBrace, left⟩ :: us)
      (container expr (⟨.openBrace, left⟩ :: us)) := by
  have hblame := @blame_of_opensContainer stack (.inside :: below) ⟨.openBrace, left⟩ us hstep
    hcontainer rfl
  rw [container, token_bind_cons]
  rcases staysInside_or_eq_append us with hstays | ⟨inside, right, tail, rfl, hinside⟩
  · obtain ⟨f, hf, hrest⟩ := @container_unclosed us left expr hexpr hstays
    exact .fails hf (.blamed (by rw [hrest, hblame, blame_staysInside hstays]))
  · have hclosed : ¬ UnclosedFirst (inside ++ ⟨.closeBrace, right⟩ :: tail) := by
      intro hunclosed
      have hstays := hunclosed.staysInside
      rw [List.map_append, List.map_cons] at hstays
      exact StaysInside.not_append_close hinside hstays
    have hcloses := container_closes hexpr.keeps left
    obtain ⟨c, hc⟩ := @container_reads_of_balanced expr inside tail left right hexpr.takes hinside
    rw [Reads, container, token_bind_cons] at hc
    have hfollows : Follows (.inside :: below) _ _ _ := hcloses.follows hinside hc
    exact hfollows.behind (List.suffix_cons _ _) (hblame.trans (if_neg hclosed))

theorem container_declines (h : next (fun t => t = .openBrace) ts = false) :
    Declines (container expr) ts :=
  (Declines.token h).bind

end Groups

/-! ### Attributes -/

section Attributes

variable {expr : Reader Expr} {isNamed : Bool} {span : Span}

/-- The second part of the name of an attribute, if it has one. -/
theorem second_follows : Follows (.maybe .attr (.items isNamed) :: below)
    (fun _ => .maybe .value (.items isNamed) :: below) ts (optional (do
      let _ ← token .colon
      word) ts) := by
  cases h : next (fun t => t = .colon) ts with
  | true =>
      obtain ⟨span, us, rfl⟩ := exists_of_next h
      have hstep : Symbols.step (.maybe .attr (.items isNamed) :: below) .colon =
          some (.word :: .maybe .value (.items isNamed) :: below) := rfl
      have hword : Follows (.maybe .attr (.items isNamed) :: below)
          (fun _ => .maybe .value (.items isNamed) :: below) (⟨.colon, span⟩ :: us) ((do
            let _ ← token .colon
            word) (⟨.colon, span⟩ :: us)) := by
        rw [token_bind_cons]
        exact word_follows.behind (List.suffix_cons _ _) (blame_of_step hstep fun _ => by simp)
      exact hword.optional (fun _ => rfl) fun _ => blame_of_next rfl
  | false =>
      refine (Declines.token h).bind.optional ?_
      rcases ts with _ | ⟨⟨t, span⟩, us⟩
      · rfl
      · refine blame_congr ?_ rfl
        cases t with
        | colon => simp at h
        | _ => rfl

theorem spread_follows : Follows (.items isNamed :: below) (fun _ => .items isNamed :: below)
    (⟨.openBrace, span⟩ :: us) (spread (⟨.openBrace, span⟩ :: us)) := by
  have hstep : Symbols.step (.items isNamed :: below) .openBrace =
      some (.exactly .spread :: .inside :: .items isNamed :: below) := rfl
  rw [spread, token_bind_cons]
  exact .behind (.bind .token fun _ _ _ => skipped_follows) (List.suffix_cons _ _)
    (blame_of_step hstep fun h => by cases h)

theorem tagItem_declines (h : next Token.startsItem ts = false) : Declines (tagItem expr) ts := by
  refine .orElse (word_declines ?_).bind.bind (Declines.token (next_of_kind rfl h)).bind.bind
  refine next_of_imp (fun t ht => ?_) h
  cases t with
  | word => rfl
  | _ => cases ht

variable (hexpr : ReadsExpressions expr)
include hexpr

theorem attributeValue_follows :
    Follows (.value :: below) (fun _ => below) ts (attributeValue expr ts) := by
  rcases ts with _ | ⟨⟨t, span⟩, us⟩
  · exact Declines.follows (.orElse (Declines.accept rfl).bind (container_declines rfl).bind) rfl
  · cases t with
    | quoted value =>
        have hread : attributeValue expr (⟨.quoted value, span⟩ :: us) =
            ⟨some (.quoted value span, us), none⟩ := rfl
        exact .reads hread (List.suffix_cons _ _) (blame_of_step rfl fun _ => by simp) nofun
    | openBrace =>
        exact .orElse_right (Declines.accept rfl).bind
          (.map (container_follows hexpr rfl rfl) fun _ => rfl)
    | _ =>
        exact Declines.follows (.orElse (Declines.accept rfl).bind (container_declines rfl).bind)
          (blame_of_next rfl)

/-- The value of an attribute, if it has one. -/
theorem value_follows : Follows (.maybe .value (.items isNamed) :: below)
    (fun _ => .items isNamed :: below) ts (optional (do
      let _ ← token .equals
      attributeValue expr) ts) := by
  cases h : next (fun t => t = .equals) ts with
  | true =>
      obtain ⟨span, us, rfl⟩ := exists_of_next h
      have hstep : Symbols.step (.maybe .value (.items isNamed) :: below) .equals =
          some (.value :: .items isNamed :: below) := rfl
      have hvalue : Follows (.maybe .value (.items isNamed) :: below)
          (fun _ => .items isNamed :: below) (⟨.equals, span⟩ :: us) ((do
            let _ ← token .equals
            attributeValue expr) (⟨.equals, span⟩ :: us)) := by
        rw [token_bind_cons]
        exact (attributeValue_follows hexpr).behind (List.suffix_cons _ _)
          (blame_of_step hstep fun _ => by simp)
      exact hvalue.optional (fun _ => rfl) fun _ => blame_of_next rfl
  | false =>
      refine (Declines.token h).bind.optional (blame_maybe (next_of_imp (fun t ht => ?_) h) rfl)
      cases t with
      | equals => rfl
      | _ => cases ht

theorem writtenAttribute_follows {text : String} :
    Follows (.items isNamed :: below) (fun _ => .items isNamed :: below) (⟨.word text, span⟩ :: us)
      (writtenAttribute expr (⟨.word text, span⟩ :: us)) := by
  have hstep : Symbols.step (.items isNamed :: below) (.word text) =
      some (.maybe .attr (.items isNamed) :: below) := rfl
  rw [writtenAttribute, word_bind_cons]
  refine .behind (.bind second_follows fun second _ _ =>
    .bind (value_follows hexpr) fun value _ _ => ?_)
      (List.suffix_cons _ _) (blame_of_step hstep fun _ => by simp)
  exact @Follows.pure Attribute (fun _ => .items isNamed :: below) _ _

theorem tagItem_follows (h : next Token.startsItem ts = true) :
    Follows (.items isNamed :: below) (fun _ => .items isNamed :: below) ts (tagItem expr ts) := by
  rcases ts with _ | ⟨⟨t, span⟩, us⟩
  · cases h
  · cases t with
    | word text =>
        exact .orElse_left (.map (writtenAttribute_follows hexpr) fun _ => rfl)
          (Declines.token rfl).bind.bind
    | openBrace =>
        exact .orElse_right (word_declines rfl).bind.bind (.map spread_follows fun _ => rfl)
    | _ => cases h

end Attributes

/-! ### Elements -/

/-- A reader that never takes nothing leaves fewer lexemes. -/
theorem Reader.Takes.length_lt {α : Type} {p : Reader α} {P : List Lexeme → α → Prop}
    (hp : p.Takes P) (hne : ∀ used a, P used a → used.map Lexeme.token ≠ []) {a : α}
    {rest : List Lexeme} (h : p.Reads ts a rest) : rest.length < ts.length := by
  obtain ⟨used, rfl, hused⟩ := hp h
  have hpos := length_pos_of_tokens (hne used a hused)
  rw [List.length_append]
  omega

theorem Declines.fails {α : Type} {p : Reader α} (h : Declines p ts) : p.Fails ts := by
  obtain ⟨f, hf, -⟩ := h
  rw [Fails, hf]

/-- The tokens with which a child of an element begins, or the closing tag. -/
def Token.startsChild : Token → Bool
  | .prose _ | .openBrace | .less => true
  | _ => false

/-- What is asked of the reader of nested elements.  It follows the stack on lists up to a
length. -/
structure ReadsElements (element : Reader Element) (bound : Nat) : Prop where
  takes : element.Takes fun used e => Derives used (.element e)
  declines : ∀ ts : List Lexeme, next (fun t => t = .less) ts = false → Declines element ts
  closing : ∀ left slash us, ∃ f, element (⟨.less, left⟩ :: ⟨.slash, slash⟩ :: us) =
    ⟨none, some f⟩ ∧ f.rest <:+ ⟨.less, left⟩ :: ⟨.slash, slash⟩ :: us ∧ us.length < f.rest.length
  follows : ∀ left us (below : Symbols), us.length < bound →
    Follows (.opening :: below) (fun _ => below) us (element (⟨.less, left⟩ :: us))

section Closing

variable {tag : Tag} {children : List Child} {left slash : Span}

/-- The closing tag behind its slash. -/
theorem elementClosing_eq : elementClosing tag children (⟨.less, left⟩ :: ⟨.slash, slash⟩ :: us) =
    (do
      let written ← optional name
      let right ← token .greater
      if tag.name = written.getD .fragment then
        return Element.pair tag children ⟨left.start, right.stop⟩
      else
        refuse (.mismatch tag.name (written.getD .fragment)
          ⟨left.start, max left.start right.stop⟩)) us := by
  rw [elementClosing, closingTag, bind_assoc, token_bind_cons, bind_assoc, token_bind_cons]
  simp only [bind_assoc, pure_bind]

theorem elementClosing_follows : Follows (.closing :: below) (fun _ => below) us
    (elementClosing tag children (⟨.less, left⟩ :: ⟨.slash, slash⟩ :: us)) := by
  have hname : Follows (.closing :: below) (fun _ => .exactly .greater :: below) us
      (optional name us) := by
    refine optional_name_follows rfl rfl rfl (fun _ => rfl) (fun _ => rfl) fun h => ?_
    rcases us with _ | ⟨⟨t, span⟩, us⟩
    · rfl
    · refine blame_congr ?_ rfl
      cases t with
      | word => cases h
      | _ => rfl
  rw [elementClosing_eq]
  refine hname.bind fun written rest _ => ?_
  cases h : next (fun t => t = .greater) rest with
  | false =>
      refine (Declines.token h).bind.follows (blame_of_next (next_of_imp (fun t ht => ?_) h))
      simpa [Symbols.step, Symbol.after, Option.isSome_iff_exists] using ht
  | true =>
      obtain ⟨right, rest, rfl⟩ := exists_of_next h
      have hstep : Symbols.step (.exactly .greater :: below) .greater = some below := rfl
      have hblame : blame (.exactly .greater :: below) (⟨.greater, right⟩ :: rest) =
          blame below rest := blame_of_step hstep fun _ => by simp
      rw [token_bind_cons]
      split
      · exact Follows.behind .pure (List.suffix_cons _ _) hblame
      · -- the names differ, which is told behind the tag
        refine .fails rfl (.mismatch (by simp) (List.suffix_cons _ _) (Nat.lt_succ_self _) ?_)
        rw [hblame]
        exact blame_length_le

/-- Where no closing tag begins, one is missed at once. -/
theorem elementClosing_fails (h : ∀ left slash us, ts ≠ ⟨.less, left⟩ :: ⟨.slash, slash⟩ :: us) :
    ∃ g, elementClosing tag children ts = ⟨none, some g⟩ ∧ ts.length ≤ g.rest.length + 1 := by
  rw [elementClosing, closingTag, bind_assoc]
  cases hless : next (fun t => t = .less) ts with
  | false => exact ⟨_, token_bind_of_next hless, by simp⟩
  | true =>
      obtain ⟨left, us, rfl⟩ := exists_of_next hless
      rw [token_bind_cons, bind_assoc]
      cases hslash : next (fun t => t = .slash) us with
      | false => exact ⟨_, token_bind_of_next hslash, by simp⟩
      | true =>
          obtain ⟨slash, us, rfl⟩ := exists_of_next hslash
          exact absurd rfl (h left slash us)

theorem elementClosing_declines (h : next (fun t => t = .less) ts = false) :
    Declines (elementClosing tag children) ts :=
  (Declines.token h).bind.bind

end Closing

section Children

variable {element : Reader Element} {expr : Reader Expr} {bound : Nat}
  (helement : ReadsElements element bound)
include helement

theorem child_declines (h : next Token.startsChild ts = false) :
    Declines (child element expr) ts := by
  refine .orElse (helement.declines ts (next_of_kind rfl h)).bind
    (.orElse (container_declines (next_of_kind rfl h)).bind (Declines.accept ?_).bind)
  refine next_of_imp (fun t ht => ?_) h
  cases t with
  | prose => rfl
  | _ => cases ht

variable (hexpr : ReadsExpressions expr)
include hexpr

theorem child_follows (h : next Token.startsChild ts = true)
    (hclosing : ∀ left slash us, ts ≠ ⟨.less, left⟩ :: ⟨.slash, slash⟩ :: us)
    (hlength : ts.length ≤ bound) :
    Follows (.children :: below) (fun _ => .children :: below) ts (child element expr ts) := by
  rcases ts with _ | ⟨⟨t, span⟩, us⟩
  · cases h
  · cases t with
    | less =>
        have hstep : Symbols.step (.children :: below) .less = some (.less :: below) := rfl
        have hless : blame (.less :: below) us = blame (.opening :: .children :: below) us := by
          rcases us with _ | ⟨⟨u, slash⟩, us⟩
          · rfl
          · refine blame_congr (Symbols.step_less ?_) rfl
            rintro rfl
            exact hclosing span slash us rfl
        have helem : Follows (.children :: below) (fun _ => .children :: below)
            (⟨.less, span⟩ :: us) (element (⟨.less, span⟩ :: us)) :=
          (helement.follows span us _ hlength).behind (List.suffix_cons _ _)
            ((blame_of_step hstep fun _ => by simp).trans hless)
        have hdeclines : Declines (container expr) (⟨.less, span⟩ :: us) := container_declines rfl
        exact .orElse_left (.map helem fun _ => rfl)
          (.orElse hdeclines.bind (Declines.accept rfl).bind)
    | openBrace =>
        refine .orElse_right (helement.declines _ rfl).bind ?_
        exact .orElse_left (.map (container_follows hexpr rfl rfl) fun _ => rfl)
          (Declines.accept rfl).bind
    | prose text =>
        refine .orElse_right (helement.declines _ rfl).bind (.orElse_right
          (container_declines rfl).bind ?_)
        exact .reads rfl (List.suffix_cons _ _) (blame_of_step rfl fun _ => by simp) nofun
    | _ => cases h

omit hexpr in
/-- Where a closing tag begins, the reader of children gives up within that tag. -/
theorem child_closing (expr : Reader Expr) (left slash : Span) (us : List Lexeme) : ∃ f,
    child element expr (⟨.less, left⟩ :: ⟨.slash, slash⟩ :: us) = ⟨none, some f⟩ ∧
      f.rest <:+ ⟨.less, left⟩ :: ⟨.slash, slash⟩ :: us ∧ us.length < f.rest.length := by
  obtain ⟨f, hf, hsuffix, hlt⟩ := helement.closing left slash us
  have hdeclines : Declines (container expr) (⟨.less, left⟩ :: ⟨.slash, slash⟩ :: us) :=
    container_declines rfl
  exact ⟨f, Declines.orElse_eq (.orElse hdeclines.bind (Declines.accept rfl).bind)
    (bind_of_fails hf) hsuffix, hsuffix, hlt⟩

/-- Children, and the closing tag after them. -/
theorem children_follow {tag : Tag} (hlength : ts.length ≤ bound) :
    Follows (.children :: below) (fun _ => below) ts
      ((many (child element expr) >>= fun children => elementClosing tag children) ts) := by
  refine .many_bind (fun us c rest hle hread => ?_) fun us children hle hfails => ?_
  · refine ⟨(child_takes helement.takes hexpr.takes).length_lt (fun used c hused =>
      hused.isForm.ne_nil) hread, child_follows helement hexpr ?_ ?_ (by omega)⟩
    · by_contra hnext
      have hdeclines : Declines (child element expr) us :=
        child_declines helement (by simpa using hnext)
      exact fails_iff_forall.1 hdeclines.fails c rest hread
    · rintro left slash vs rfl
      obtain ⟨f, hf, -⟩ := child_closing helement expr left slash vs
      rw [Reads, hf] at hread
      cases hread
  · by_cases hclosing : ∀ left slash vs, us ≠ ⟨.less, left⟩ :: ⟨.slash, slash⟩ :: vs
    · cases hnext : next Token.startsChild us with
      | true =>
          obtain ⟨g, hg, hgle⟩ := elementClosing_fails hclosing
          have hchild := @child_follows below us _ _ _ helement hexpr hnext hclosing (by omega)
          refine hchild.after_fails hfails ?_ hg hgle
          rcases us with _ | ⟨⟨t, span⟩, vs⟩
          · cases hnext
          · refine blame_length_lt ?_
            cases t with
            | less | openBrace | prose => rfl
            | _ => cases hnext
      | false =>
          have hdeclines : Declines (elementClosing tag children) us :=
            elementClosing_declines (next_of_kind rfl hnext)
          refine .after_declines (child_declines helement hnext) (hdeclines.follows ?_)
          refine blame_of_next (next_of_imp (fun t ht => ?_) hnext)
          cases t with
          | less | openBrace | prose => rfl
          | _ => cases ht
    · -- here the reader of children has got behind the `<`, and the closing tag goes further
      simp only [ne_eq, not_forall, not_not] at hclosing
      obtain ⟨left, slash, vs, rfl⟩ := hclosing
      obtain ⟨f, hf, hsuffix, hlt⟩ := child_closing helement expr left slash vs
      have hless : Symbols.step (.children :: below) .less = some (.less :: below) := rfl
      have hslash : Symbols.step (.less :: below) .slash = some (.closing :: below) := rfl
      have hblame : blame (.children :: below) (⟨.less, left⟩ :: ⟨.slash, slash⟩ :: vs) =
          blame (.closing :: below) vs :=
        (blame_of_step hless fun _ => by simp).trans (blame_of_step hslash fun _ => by simp)
      rw [hf]
      exact elementClosing_follows.beyond ⟨[_, _], rfl⟩ hblame fun g hg => by
        cases hg
        exact Or.inl ⟨hsuffix, Nat.le_of_lt hlt⟩

end Children

section Tags

variable {element : Reader Element} {expr : Reader Expr} {left : Span} {written : Option Name}
  {items : List TagItem}

theorem tagSelfClosing_declines (h : written = none ∨ next (fun t => t = .slash) ts = false) :
    Declines (tagSelfClosing left written items) ts := by
  cases written with
  | none => exact Declines.refuse.bind
  | some n => exact (Declines.token (by simpa using h)).bind

theorem tagSelfClosing_follows {n : Name} {slash : Span} :
    Follows (.items true :: below) (fun _ => below) (⟨.slash, slash⟩ :: us)
      (tagSelfClosing left (some n) items (⟨.slash, slash⟩ :: us)) := by
  have hstep : Symbols.step (.items true :: below) .slash = some (.exactly .greater :: below) := rfl
  have hgreater : Follows (.exactly .greater :: below) (fun _ => below) us
      ((token .greater >>= fun right => pure (Element.single ⟨n, items, ⟨left.start, right.stop⟩⟩))
        us) := Follows.token.map fun _ => rfl
  have hfollows := hgreater.behind (List.suffix_cons ⟨.slash, slash⟩ us)
    (blame_of_step hstep fun _ => by simp)
  have htag : tagSelfClosing left (some n) items = (token .slash >>= fun _ =>
      token .greater >>= fun right =>
        pure (Element.single ⟨n, items, ⟨left.start, right.stop⟩⟩)) := rfl
  rwa [htag, token_bind_cons]

theorem tagOpening_declines (h : next (fun t => t = .greater) ts = false) :
    Declines (tagOpening element expr left written items) ts :=
  (Declines.token h).bind

/-- Where another attribute could come, a tag does not end. -/
theorem tagEnd_declines (h : next Token.startsItem ts = true) :
    Declines (tagSelfClosing left written items <|> tagOpening element expr left written items)
      ts := by
  rcases ts with _ | ⟨⟨t, span⟩, us⟩
  · cases h
  · cases t with
    | word | openBrace =>
        exact .orElse (tagSelfClosing_declines (Or.inr rfl)) (tagOpening_declines rfl)
    | _ => cases h

variable {bound : Nat} (helement : ReadsElements element bound) (hexpr : ReadsExpressions expr)
include helement hexpr

theorem tagOpening_follows {isNamed : Bool} {right : Span} (hlength : us.length ≤ bound) :
    Follows (.items isNamed :: below) (fun _ => below) (⟨.greater, right⟩ :: us)
      (tagOpening element expr left written items (⟨.greater, right⟩ :: us)) := by
  have hstep : Symbols.step (.items isNamed :: below) .greater = some (.children :: below) := by
    cases isNamed <;> rfl
  rw [tagOpening, token_bind_cons]
  exact (children_follow helement hexpr hlength).behind (List.suffix_cons _ _)
    (blame_of_step hstep fun _ => by simp)

/-- The end of the first tag of an element, with all that follows it in the element. -/
theorem tagEnd_follows (hlength : ts.length ≤ bound) (hnext : next Token.startsItem ts = false) :
    Follows (.items written.isSome :: below) (fun _ => below) ts
      ((tagSelfClosing left written items <|> tagOpening element expr left written items) ts) := by
  rcases ts with _ | ⟨⟨t, span⟩, us⟩
  · exact (Declines.orElse (tagSelfClosing_declines (Or.inr rfl)) (tagOpening_declines rfl)).follows
      rfl
  · rw [List.length_cons] at hlength
    cases t with
    | slash =>
        cases written with
        | none =>
            exact (Declines.orElse (tagSelfClosing_declines (Or.inl rfl))
              (tagOpening_declines rfl)).follows (blame_of_next rfl)
        | some n => exact .orElse_left tagSelfClosing_follows (tagOpening_declines rfl)
    | greater =>
        exact .orElse_right (tagSelfClosing_declines (Or.inr rfl))
          (tagOpening_follows helement hexpr (by omega))
    | word | openBrace => cases hnext
    | _ =>
        exact (Declines.orElse (tagSelfClosing_declines (Or.inr rfl))
          (tagOpening_declines rfl)).follows (blame_of_next rfl)

theorem elementAfterName_follows (hlength : ts.length ≤ bound) :
    Follows (.items written.isSome :: below) (fun _ => below) ts
      (elementAfterName element expr left written ts) := by
  refine .many_bind (fun us item rest hle hread => ?_) fun us items hle hfails => ?_
  · refine ⟨(tagItem_takes hexpr.takes).length_lt (fun used item hused => ?_) hread,
      tagItem_follows hexpr ?_⟩
    · obtain ⟨t, rest, ht, -⟩ := hused.isForm.exists_starts
      simp [ht]
    · by_contra hnext
      exact fails_iff_forall.1 (tagItem_declines (by simpa using hnext)).fails item rest hread
  · cases hnext : next Token.startsItem us with
    | true =>
        obtain ⟨g, hg, hrest⟩ : Declines _ us := tagEnd_declines hnext
        refine (tagItem_follows hexpr hnext).after_fails hfails ?_ hg (by rw [hrest]; omega)
        rcases us with _ | ⟨⟨t, span⟩, vs⟩
        · cases hnext
        · refine blame_length_lt ?_
          cases t with
          | word | openBrace => rfl
          | _ => cases hnext
    | false =>
        exact .after_declines (tagItem_declines hnext)
          (tagEnd_follows helement hexpr (by omega) hnext)

/-- An element behind its `<`. -/
theorem elementWith_follows (hlength : ts.length ≤ bound) :
    Follows (.opening :: below) (fun _ => below) ts
      (elementWith element expr (⟨.less, left⟩ :: ts)) := by
  have hname : Follows (.opening :: below) (fun written => .items written.isSome :: below) ts
      (optional name ts) := by
    refine optional_name_follows rfl rfl rfl (fun _ => rfl) (fun _ => rfl) fun h => ?_
    rcases ts with _ | ⟨⟨t, span⟩, us⟩
    · rfl
    · refine blame_congr ?_ rfl
      cases t with
      | word => cases h
      | _ => rfl
  rw [elementWith_eq, token_bind_cons]
  refine hname.bind fun written rest hread => elementAfterName_follows helement hexpr ?_
  obtain ⟨used, rfl, -⟩ := optional_name_takes hread
  rw [List.length_append] at hlength
  omega

omit helement hexpr in
/-- A closing tag is no element. -/
theorem elementWith_closing (left slash : Span) (us : List Lexeme) : ∃ f,
    elementWith element expr (⟨.less, left⟩ :: ⟨.slash, slash⟩ :: us) = ⟨none, some f⟩ ∧
      f.rest <:+ ⟨.less, left⟩ :: ⟨.slash, slash⟩ :: us ∧ us.length < f.rest.length := by
  have hname : Declines name (⟨.slash, slash⟩ :: us) := (word_declines rfl).bind
  have hend : Declines (tagSelfClosing left none [] <|> tagOpening element expr left none [])
      (⟨.slash, slash⟩ :: us) :=
    .orElse (tagSelfClosing_declines (Or.inl rfl)) (tagOpening_declines rfl)
  have hafter : Declines (elementAfterName element expr left none) (⟨.slash, slash⟩ :: us) :=
    .many_bind (tagItem_declines rfl) hend
  obtain ⟨f, hf, hrest⟩ := hname.optional_bind hafter
  refine ⟨f, ?_, by rw [hrest]; exact List.suffix_cons _ _, by simp [hrest]⟩
  rw [elementWith_eq, token_bind_cons]
  exact hf

end Tags

/-! ### Documents -/

theorem readsExpressions_to (depth : Nat) : ReadsExpressions (exprTo depth) :=
  ⟨(takes_to depth).2, (keeps_to depth).2⟩

/-- Elements are read as the stack says if there are fewer lexemes than levels of nesting. -/
theorem readsElements_to (depth : Nat) : ReadsElements (elementTo depth) depth := by
  induction depth with
  | zero =>
      refine ⟨(takes_to 0).1, fun _ _ => .refuse, fun left slash us => ?_, fun _ _ _ h => ?_⟩
      · exact ⟨_, rfl, List.suffix_rfl, by simp only [List.length_cons]; omega⟩
      · exact absurd h (Nat.not_lt_zero _)
  | succ depth ih =>
      refine ⟨(takes_to (depth + 1)).1, fun _ h => (Declines.token h).bind, elementWith_closing,
        fun left us below h => ?_⟩
      exact elementWith_follows ih (readsExpressions_to depth) (Nat.le_of_lt_succ h)

/-- The reader of documents follows the stack from where nothing has to come. -/
theorem follows_document (ts : List Lexeme) : Follows [] (fun _ => []) ts (document ts) := by
  have helement := readsElements_to (ts.length + 1)
  have hfollows {us : List Lexeme} (hle : us.length ≤ ts.length)
      (hnext : next (fun t => t = .less) us = true) :
      Follows [] (fun _ => []) us (elementTo (ts.length + 1) us) := by
    obtain ⟨left, vs, rfl⟩ := exists_of_next hnext
    have hstep : Symbols.step [] .less = some [.opening] := rfl
    rw [List.length_cons] at hle
    exact (helement.follows left vs [] (by omega)).behind (List.suffix_cons _ _)
      (blame_of_step hstep fun _ => by simp)
  refine .many_bind (fun us e rest hle hread => ?_) fun us elements hle hfails => ?_
  · refine ⟨helement.takes.length_lt (fun used e hused => hused.isForm.ne_nil) hread,
      hfollows hle ?_⟩
    by_contra hnext
    exact fails_iff_forall.1 (helement.declines us (by simpa using hnext)).fails e rest hread
  · cases hnext : next (fun t => t = .less) us with
    | true =>
        obtain ⟨left, vs, rfl⟩ := exists_of_next hnext
        have hend : (atEnd >>= fun _ => pure (Document.mk elements)) (⟨.less, left⟩ :: vs) =
            ⟨none, some ⟨⟨.less, left⟩ :: vs, .unexpected⟩⟩ := bind_of_fails rfl
        exact (hfollows hle hnext).after_fails hfails (blame_length_lt rfl) hend (by simp)
    | false =>
        refine .after_declines (helement.declines us hnext) ?_
        cases us with
        | nil => exact .reads rfl List.suffix_rfl rfl nofun
        | cons t vs =>
            have hend : Declines (atEnd >>= fun _ => pure (Document.mk elements)) (t :: vs) :=
              Declines.bind ⟨_, rfl, rfl⟩
            refine hend.follows (blame_of_next ?_)
            rw [next_cons] at hnext ⊢
            simpa [Symbols.step_nil] using hnext

end RoleAudit.Markup
