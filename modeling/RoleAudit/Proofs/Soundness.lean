import RoleAudit.Proofs.Derivation

/-!
# Whatever is read is derived

Each reader of the grammar takes lexemes that write the tree it returns, whatever the readers of
the elements and expressions nested in it are, as long as these do so.  The depth of nesting then
ties the knot.

Main statements: `takes_to`, for elements and expressions at every depth, and
`derives_of_reads_document`.
-/

namespace RoleAudit.Markup

open RoleAudit.Text (Span)
open Reader Grammar

@[simp] theorem reads_word {ts rest : List Lexeme} {read : String × Span} :
    word.Reads ts read rest ↔ ts = ⟨.word read.1, read.2⟩ :: rest := by
  unfold word
  simp only [reads_accept]
  constructor
  · rintro ⟨t, ht, rfl⟩
    cases t <;> simp_all
  · rintro rfl
    exact ⟨_, rfl, rfl⟩

/-! ### Expressions -/

theorem literal_takes : literal.Takes fun used e => Derives used (.expr .primary e) := by
  intro ts e rest h
  simp only [literal, reads_bind, reads_accept, reads_pure] at h
  obtain ⟨⟨e, span⟩, _, ⟨t, ht, rfl⟩, rfl, rfl⟩ := h
  exact ⟨[⟨t, span⟩], rfl, .literal ht⟩

theorem joined_takes {operand : Reader Expr} {join? : Token → Option (Expr → Expr → Expr)}
    {l : Level} (hoperand : operand.Takes fun used e => Derives used (.expr l e)) :
    (joined operand join?).Takes fun used next => ∃ t span us, used = ⟨t, span⟩ :: us ∧
      join? t = some next.1 ∧ Derives us (.expr l next.2) := by
  intro ts next rest h
  simp only [joined, reads_bind, reads_accept, reads_pure] at h
  obtain ⟨⟨join, span⟩, _, ⟨t, ht, rfl⟩, right, _, hright, rfl, rfl⟩ := h
  obtain ⟨us, rfl, hus⟩ := hoperand hright
  exact ⟨⟨t, span⟩ :: us, rfl, t, span, us, rfl, ht, hus⟩

/-- Operands of the next tighter level, joined by the operators of a level. -/
theorem level_takes {operand : Reader Expr} {l : Level}
    (hoperand : operand.Takes fun used e => Derives used (.expr l.tighter e)) :
    (level operand l.join?).Takes fun used e => Derives used (.expr l e) := by
  intro ts e rest h
  simp only [level, reads_bind, reads_pure] at h
  obtain ⟨first, mid, hfirst, others, _, hothers, rfl, rfl⟩ := h
  obtain ⟨us, rfl, hus⟩ := hoperand hfirst
  obtain ⟨vs, rfl, hvs⟩ := (joined_takes hoperand).foldl
    (P := fun used e => Derives used (.expr l e)) (f := fun left next => next.1 left next.2) (by
      rintro us _ left ⟨join, right⟩ hleft ⟨t, span, vs, rfl, ht, hright⟩
      exact .joined ht hleft hright) hothers (.tighter hus)
  exact ⟨us ++ vs, by simp, hvs⟩

section Calls

variable {expr : Reader Expr} (hexpr : expr.Takes fun used e => Derives used (.expr .full e))
include hexpr

/-- Arguments after the first, up to a comma that may follow the last. -/
theorem furtherArguments_takes :
    (many do
      let _ ← token .comma
      expr).Takes fun used others => ∀ us, Derives us (.furtherArguments []) →
        Derives (used ++ us) (.furtherArguments others) := by
  have hnext : Reader.Takes (do
      let _ ← token .comma
      expr) fun used e => ∃ comma us,
        used = ⟨.comma, comma⟩ :: us ∧ Derives us (.expr .full e) := by
    intro ts e rest h
    simp only [reads_bind, reads_token] at h
    obtain ⟨comma, mid, rfl, he⟩ := h
    obtain ⟨used, rfl, hused⟩ := hexpr he
    exact ⟨⟨.comma, comma⟩ :: used, rfl, comma, used, rfl, hused⟩
  refine hnext.many (fun us hus => hus) ?_
  rintro _ vs next others ⟨comma, us, rfl, hus⟩ hvs ws hws
  simpa using Written.furtherArgument hus (hvs ws hws)

theorem arguments_takes :
    (arguments expr).Takes fun used all => ∃ left right us,
      used = ⟨.openParen, left⟩ :: (us ++ [⟨.closeParen, right⟩]) ∧
        Derives us (.arguments all) := by
  intro ts all rest h
  simp only [arguments, reads_bind, reads_token] at h
  obtain ⟨left, mid, rfl, first, mid', hoptional, hall⟩ := h
  rcases reads_optional.1 hoptional with ⟨first, rfl, hfirst⟩ | ⟨rfl, rfl, -⟩
  · simp only [reads_bind, reads_pure, reads_token] at hall
    obtain ⟨others, mid, hothers, comma, mid', hcomma, _, _, ⟨rfl, rfl⟩, right, _, rfl, rfl, rfl⟩ :=
      hall
    obtain ⟨us, rfl, hus⟩ := hexpr hfirst
    obtain ⟨vs, rfl, hvs⟩ := furtherArguments_takes hexpr hothers
    -- the comma that may follow the last argument
    have hlast : ∃ ws, mid = ws ++ ⟨.closeParen, right⟩ :: rest ∧
        Derives ws (.furtherArguments []) := by
      rcases reads_optional.1 hcomma with ⟨span, -, hspan⟩ | ⟨-, rfl, -⟩
      · exact ⟨[⟨.comma, span⟩], reads_token.1 hspan, .trailingComma⟩
      · exact ⟨[], rfl, .lastArgument⟩
    obtain ⟨ws, rfl, hws⟩ := hlast
    refine ⟨⟨.openParen, left⟩ :: ((us ++ (vs ++ ws)) ++ [⟨.closeParen, right⟩]), by simp,
      left, right, _, rfl, .arguments hus (hvs ws hws)⟩
  · simp only [reads_bind, reads_pure, reads_token] at hall
    obtain ⟨_, _, ⟨rfl, rfl⟩, right, _, rfl, rfl, rfl⟩ := hall
    exact ⟨[⟨.openParen, left⟩, ⟨.closeParen, right⟩], rfl, left, right, [], rfl, .noArguments⟩

theorem suffix_takes :
    (suffix expr).Takes fun used apply => ∀ ts object, Derives ts (.expr .suffixed object) →
      Derives (ts ++ used) (.expr .suffixed (apply object)) := by
  intro ts apply rest h
  simp only [suffix, reads_orElse, reads_bind, reads_token, reads_word, reads_pure] at h
  rcases h with ⟨dot, mid, rfl, ⟨name, span⟩, mid', rfl, rfl, rfl⟩ | ⟨-, all, mid, hall, rfl, rfl⟩
  · exact ⟨[⟨.dot, dot⟩, ⟨.word name, span⟩], rfl, fun ts object h => .member h⟩
  · obtain ⟨used, rfl, left, right, us, rfl, hus⟩ := arguments_takes hexpr hall
    exact ⟨_, rfl, fun ts object h => .call h hus⟩

end Calls

section Levels

variable {element : Reader Element} {expr : Reader Expr}
  (helement : element.Takes fun used e => Derives used (.element e))
  (hexpr : expr.Takes fun used e => Derives used (.expr .full e))
include helement hexpr

theorem atom_takes :
    (atom element expr).Takes fun used e => Derives used (.expr .primary e) := by
  intro ts e rest h
  simp only [atom, reads_orElse, reads_bind, reads_token, reads_pure] at h
  rcases h with hliteral | ⟨-, ⟨left, mid, rfl, inner, mid', hinner, right, mid'', rfl, rfl, rfl⟩ |
    ⟨-, nested, mid, hnested, rfl, rfl⟩⟩
  · exact literal_takes hliteral
  · obtain ⟨used, rfl, hused⟩ := hexpr hinner
    exact ⟨⟨.openParen, left⟩ :: (used ++ [⟨.closeParen, right⟩]), by simp, .grouped hused⟩
  · obtain ⟨used, rfl, hused⟩ := helement hnested
    exact ⟨used, rfl, .nested hused⟩

theorem postfixed_takes :
    (postfixed element expr).Takes fun used e => Derives used (.expr .suffixed e) := by
  intro ts e rest h
  simp only [postfixed, reads_bind, reads_pure] at h
  obtain ⟨first, mid, hfirst, suffixes, _, hsuffixes, rfl, rfl⟩ := h
  obtain ⟨us, rfl, hus⟩ := atom_takes helement hexpr hfirst
  obtain ⟨vs, rfl, hvs⟩ := (suffix_takes hexpr).foldl
    (P := fun used e => Derives used (.expr .suffixed e))
    (f := fun object apply => apply object) (fun _ _ _ _ ha hb => hb _ _ ha) hsuffixes
    (.tighter hus)
  exact ⟨us ++ vs, by simp, hvs⟩

theorem unary_takes :
    (unary element expr).Takes fun used e => Derives used (.expr .prefixed e) := by
  have hop : unaryOp.Takes fun used op => ∃ t span, used = [⟨t, span⟩] ∧ unaryOp? t = some op := by
    intro ts op rest h
    simp only [unaryOp, reads_bind, reads_accept, reads_pure] at h
    obtain ⟨⟨op, span⟩, _, ⟨t, ht, rfl⟩, rfl, rfl⟩ := h
    exact ⟨[⟨t, span⟩], rfl, t, span, rfl, ht⟩
  -- the operators are put before an operand that is read after all of them
  have hops : (many unaryOp).Takes fun used ops => ∀ us e, Derives us (.expr .prefixed e) →
      Derives (used ++ us) (.expr .prefixed (ops.foldr Expr.unary e)) := by
    refine hop.many (fun us e h => h) ?_
    rintro _ vs op ops ⟨t, span, rfl, ht⟩ hvs us e h
    exact .unary ht (hvs us e h)
  intro ts e rest h
  simp only [unary, reads_bind, reads_pure] at h
  obtain ⟨ops, mid, hops', operand, _, hoperand, rfl, rfl⟩ := h
  obtain ⟨us, rfl, hus⟩ := hops hops'
  obtain ⟨vs, rfl, hvs⟩ := postfixed_takes helement hexpr hoperand
  exact ⟨us ++ vs, by simp, hus vs operand (.tighter hvs)⟩

theorem disjunction_takes :
    (disjunction element expr).Takes fun used e => Derives used (.expr .disjunction e) :=
  level_takes (l := .disjunction) <| level_takes (l := .conjunction) <|
    level_takes (l := .comparison) <| level_takes (l := .sum) <| unary_takes helement hexpr

theorem exprWith_takes :
    (exprWith element expr).Takes fun used e => Derives used (.expr .full e) := by
  intro ts e rest h
  simp only [exprWith, reads_bind] at h
  obtain ⟨test, mid, htest, branches, mid', hbranches, he⟩ := h
  obtain ⟨us, rfl, hus⟩ := disjunction_takes helement hexpr htest
  rcases reads_optional.1 hbranches with ⟨⟨yes, no⟩, rfl, hboth⟩ | ⟨rfl, rfl, -⟩
  · simp only [reads_bind, reads_token, reads_pure] at hboth he
    obtain ⟨question, _, rfl, _, _, hyes, colon, _, rfl, _, _, hno, ⟨rfl, rfl⟩, rfl⟩ := hboth
    obtain ⟨rfl, rfl⟩ := he
    obtain ⟨vs, rfl, hvs⟩ := hexpr hyes
    obtain ⟨ws, rfl, hws⟩ := hexpr hno
    exact ⟨us ++ ⟨.question, question⟩ :: (vs ++ ⟨.colon, colon⟩ :: ws), by simp,
      .conditional hus hvs hws⟩
  · obtain ⟨rfl, rfl⟩ := reads_pure.1 he
    exact ⟨us, rfl, .tighter hus⟩

end Levels

/-! ### Elements -/

/-- A name that is read is proper, and not that of a fragment. -/
theorem name_takes : name.Takes fun used n =>
    n.IsProper ∧ n ≠ .fragment ∧ used.map Lexeme.token = n.tokens := by
  have hpart : Reader.Takes (do
      let _ ← token .dot
      word) fun used part => ∃ dot, used = [⟨.dot, dot⟩, ⟨.word part.1, part.2⟩] := by
    intro ts part rest h
    simp only [reads_bind, reads_token, reads_word] at h
    obtain ⟨dot, _, rfl, rfl⟩ := h
    exact ⟨[⟨.dot, dot⟩, ⟨.word part.1, part.2⟩], rfl, dot, rfl⟩
  have hparts : Reader.Takes (many do
      let _ ← token .dot
      word) fun used parts => used.map Lexeme.token =
        (parts.map Prod.fst).flatMap fun name => [.dot, .word name] := by
    refine hpart.many rfl ?_
    rintro _ vs part parts ⟨dot, rfl⟩ hvs
    simp [hvs]
  intro ts n rest h
  simp only [name, many1, reads_bind, reads_word, reads_optional, reads_orElse, reads_token,
    reads_pure] at h
  obtain ⟨⟨first, span⟩, mid, rfl, longer, mid', hlonger, rfl, rfl⟩ := h
  -- a name in a namespace, a name with dots, or neither
  rcases hlonger with ⟨n, rfl, ⟨colon, _, rfl, ⟨second, span'⟩, _, rfl, rfl, rfl⟩ | ⟨-, h⟩⟩ |
    ⟨rfl, rfl, -⟩
  · exact ⟨[⟨.word first, span⟩, ⟨.colon, colon⟩, ⟨.word second, span'⟩], rfl, trivial,
      by simp, rfl⟩
  · obtain ⟨_, mid, ⟨part, mid', ⟨dot, _, rfl, rfl⟩, parts, _, hmore, rfl, rfl⟩, rfl, rfl⟩ := h
    obtain ⟨used, rfl, hused⟩ := hparts hmore
    refine ⟨⟨.word first, span⟩ :: ⟨.dot, dot⟩ :: ⟨.word part.1, part.2⟩ :: used, rfl, ?_, by simp,
      ?_⟩
    · simp [Name.IsProper]
    · simp [Name.tokens, hused]
  · exact ⟨[⟨.word first, span⟩], rfl, trivial, by simp, rfl⟩

/-- A name that may be missing.  Where it is, no word follows. -/
theorem optional_name_takes {ts rest : List Lexeme} {written : Option Name}
    (h : (optional name).Reads ts written rest) :
    ∃ used, ts = used ++ rest ∧ (written.getD .fragment).IsProper ∧
      used.map Lexeme.token = (written.getD .fragment).tokens ∧
      (written.isNone ↔ written.getD .fragment = .fragment) ∧
      (written = none → word.Fails rest) := by
  rcases reads_optional.1 h with ⟨n, rfl, hn⟩ | ⟨rfl, rfl, hfail⟩
  · obtain ⟨used, rfl, hproper, hne, hused⟩ := name_takes hn
    exact ⟨used, rfl, hproper, hused, by simp [hne], by simp⟩
  · refine ⟨[], rfl, trivial, rfl, by simp, fun _ => ?_⟩
    unfold name at hfail
    rcases fails_bind.1 hfail with hfail | ⟨first, mid, -, hfail⟩
    · exact hfail
    · simp at hfail

theorem closingTag_takes : closingTag.Takes fun used closing => ∃ left slash right names,
    used = ⟨.less, left⟩ :: ⟨.slash, slash⟩ :: (names ++ [⟨.greater, right⟩]) ∧
      names.map Lexeme.token = closing.1.tokens ∧ closing.2 = ⟨left.start, right.stop⟩ := by
  intro ts closing rest h
  simp only [closingTag, reads_bind, reads_token, reads_pure] at h
  obtain ⟨left, _, rfl, slash, _, rfl, written, _, hwritten, right, _, rfl, rfl, rfl⟩ := h
  obtain ⟨names, rfl, -, hnames, -, -⟩ := optional_name_takes hwritten
  exact ⟨⟨.less, left⟩ :: ⟨.slash, slash⟩ :: (names ++ [⟨.greater, right⟩]), by simp,
    left, slash, right, names, rfl, hnames, rfl⟩

/-- A tag whose first attribute is written out goes on with a word. -/
theorem Written.word_of_startsPlain {skip : List Lexeme → Prop} {ts : List Lexeme}
    {items : List TagItem} (h : Written skip ts (.items items)) (hplain : startsPlain items) :
    ∃ text span us, ts = ⟨.word text, span⟩ :: us := by
  cases h with
  | noItems => simp [startsPlain] at hplain
  | items hfirst hothers =>
      cases hfirst with
      | plain hvalue => exact ⟨_, _, _, rfl⟩
      | spaced hvalue => exact ⟨_, _, _, rfl⟩
      | spread hbalanced => simp [startsPlain] at hplain

section Tags

variable {expr : Reader Expr} (hexpr : expr.Takes fun used e => Derives used (.expr .full e))
include hexpr

theorem container_takes :
    (container expr).Takes fun used c => Derives used (.container c) := by
  intro ts c rest h
  simp only [container, content, reads_bind, reads_token, reads_orElse, reads_ahead,
    reads_pure] at h
  obtain ⟨left, mid, rfl, inner, mid', hinner, right, _, rfl, rfl, rfl⟩ := h
  -- an expression, a group that is skipped, or nothing
  rcases hinner with ⟨e, _, he, _, _, ⟨rfl, _⟩, rfl, rfl⟩ | ⟨-, ⟨_, _, hskip, rfl, rfl⟩ |
    ⟨-, rfl, rfl⟩⟩
  · obtain ⟨inside, rfl, hinside⟩ := hexpr he
    exact ⟨⟨.openBrace, left⟩ :: (inside ++ [⟨.closeBrace, right⟩]), by simp,
      .coveredBraces hinside⟩
  · obtain ⟨inside, rfl, hne, hinside⟩ := many1_balanced_takes hskip
    exact ⟨⟨.openBrace, left⟩ :: (inside ++ [⟨.closeBrace, right⟩]), by simp,
      .skippedBraces hne hinside trivial⟩
  · exact ⟨[⟨.openBrace, left⟩, ⟨.closeBrace, right⟩], rfl, .emptyBraces⟩

/-- The value of an attribute, if it has one. -/
theorem value_takes :
    (optional do
      let _ ← token .equals
      attributeValue expr).Takes fun used value => Derives used (.value value) := by
  intro ts value rest h
  simp only [attributeValue, reads_optional, reads_bind, reads_token, reads_orElse, reads_accept,
    reads_pure] at h
  rcases h with ⟨_, rfl, equals, _, rfl, ⟨⟨text, span⟩, _, ⟨t, ht, rfl⟩, rfl, rfl⟩ |
    ⟨-, c, _, hc, rfl, rfl⟩⟩ | ⟨rfl, rfl, -⟩
  · cases t <;> cases ht
    exact ⟨[⟨.equals, equals⟩, ⟨.quoted text, span⟩], rfl, .quotedValue⟩
  · obtain ⟨us, rfl, hus⟩ := container_takes hexpr hc
    exact ⟨⟨.equals, equals⟩ :: us, rfl, .bracedValue hus⟩
  · exact ⟨[], rfl, .noValue⟩

theorem tagItem_takes :
    (tagItem expr).Takes fun used item => Derives used (.item item) := by
  intro ts item rest h
  simp only [tagItem, writtenAttribute, Grammar.spread, reads_bind, reads_token, reads_orElse,
    reads_word, reads_pure] at h
  rcases h with ⟨attr, _, ⟨⟨first, span⟩, _, rfl, second, _, hsecond, value, _, hvalue, hattr⟩,
    rfl, rfl⟩ | ⟨-, _, _, ⟨left, _, rfl, dots, _, rfl, _, _, hskip, right, _, rfl, rfl, rfl⟩,
    rfl, rfl⟩
  · obtain ⟨us, rfl, hus⟩ := value_takes hexpr hvalue
    simp only [reads_optional, reads_bind, reads_token, reads_word] at hsecond
    rcases hsecond with ⟨⟨name, span'⟩, rfl, colon, _, rfl, rfl⟩ | ⟨rfl, rfl, -⟩
    · obtain ⟨rfl, rfl⟩ := hattr
      exact ⟨⟨.word first, span⟩ :: ⟨.colon, colon⟩ :: ⟨.word name, span'⟩ :: us, rfl,
        .spaced hus⟩
    · obtain ⟨rfl, rfl⟩ := hattr
      exact ⟨⟨.word first, span⟩ :: us, rfl, .plain hus⟩
  · obtain ⟨inside, rfl, hinside⟩ := many_balanced_takes hskip
    exact ⟨⟨.openBrace, left⟩ :: ⟨.spread, dots⟩ :: (inside ++ [⟨.closeBrace, right⟩]), by simp,
      .spread hinside⟩

theorem items_takes :
    (many (tagItem expr)).Takes fun used items => Derives used (.items items) :=
  (tagItem_takes hexpr).many .noItems fun _ _ _ _ hus hvs => .items hus hvs

end Tags

section Elements

variable {element : Reader Element} {expr : Reader Expr}
  (helement : element.Takes fun used e => Derives used (.element e))
  (hexpr : expr.Takes fun used e => Derives used (.expr .full e))
include helement hexpr

theorem child_takes :
    (child element expr).Takes fun used c => Derives used (.child c) := by
  intro ts c rest h
  simp only [child, reads_orElse, reads_bind, reads_accept, reads_pure] at h
  rcases h with ⟨e, _, he, rfl, rfl⟩ | ⟨-, ⟨c, _, hc, rfl, rfl⟩ |
    ⟨-, ⟨_, span⟩, _, ⟨t, ht, rfl⟩, rfl, rfl⟩⟩
  · obtain ⟨us, rfl, hus⟩ := helement he
    exact ⟨us, rfl, .elementChild hus⟩
  · obtain ⟨us, rfl, hus⟩ := container_takes hexpr hc
    exact ⟨us, rfl, .bracedChild hus⟩
  · cases t <;> cases ht
    exact ⟨[⟨.prose _, span⟩], rfl, .prose⟩

theorem children_takes :
    (many (child element expr)).Takes fun used cs => Derives used (.children cs) :=
  (child_takes helement hexpr).many .noChildren fun _ _ _ _ hus hvs => .children hus hvs

theorem elementWith_takes :
    (elementWith element expr).Takes fun used e => Derives used (.element e) := by
  intro ts e rest h
  simp only [elementWith, reads_bind, reads_token, reads_orElse] at h
  obtain ⟨left, _, rfl, written, _, hwritten, items, _, hitems, h⟩ := h
  obtain ⟨names, rfl, hproper, hnames, hnone, hword⟩ := optional_name_takes hwritten
  obtain ⟨us, rfl, hus⟩ := items_takes hexpr hitems
  -- the tag closes itself, or children and a closing tag follow
  rcases h with h | ⟨-, right, _, rfl, children, _, hchildren, ⟨closed, closing⟩, _, hclosing, h⟩
  · split at h
    · simp at h
    · next hsome =>
        simp only [reads_bind, reads_token, reads_pure] at h
        obtain ⟨slash, _, rfl, right, _, rfl, rfl, rfl⟩ := h
        exact ⟨⟨.less, left⟩ :: (names ++ (us ++ [⟨.slash, slash⟩, ⟨.greater, right⟩])), by simp,
          .single hproper (fun heq => hsome (hnone.2 heq)) hnames hus⟩
  · split at h
    · next heq =>
        obtain ⟨rfl, rfl⟩ := reads_pure.1 h
        obtain ⟨vs, rfl, hvs⟩ := children_takes helement hexpr hchildren
        obtain ⟨_, rfl, left', slash, right', names', rfl, hnames', rfl⟩ :=
          closingTag_takes hclosing
        refine ⟨⟨.less, left⟩ :: (names ++ (us ++ ⟨.greater, right⟩ :: (vs ++
          ⟨.less, left'⟩ :: ⟨.slash, slash⟩ :: (names' ++ [⟨.greater, right'⟩])))), by simp,
          .pair hproper (fun hfragment => ?_) hnames hus hvs (by rw [heq]; exact hnames')⟩
        -- a word after `<` would have been taken for the name
        by_contra hplain
        obtain ⟨text, span, us, rfl⟩ := hus.word_of_startsPlain (by simpa using hplain)
        have hfail := hword (by simpa using hnone.2 hfragment)
        simp [fails_iff_forall] at hfail
    · simp at h

end Elements

/-- At every depth of nesting, whatever is read is derived. -/
theorem takes_to (depth : Nat) :
    (elementTo depth).Takes (fun used e => Derives used (.element e)) ∧
      (exprTo depth).Takes fun used e => Derives used (.expr .full e) := by
  induction depth with
  | zero =>
      constructor <;>
      · intro ts value rest h
        cases h
  | succ depth ih =>
      obtain ⟨helement, hexpr⟩ := ih
      have hnested := elementWith_takes helement hexpr
      exact ⟨hnested, exprWith_takes hnested hexpr⟩

theorem reads_document {ts rest : List Lexeme} {d : Document} :
    document.Reads ts d rest ↔
      rest = [] ∧ (many (elementTo (ts.length + 1))).Reads ts d.elements [] := by
  have hdepth : document ts = documentTo (ts.length + 1) ts := rfl
  rw [reads_congr hdepth]
  simp only [documentTo, reads_bind, reads_atEnd, reads_pure]
  constructor
  · rintro ⟨elements, _, helements, _, _, ⟨rfl, rfl⟩, rfl, rfl⟩
    exact ⟨rfl, helements⟩
  · rintro ⟨rfl, helements⟩
    exact ⟨d.elements, [], helements, (), [], ⟨rfl, rfl⟩, rfl, rfl⟩

/-- A document is derived from all the lexemes of its list. -/
theorem derives_of_reads_document {ts rest : List Lexeme} {d : Document}
    (h : document.Reads ts d rest) : Derives ts (.elements d.elements) := by
  obtain ⟨-, helements⟩ := reads_document.1 h
  have htakes : (many (elementTo (ts.length + 1))).Takes fun used es =>
      Derives used (.elements es) :=
    (takes_to _).1.many .noElements fun _ _ _ _ hus hvs => .elements hus hvs
  obtain ⟨used, hused, hderives⟩ := htakes helements
  rwa [hused, List.append_nil]

end RoleAudit.Markup
