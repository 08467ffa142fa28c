import RoleAudit.Proofs.Soundness

/-!
# Reading forward

How the readers of names, containers, attributes and elements go over lexemes that are put
together from parts which they are known to read.  Where a reader could go on, a condition on the
next lexeme says that it does not.

Main statements: `container_reads`, with `content_reads_expr` and `content_reads_skipped` for what
may stand inside, and `container_reads_of_balanced`, by which a pair of braces around a balanced
list is read up to its closing brace in any case.
-/

namespace RoleAudit.Markup

open RoleAudit.Text (Span)
open Reader Grammar

/-- Whether the next lexeme is of some kind. -/
def next (kind : Token → Bool) (ts : List Lexeme) : Bool :=
  ts.head?.any fun t => kind t.token

@[simp] theorem next_nil {kind : Token → Bool} : next kind [] = false := rfl

@[simp] theorem next_cons {kind : Token → Bool} {t : Lexeme} {ts : List Lexeme} :
    next kind (t :: ts) = kind t.token := rfl

namespace Token

def isWord : Token → Bool
  | word _ => true
  | _ => false

/-- The tokens with which a name that could end goes on. -/
def continuesName : Token → Bool
  | colon | dot => true
  | _ => false

/-- The tokens with which an attribute that could end goes on. -/
def continuesItem : Token → Bool
  | colon | equals => true
  | _ => false

/-- The tokens with which an attribute or a spread begins. -/
def startsItem : Token → Bool
  | word _ | openBrace => true
  | _ => false

end Token

theorem continuesName_of_startsItem {t : Token} (h : t.startsItem = true) :
    t.continuesName = false := by
  cases t with
  | colon | dot => cases h
  | _ => rfl

theorem continuesItem_of_startsItem {t : Token} (h : t.startsItem = true) :
    t.continuesItem = false := by
  cases t with
  | colon | equals => cases h
  | _ => rfl

/-! ### Failing early -/

theorem token_fails {expected : Token} {ts : List Lexeme}
    (h : next (fun t => t = expected) ts = false) : (token expected).Fails ts := by
  cases ts with
  | nil => rfl
  | cons t ts => simpa using h

theorem accept_fails {α : Type} {kind : Token → Option α} {ts : List Lexeme}
    (h : next (fun t => (kind t).isSome) ts = false) : (accept kind).Fails ts := by
  cases ts with
  | nil => rfl
  | cons t ts => simpa using h

theorem next_of_imp {kind kind' : Token → Bool} (himp : ∀ t, kind' t → kind t) {ts : List Lexeme}
    (h : next kind ts = false) : next kind' ts = false := by
  cases ts with
  | nil => rfl
  | cons t ts =>
      rw [next_cons] at h ⊢
      by_contra hne
      rw [himp t.token (by simpa using hne)] at h
      cases h

/-- Where nothing of a kind comes next, no token of that kind does. -/
theorem next_of_kind {kind : Token → Bool} {expected : Token} (hkind : kind expected = true)
    {ts : List Lexeme} (h : next kind ts = false) : next (fun t => t = expected) ts = false := by
  refine next_of_imp (fun t ht => ?_) h
  rw [of_decide_eq_true ht]
  exact hkind

theorem next_append {kind : Token → Bool} {ts tail : List Lexeme} (h : next kind ts = true) :
    next kind (ts ++ tail) = true := by
  cases ts with
  | nil => cases h
  | cons t ts => exact h

theorem word_fails {ts : List Lexeme} (h : next Token.isWord ts = false) : word.Fails ts := by
  refine accept_fails (next_of_imp (fun t ht => ?_) h)
  cases t with
  | word text => rfl
  | _ => cases ht

/-! ### Names -/

theorem dotted_reads {others : List String} {us rest : List Lexeme}
    (hus : us.map Lexeme.token = others.flatMap fun name => [.dot, .word name])
    (hrest : next Token.continuesName rest = false) :
    ∃ parts, (many do
      let _ ← token .dot
      word).Reads (us ++ rest) parts rest ∧ parts.map Prod.fst = others := by
  induction others generalizing us with
  | nil =>
      obtain rfl := List.map_eq_nil_iff.1 hus
      have hdot : (token .dot).Fails rest := token_fails (next_of_kind rfl hrest)
      exact ⟨[], many_stop (fails_bind.2 (Or.inl hdot)), rfl⟩
  | cons name others ih =>
      rw [List.flatMap_cons, List.cons_append, List.cons_append] at hus
      obtain ⟨dot, us, rfl, hus'⟩ := lexemes_cons hus
      obtain ⟨span, us, rfl, hus''⟩ := lexemes_cons hus'
      obtain ⟨parts, hparts, rfl⟩ := ih hus''
      refine ⟨(name, span) :: parts, many_step ?_ ?_ hparts, rfl⟩
      · simp
      · simp only [List.length_append, List.length_cons]
        omega

theorem name_reads {n : Name} {names rest : List Lexeme} (hproper : n.IsProper)
    (hne : n ≠ .fragment) (hnames : names.map Lexeme.token = n.tokens)
    (hrest : next Token.continuesName rest = false) : name.Reads (names ++ rest) n rest := by
  have hcolon : (token .colon).Fails rest := token_fails (next_of_kind rfl hrest)
  have hdot : (token .dot).Fails rest := token_fails (next_of_kind rfl hrest)
  unfold name
  simp only [reads_bind, reads_word, reads_optional, reads_orElse, reads_pure]
  cases n with
  | plain text =>
      obtain ⟨span, rfl⟩ := lexemes_single hnames
      exact ⟨(text, span), rest, rfl, none, rest, Or.inr ⟨rfl, rfl, by simp [many1, hcolon, hdot]⟩,
        rfl, rfl⟩
  | namespaced space text =>
      -- the colon is tried before a dot
      obtain ⟨first, _, rfl, hnames'⟩ := lexemes_cons hnames
      obtain ⟨colon, _, rfl, hnames''⟩ := lexemes_cons hnames'
      obtain ⟨second, _, rfl, hnil⟩ := lexemes_cons hnames''
      obtain rfl := List.map_eq_nil_iff.1 hnil
      exact ⟨(space, first), _, rfl, some (.namespaced space text), rest,
        Or.inl ⟨_, rfl, Or.inl (by simp)⟩, rfl, rfl⟩
  | member parts =>
      cases parts with
      | nil => exact absurd hproper (by simp [Name.IsProper])
      | cons first others =>
          cases others with
          | nil => exact absurd hproper (by simp [Name.IsProper])
          | cons second others =>
              obtain ⟨span, _, rfl, hnames'⟩ := lexemes_cons hnames
              rw [List.flatMap_cons, List.cons_append, List.cons_append] at hnames'
              obtain ⟨dot, _, rfl, hnames''⟩ := lexemes_cons hnames'
              obtain ⟨span', us, rfl, hus⟩ := lexemes_cons hnames''
              obtain ⟨parts, hparts, rfl⟩ := dotted_reads hus hrest
              have hpart : Reader.Reads (do
                  let _ ← token .dot
                  word) (⟨.dot, dot⟩ :: ⟨.word second, span'⟩ :: (us ++ rest)) (second, span')
                  (us ++ rest) := by simp
              exact ⟨(first, span), _, rfl,
                some (.member (first :: second :: parts.map Prod.fst)), rest,
                Or.inl ⟨_, rfl, Or.inr ⟨by simp, _, rest, many1_reads hpart hparts, rfl, rfl⟩⟩,
                rfl, rfl⟩
  | fragment => exact absurd rfl hne

/-- A name that may be missing is read where it is, unless something follows that could belong to
it. -/
theorem optional_name_reads {n : Name} {names rest : List Lexeme} (hproper : n.IsProper)
    (hnames : names.map Lexeme.token = n.tokens) (hrest : next Token.continuesName rest = false)
    (hword : n = .fragment → next Token.isWord rest = false) :
    ∃ written, (optional name).Reads (names ++ rest) written rest ∧ written.getD .fragment = n ∧
      (written.isNone ↔ n = .fragment) := by
  by_cases hn : n = .fragment
  · subst hn
    obtain rfl := List.map_eq_nil_iff.1 hnames
    refine ⟨none, reads_optional.2 (Or.inr ⟨rfl, rfl, ?_⟩), rfl, by simp⟩
    unfold name
    exact fails_bind.2 (Or.inl (word_fails (hword rfl)))
  · exact ⟨some n, reads_optional.2 (Or.inl ⟨n, rfl, name_reads hproper hn hnames hrest⟩), rfl,
      by simpa using hn⟩

/-! ### Braces -/

section Braces

variable {expr : Reader Expr} {inside tail : List Lexeme} {left right : Span}

/-- An expression up to the closing brace is the content of the braces. -/
theorem content_reads_expr {e : Expr}
    (h : expr.Reads (inside ++ ⟨.closeBrace, right⟩ :: tail) e (⟨.closeBrace, right⟩ :: tail)) :
    (content expr).Reads (inside ++ ⟨.closeBrace, right⟩ :: tail) (.expr e)
      (⟨.closeBrace, right⟩ :: tail) := by
  simp only [content, reads_orElse, reads_bind, reads_ahead, reads_token, reads_pure]
  exact Or.inl ⟨e, _, h, right, _, ⟨rfl, tail, rfl⟩, rfl, rfl⟩

/-- If no expression gets up to the closing brace, what stands before it is skipped.  An expression
that gets up to another closing brace is no obstacle: there is none that a balanced list leads up
to. -/
theorem content_reads_skipped (hexpr : expr.Takes fun used e => Derives used (.expr .full e))
    (hbalanced : Balanced (inside.map Lexeme.token))
    (hno : ∀ e, ¬ expr.Reads (inside ++ ⟨.closeBrace, right⟩ :: tail) e
      (⟨.closeBrace, right⟩ :: tail)) :
    (content expr).Reads (inside ++ ⟨.closeBrace, right⟩ :: tail)
      (if inside = [] then .empty else .other) (⟨.closeBrace, right⟩ :: tail) := by
  have hcovered : Reader.Fails (do
      let inner ← expr
      let _ ← ahead (token .closeBrace)
      return Content.expr inner) (inside ++ ⟨.closeBrace, right⟩ :: tail) := by
    rw [fails_iff_forall]
    intro value rest hreads
    simp only [reads_bind, reads_ahead, reads_token, reads_pure] at hreads
    obtain ⟨e, _, he, right', _, ⟨rfl, tail', rfl⟩, -, -⟩ := hreads
    obtain ⟨used, hused, hderives⟩ := hexpr he
    -- both lists lead up to a closing brace, so they are equal
    have hsplit := Balanced.append_close_inj hbalanced hderives.balanced
      (by simpa using congrArg (List.map Lexeme.token) hused)
    have hlength : inside.length = used.length := by
      simpa using congrArg List.length hsplit.1
    obtain ⟨rfl, hrest⟩ := List.append_inj hused hlength
    rw [← hrest] at he
    exact hno e he
  simp only [content, reads_orElse]
  refine Or.inr ⟨hcovered, ?_⟩
  by_cases hnil : inside = []
  · subst hnil
    refine Or.inr ⟨?_, by simp⟩
    simp only [fails_bind, fails_many1]
    exact Or.inl (balancedTo_fails_close _)
  · obtain ⟨units, hunits⟩ := @many1_balanced_reads inside tail right hbalanced hnil
    exact Or.inl (reads_bind.2 ⟨units, _, hunits, by simp [hnil]⟩)

theorem container_reads {c : Content}
    (h : (content expr).Reads (inside ++ ⟨.closeBrace, right⟩ :: tail) c
      (⟨.closeBrace, right⟩ :: tail)) :
    (container expr).Reads (⟨.openBrace, left⟩ :: (inside ++ ⟨.closeBrace, right⟩ :: tail))
      ⟨c, ⟨left.start, right.stop⟩⟩ tail := by
  simp only [container, reads_bind, reads_token, reads_pure]
  exact ⟨left, _, rfl, c, _, h, right, tail, rfl, rfl, rfl⟩

/-- A pair of braces around a balanced list is read up to its closing brace. -/
theorem container_reads_of_balanced
    (hexpr : expr.Takes fun used e => Derives used (.expr .full e))
    (hbalanced : Balanced (inside.map Lexeme.token)) :
    ∃ c, (container expr).Reads (⟨.openBrace, left⟩ :: (inside ++ ⟨.closeBrace, right⟩ :: tail))
      c tail := by
  by_cases h : ∃ e, expr.Reads (inside ++ ⟨.closeBrace, right⟩ :: tail) e
      (⟨.closeBrace, right⟩ :: tail)
  · obtain ⟨e, he⟩ := h
    exact ⟨_, container_reads (content_reads_expr he)⟩
  · exact ⟨_, container_reads (content_reads_skipped hexpr hbalanced fun e he => h ⟨e, he⟩)⟩

theorem container_fails {ts : List Lexeme} (h : next (fun t => t = .openBrace) ts = false) :
    (container expr).Fails ts := by
  simp only [container, fails_bind]
  exact Or.inl (token_fails h)

end Braces

/-! ### Tags -/

section Tags

variable {element : Reader Element} {expr : Reader Expr}

theorem value_reads_none {tail : List Lexeme} (h : next Token.continuesItem tail = false) :
    (optional do
      let _ ← token .equals
      attributeValue expr).Reads tail none tail := by
  have hequals : (token .equals).Fails tail := token_fails (next_of_kind rfl h)
  exact reads_optional.2 (Or.inr ⟨rfl, rfl, fails_bind.2 (Or.inl hequals)⟩)

theorem value_reads_quoted {equals span : Span} {text : String} {tail : List Lexeme} :
    (optional do
      let _ ← token .equals
      attributeValue expr).Reads (⟨.equals, equals⟩ :: ⟨.quoted text, span⟩ :: tail)
        (some (.quoted text span)) tail := by
  simp only [attributeValue, reads_optional, reads_bind, reads_token, reads_orElse, reads_accept,
    reads_pure]
  exact Or.inl ⟨_, rfl, equals, _, rfl, Or.inl ⟨(text, span), _, ⟨_, rfl, rfl⟩, rfl, rfl⟩⟩

theorem value_reads_braced {equals left : Span} {c : Container} {us tail : List Lexeme}
    (h : (container expr).Reads (⟨.openBrace, left⟩ :: us) c tail) :
    (optional do
      let _ ← token .equals
      attributeValue expr).Reads (⟨.equals, equals⟩ :: ⟨.openBrace, left⟩ :: us)
        (some (.braced c)) tail := by
  simp only [attributeValue, reads_optional, reads_bind, reads_token, reads_orElse, reads_pure]
  refine Or.inl ⟨_, rfl, equals, _, rfl, Or.inr ⟨?_, c, tail, h, rfl, rfl⟩⟩
  simp

theorem tagItem_reads_plain {span : Span} {name : String} {value : Option AttributeValue}
    {us tail : List Lexeme} (hus : next (fun t => t = .colon) us = false)
    (h : (optional do
      let _ ← token .equals
      attributeValue expr).Reads us value tail) :
    (tagItem expr).Reads (⟨.word name, span⟩ :: us)
      (.plain ⟨none, name, value, ⟨span.start, (value.map fun v => v.span.stop).getD span.stop⟩⟩)
      tail := by
  have hcolon : Reader.Fails (do
      let _ ← token .colon
      word) us := fails_bind.2 (Or.inl (token_fails hus))
  simp only [tagItem, writtenAttribute, reads_orElse, reads_bind, reads_word, reads_pure]
  exact Or.inl ⟨_, _, ⟨(name, span), us, rfl, none, us,
    reads_optional.2 (Or.inr ⟨rfl, rfl, hcolon⟩), value, tail, h, rfl, rfl⟩, rfl, rfl⟩

theorem tagItem_reads_spaced {first colon second : Span} {space name : String}
    {value : Option AttributeValue} {us tail : List Lexeme}
    (h : (optional do
      let _ ← token .equals
      attributeValue expr).Reads us value tail) :
    (tagItem expr).Reads (⟨.word space, first⟩ :: ⟨.colon, colon⟩ :: ⟨.word name, second⟩ :: us)
      (.plain ⟨some space, name, value,
        ⟨first.start, (value.map fun v => v.span.stop).getD second.stop⟩⟩) tail := by
  simp only [tagItem, writtenAttribute, reads_orElse, reads_bind, reads_word, reads_pure]
  exact Or.inl ⟨_, _, ⟨(space, first), _, rfl, some (name, second), us,
    reads_optional.2 (Or.inl ⟨_, rfl, by simp⟩), value, tail, h, rfl, rfl⟩, rfl, rfl⟩

theorem tagItem_reads_spread {left dots right : Span} {inside tail : List Lexeme}
    (hbalanced : Balanced (inside.map Lexeme.token)) :
    (tagItem expr).Reads
      (⟨.openBrace, left⟩ :: ⟨.spread, dots⟩ :: (inside ++ ⟨.closeBrace, right⟩ :: tail))
      (.spread ⟨left.start, right.stop⟩) tail := by
  obtain ⟨units, hunits⟩ := @many_balanced_reads inside tail right hbalanced
  simp only [tagItem, writtenAttribute, Grammar.spread, reads_orElse, reads_bind, reads_token,
    reads_pure, fails_bind]
  exact Or.inr ⟨Or.inl (Or.inl (word_fails rfl)), _, _, ⟨left, _, rfl, dots, _, rfl, units, _,
    hunits, right, _, rfl, rfl, rfl⟩, rfl, rfl⟩

theorem tagItem_fails {ts : List Lexeme} (h : next Token.startsItem ts = false) :
    (tagItem expr).Fails ts := by
  have hword : word.Fails ts := word_fails (next_of_imp (fun t ht => by
    cases t with
    | word text => rfl
    | _ => cases ht) h)
  have hbrace : (token .openBrace).Fails ts := token_fails (next_of_kind rfl h)
  simp only [tagItem, writtenAttribute, Grammar.spread, fails_orElse, fails_bind]
  exact ⟨Or.inl (Or.inl hword), Or.inl (Or.inl hbrace)⟩

theorem closingTag_reads {left slash right : Span} {n : Name} {names tail : List Lexeme}
    (hproper : n.IsProper) (hnames : names.map Lexeme.token = n.tokens) :
    closingTag.Reads (⟨.less, left⟩ :: ⟨.slash, slash⟩ :: (names ++ ⟨.greater, right⟩ :: tail))
      (n, ⟨left.start, right.stop⟩) tail := by
  obtain ⟨written, hwritten, rfl, -⟩ := @optional_name_reads n names (⟨.greater, right⟩ :: tail)
    hproper hnames rfl fun _ => rfl
  simp only [closingTag, reads_bind, reads_token, reads_pure]
  exact ⟨left, _, rfl, slash, _, rfl, written, _, hwritten, right, tail, rfl, rfl, rfl⟩

/-- A tag that closes itself is read if its attributes are. -/
theorem elementWith_reads_single {left slash right : Span} {n : Name} {items : List TagItem}
    {names ts tail : List Lexeme} (hproper : n.IsProper) (hne : n ≠ .fragment)
    (hnames : names.map Lexeme.token = n.tokens) (hstart : next Token.continuesName ts = false)
    (hitems : (many (tagItem expr)).Reads ts items
      (⟨.slash, slash⟩ :: ⟨.greater, right⟩ :: tail)) :
    (elementWith element expr).Reads (⟨.less, left⟩ :: (names ++ ts))
      (.single ⟨n, items, ⟨left.start, right.stop⟩⟩) tail := by
  obtain ⟨written, hwritten, rfl, hnone⟩ :=
    optional_name_reads hproper hnames hstart fun heq => absurd heq hne
  simp only [elementWith, reads_bind, reads_token, reads_orElse]
  refine ⟨left, _, rfl, written, _, hwritten, items, _, hitems, Or.inl ?_⟩
  rw [if_neg fun h => hne (hnone.1 h)]
  simp

/-- An opening tag, children and a closing tag of the same name are read if the attributes and the
children are. -/
theorem elementWith_reads_pair {left right left' slash right' : Span} {n : Name}
    {items : List TagItem} {children : List Child} {names ts us names' tail : List Lexeme}
    (hproper : n.IsProper) (hnames : names.map Lexeme.token = n.tokens)
    (hnames' : names'.map Lexeme.token = n.tokens)
    (hstart : next Token.continuesName ts = false)
    (hword : n = .fragment → next Token.isWord ts = false)
    (hitems : (many (tagItem expr)).Reads ts items (⟨.greater, right⟩ :: us))
    (hchildren : (many (child element expr)).Reads us children
      (⟨.less, left'⟩ :: ⟨.slash, slash⟩ :: (names' ++ ⟨.greater, right'⟩ :: tail))) :
    (elementWith element expr).Reads (⟨.less, left⟩ :: (names ++ ts))
      (.pair ⟨n, items, ⟨left.start, right.stop⟩⟩ children ⟨left'.start, right'.stop⟩) tail := by
  obtain ⟨written, hwritten, rfl, hnone⟩ := optional_name_reads hproper hnames hstart hword
  simp only [elementWith, reads_bind, reads_token, reads_orElse]
  refine ⟨left, _, rfl, written, _, hwritten, items, _, hitems, Or.inr ⟨?_, right, _, rfl, children,
    _, hchildren, _, tail, closingTag_reads hproper hnames', ?_⟩⟩
  · split <;> simp
  · rw [if_pos rfl]
    simp

/-- A closing tag is no element. -/
theorem elementWith_fails_closing {left slash : Span} {tail : List Lexeme} :
    (elementWith element expr).Fails (⟨.less, left⟩ :: ⟨.slash, slash⟩ :: tail) := by
  -- it has no name and no attributes, so that it can neither close itself nor end
  obtain ⟨written, hwritten, -, hnone⟩ :=
    @optional_name_reads .fragment [] (⟨.slash, slash⟩ :: tail) trivial rfl rfl fun _ => rfl
  have hitems : (many (tagItem expr)).Reads (⟨.slash, slash⟩ :: tail) []
      (⟨.slash, slash⟩ :: tail) := many_stop (tagItem_fails rfl)
  simp only [elementWith, fails_bind, fails_orElse]
  refine Or.inr ⟨left, _, by simp, Or.inr ⟨written, _, hwritten, Or.inr ⟨[], _, hitems, ?_, ?_⟩⟩⟩
  · rw [if_pos (hnone.2 rfl)]
    simp
  · exact Or.inl (by simp)

theorem elementWith_fails {ts : List Lexeme} (h : next (fun t => t = .less) ts = false) :
    (elementWith element expr).Fails ts := by
  simp only [elementWith, fails_bind]
  exact Or.inl (token_fails h)

theorem elementTo_fails {depth : Nat} {ts : List Lexeme}
    (h : next (fun t => t = .less) ts = false) : (elementTo depth).Fails ts := by
  cases depth with
  | zero => rfl
  | succ depth => exact elementWith_fails h

theorem elementTo_fails_closing {depth : Nat} {left slash : Span} {tail : List Lexeme} :
    (elementTo depth).Fails (⟨.less, left⟩ :: ⟨.slash, slash⟩ :: tail) := by
  cases depth with
  | zero => rfl
  | succ depth => exact elementWith_fails_closing

theorem child_reads_element {e : Element} {ts tail : List Lexeme} (h : element.Reads ts e tail) :
    (child element expr).Reads ts (.element e) tail := by
  simp only [child, reads_orElse, reads_bind, reads_pure]
  exact Or.inl ⟨e, tail, h, rfl, rfl⟩

theorem child_reads_braced {c : Container} {ts tail : List Lexeme} (hfail : element.Fails ts)
    (h : (container expr).Reads ts c tail) : (child element expr).Reads ts (.braced c) tail := by
  simp only [child, reads_orElse, reads_bind, reads_pure, fails_bind]
  exact Or.inr ⟨Or.inl hfail, Or.inl ⟨c, tail, h, rfl, rfl⟩⟩

theorem child_reads_prose {text : String} {span : Span} {tail : List Lexeme}
    (hfail : element.Fails (⟨.prose text, span⟩ :: tail)) :
    (child element expr).Reads (⟨.prose text, span⟩ :: tail) (.prose span) tail := by
  simp only [child, reads_orElse, reads_bind, reads_pure, reads_accept, fails_bind]
  exact Or.inr ⟨Or.inl hfail, Or.inr ⟨Or.inl (container_fails rfl), ((), span), tail,
    ⟨_, rfl, rfl⟩, rfl, rfl⟩⟩

/-- Children end where a closing tag begins. -/
theorem child_fails_closing {left slash : Span} {tail : List Lexeme}
    (hfail : element.Fails (⟨.less, left⟩ :: ⟨.slash, slash⟩ :: tail)) :
    (child element expr).Fails (⟨.less, left⟩ :: ⟨.slash, slash⟩ :: tail) := by
  simp only [child, fails_orElse, fails_bind]
  exact ⟨Or.inl hfail, Or.inl (container_fails rfl), Or.inl (by simp)⟩

end Tags

end RoleAudit.Markup
