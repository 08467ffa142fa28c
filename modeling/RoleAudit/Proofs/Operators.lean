import RoleAudit.Proofs.Forward

/-!
# Reading operators

Operators bind at levels, and what is read at a level ends before the first token with which no
expression of that level goes on.  Operators that group to the left are read by a fold over a
repetition: `Chain` says how far such a reading has come, so that a derivation can be followed one
operator at a time, and `Level.Reaches` says so for the reader of each level.

Main statements: `Level.Reaches.reads`, `Level.reaches_of_tighter` and `Level.reaches_joined`.
-/

namespace RoleAudit.Markup

open RoleAudit.Text (Span)
open Reader Grammar

/-! ### Reading from left to right -/

section Chain

variable {α β : Type} {p : Reader α} {q : Reader β} {f : α → β → α}

/-- Reading `ts` by `p` and then repeatedly by `q` has come to `tail` with the value `a`: however
the repetition goes on from there, folding gives what it gives from `a`. -/
def Chain (p : Reader α) (q : Reader β) (f : α → β → α) (ts : List Lexeme) (a : α)
    (tail : List Lexeme) : Prop :=
  ∀ bs rest, (many q).Reads tail bs rest → ∃ first mid others, p.Reads ts first mid ∧
    (many q).Reads mid others rest ∧ others.foldl f first = bs.foldl f a

theorem Chain.start {ts tail : List Lexeme} {a : α} (h : p.Reads ts a tail) :
    Chain p q f ts a tail := fun bs _ hmany =>
  ⟨a, tail, bs, h, hmany, rfl⟩

theorem Chain.step {ts mid tail : List Lexeme} {a : α} {b : β} (h : Chain p q f ts a mid)
    (hq : q.Reads mid b tail) (hlt : tail.length < mid.length) : Chain p q f ts (f a b) tail :=
  fun bs rest hmany => h (b :: bs) rest (many_step hq hlt hmany)

theorem Chain.stop {ts tail : List Lexeme} {a : α} (h : Chain p q f ts a tail)
    (hq : q.Fails tail) : ∃ first mid others, p.Reads ts first mid ∧
      (many q).Reads mid others tail ∧ others.foldl f first = a :=
  h [] tail (many_stop hq)

end Chain

/-! ### Levels -/

namespace Level

/-- The place of a level in the order of the levels. -/
def rank : Level → Nat
  | primary => 0
  | suffixed => 1
  | prefixed => 2
  | sum => 3
  | comparison => 4
  | conjunction => 5
  | disjunction => 6
  | full => 7

end Level

/-- The tightest level at which an expression goes on with a token. -/
def Token.level? : Token → Option Level
  | dot | openParen => some .suffixed
  | plus | minus => some .sum
  | operator _ => some .comparison
  | and => some .conjunction
  | or | coalesce => some .disjunction
  | question => some .full
  | _ => none

namespace Level

/-- Whether an expression of a level goes on with a token. -/
def goesOn (level : Level) (t : Token) : Bool :=
  t.level?.any fun l => l.rank ≤ level.rank

theorem rank_tighter_le (level : Level) : level.tighter.rank ≤ level.rank := by
  cases level <;> decide

theorem goesOn_of_rank_le {level level' : Level} (hle : level'.rank ≤ level.rank) {t : Token}
    (h : level'.goesOn t = true) : level.goesOn t = true := by
  unfold goesOn at h ⊢
  cases hl : t.level? with
  | none => simp [hl] at h
  | some l =>
      simp only [hl, Option.any_some, decide_eq_true_eq] at h ⊢
      exact Nat.le_trans h hle

theorem next_goesOn_tighter {level : Level} {tail : List Lexeme}
    (h : next level.goesOn tail = false) : next level.tighter.goesOn tail = false :=
  next_of_imp (fun _ ht => goesOn_of_rank_le level.rank_tighter_le ht) h

@[simp] theorem primary_goesOn (t : Token) : primary.goesOn t = false := by
  cases t <;> rfl

@[simp] theorem next_primary_goesOn (tail : List Lexeme) : next primary.goesOn tail = false := by
  cases tail <;> simp

theorem level?_of_join? {level : Level} {t : Token} {build : Expr → Expr → Expr}
    (h : level.join? t = some build) : t.level? = some level := by
  cases level with
  | primary | suffixed | prefixed | full => cases h
  | sum =>
      cases t with
      | plus | minus => rfl
      | _ => cases h
  | comparison =>
      cases t with
      | operator text => rfl
      | _ => cases h
  | conjunction =>
      cases t with
      | and => rfl
      | _ => cases h
  | disjunction =>
      cases t with
      | or | coalesce => rfl
      | _ => cases h

/-- An operator goes on with an expression of its level, but of none that is tighter. -/
theorem goesOn_of_join? {level : Level} {t : Token} {build : Expr → Expr → Expr}
    (h : level.join? t = some build) :
    level.goesOn t = true ∧ level.tighter.goesOn t = false := by
  unfold goesOn
  rw [level?_of_join? h]
  cases level with
  | primary | suffixed | prefixed | full => cases h
  | sum | comparison | conjunction | disjunction => exact ⟨rfl, rfl⟩

variable (element : Reader Element) (expr : Reader Expr)

/-- The reader of a level. -/
def reader : Level → Reader Expr
  | primary => atom element expr
  | suffixed => postfixed element expr
  | prefixed => Grammar.unary element expr
  | sum => additive element expr
  | comparison => Grammar.comparison element expr
  | conjunction => Grammar.conjunction element expr
  | disjunction => Grammar.disjunction element expr
  | full => exprWith element expr

/-- Reading `ts` at a level has come to `tail` with the value `e`. -/
def Reaches : Level → List Lexeme → Expr → List Lexeme → Prop
  | primary => (atom element expr).Reads
  | suffixed => Chain (atom element expr) (suffix expr) fun object apply => apply object
  | prefixed => (Grammar.unary element expr).Reads
  | full => fun ts e tail =>
      next full.goesOn tail = false → (exprWith element expr).Reads ts e tail
  | level => Chain (level.tighter.reader element expr)
      (joined (level.tighter.reader element expr) level.join?) fun left next => next.1 left next.2

variable {element expr}

theorem suffix_fails {tail : List Lexeme} (h : next suffixed.goesOn tail = false) :
    (suffix expr).Fails tail := by
  have hdot : (token .dot).Fails tail := token_fails (next_of_kind rfl h)
  have hparen : (token .openParen).Fails tail := token_fails (next_of_kind rfl h)
  simp only [suffix, arguments, fails_orElse, fails_bind]
  exact ⟨Or.inl hdot, Or.inl (Or.inl hparen)⟩

theorem joined_fails {level : Level} {operand : Reader Expr} {tail : List Lexeme}
    (h : next level.goesOn tail = false) : (joined operand level.join?).Fails tail := by
  simp only [joined, fails_bind]
  refine Or.inl (accept_fails (next_of_imp (fun t ht => ?_) h))
  obtain ⟨build, hbuild⟩ := Option.isSome_iff_exists.1 ht
  exact (goesOn_of_join? hbuild).1

/-- Operands joined at a level are read once their chain has come to an end. -/
theorem level_reads {level : Level} {operand : Reader Expr} {ts tail : List Lexeme} {e : Expr}
    (h : Chain operand (joined operand level.join?) (fun left next => next.1 left next.2) ts e tail)
    (htail : next level.goesOn tail = false) :
    (Grammar.level operand level.join?).Reads ts e tail := by
  obtain ⟨first, mid, others, hfirst, hothers, rfl⟩ := h.stop (joined_fails htail)
  simp only [Grammar.level, reads_bind, reads_pure]
  exact ⟨first, mid, hfirst, others, tail, hothers, rfl, rfl⟩

/-- What a level reaches it reads, if nothing follows with which it goes on. -/
theorem Reaches.reads {level : Level} {ts tail : List Lexeme} {e : Expr}
    (h : level.Reaches element expr ts e tail) (htail : next level.goesOn tail = false) :
    (level.reader element expr).Reads ts e tail := by
  cases level with
  | primary | prefixed => exact h
  | suffixed =>
      obtain ⟨first, mid, others, hfirst, hothers, rfl⟩ := Chain.stop h (suffix_fails htail)
      simp only [reader, postfixed, reads_bind, reads_pure]
      exact ⟨first, mid, hfirst, others, tail, hothers, rfl, rfl⟩
  | sum | comparison | conjunction | disjunction => exact level_reads h htail
  | full => exact h htail

end Level

/-! ### Where expressions begin -/

/-- Whether an expression of a level can begin with a token. -/
def Level.starts (level : Level) (t : Token) : Bool :=
  (literal? t).isSome || t == .openParen || t == .less ||
    ((unaryOp? t).isSome && Level.prefixed.rank ≤ level.rank)

theorem Level.starts_of_tighter {level : Level} {t : Token} (h : level.tighter.starts t = true) :
    level.starts t = true := by
  simp only [starts, Bool.or_eq_true, Bool.and_eq_true, decide_eq_true_eq] at h ⊢
  rcases h with h | ⟨hop, hrank⟩
  · exact Or.inl h
  · exact Or.inr ⟨hop, Nat.le_trans hrank level.rank_tighter_le⟩

theorem Level.next_starts_of_tighter {level : Level} {ts : List Lexeme}
    (h : next level.tighter.starts ts = true) : next level.starts ts = true := by
  cases ts with
  | nil => cases h
  | cons t ts => exact starts_of_tighter h

theorem Written.starts_element {skip : List Lexeme → Prop} {ts : List Lexeme} {e : Element}
    (h : Written skip ts (.element e)) : next (fun t => t = .less) ts = true := by
  cases h with
  | single => rfl
  | pair => rfl

/-- An expression begins with an operand, or with an operator before one. -/
theorem Written.starts {skip : List Lexeme → Prop} {ts : List Lexeme} {level : Level} {e : Expr}
    (h : Written skip ts (.expr level e)) : next level.starts ts = true := by
  generalize hphrase : Phrase.expr level e = phrase at h
  induction h generalizing level e with
  | literal h =>
      cases hphrase
      simp [Level.starts, h]
  | grouped _ _ =>
      cases hphrase
      rfl
  | @nested us _ h _ =>
      cases hphrase
      have hless := h.starts_element
      cases us with
      | nil => cases hless
      | cons t us =>
          rw [next_cons, decide_eq_true_eq] at hless
          simp [Level.starts, hless]
  | member _ ih | call _ _ ih _ | joined _ _ _ ih _ =>
      cases hphrase
      exact next_append (ih rfl)
  | conditional _ _ _ ih _ _ =>
      cases hphrase
      exact next_append (@Level.next_starts_of_tighter .full _ (ih rfl))
  | unary hop _ _ =>
      cases hphrase
      simp [Level.starts, hop]
  | tighter _ ih =>
      cases hphrase
      exact Level.next_starts_of_tighter (ih rfl)
  | _ => cases hphrase

namespace Level

variable {element : Reader Element} {expr : Reader Expr}

/-- Before a suffixed operand stands no operator. -/
theorem unaryOp_fails {ts : List Lexeme} (h : next suffixed.starts ts = true) :
    unaryOp.Fails ts := by
  simp only [unaryOp, fails_bind]
  refine Or.inl (accept_fails ?_)
  cases ts with
  | nil => cases h
  | cons t ts =>
      obtain ⟨t, span⟩ := t
      cases t with
      | plus | minus | bang => cases h
      | _ => rfl

theorem unary_reads {ts tail : List Lexeme} {e : Expr}
    (h : (postfixed element expr).Reads ts e tail) (hstarts : next suffixed.starts ts = true) :
    (Grammar.unary element expr).Reads ts e tail := by
  simp only [Grammar.unary, reads_bind, reads_pure]
  exact ⟨[], ts, many_stop (unaryOp_fails hstarts), e, tail, h, rfl, rfl⟩

theorem unary_reads_cons {t : Token} {span : Span} {op : UnaryOp} {ts tail : List Lexeme} {e : Expr}
    (hop : unaryOp? t = some op) (h : (Grammar.unary element expr).Reads ts e tail) :
    (Grammar.unary element expr).Reads (⟨t, span⟩ :: ts) (.unary op e) tail := by
  simp only [Grammar.unary, reads_bind, reads_pure] at h ⊢
  obtain ⟨ops, mid, hops, operand, _, hoperand, rfl, rfl⟩ := h
  have hfirst : unaryOp.Reads (⟨t, span⟩ :: ts) op ts := by
    simp only [unaryOp, reads_bind, reads_accept, reads_pure]
    exact ⟨(op, span), ts, ⟨t, hop, rfl⟩, rfl, rfl⟩
  exact ⟨op :: ops, mid, many_step hfirst (by simp) hops, operand, _, hoperand, rfl, rfl⟩

theorem exprWith_reads {ts tail : List Lexeme} {e : Expr}
    (h : (Grammar.disjunction element expr).Reads ts e tail)
    (htail : next (fun t => t = .question) tail = false) :
    (exprWith element expr).Reads ts e tail := by
  have hbranches : (token .question).Fails tail := token_fails htail
  simp only [exprWith, reads_bind, reads_optional, reads_pure]
  exact ⟨e, tail, h, none, tail, Or.inr ⟨rfl, rfl, by simp [hbranches]⟩, rfl, rfl⟩

theorem exprWith_reads_conditional {question colon : Span} {ts us vs tail : List Lexeme}
    {test yes no : Expr}
    (htest : (Grammar.disjunction element expr).Reads ts test (⟨.question, question⟩ :: us))
    (hyes : expr.Reads us yes (⟨.colon, colon⟩ :: vs)) (hno : expr.Reads vs no tail) :
    (exprWith element expr).Reads ts (.conditional test yes no) tail := by
  simp only [exprWith, reads_bind, reads_optional, reads_token, reads_pure]
  exact ⟨test, _, htest, some (yes, no), tail,
    Or.inl ⟨_, rfl, question, _, rfl, yes, _, hyes, colon, _, rfl, no, tail, hno, rfl, rfl⟩,
    rfl, rfl⟩

/-- What is reached at a tighter level is reached where it stands as an operand. -/
theorem reaches_of_tighter {level : Level} {ts tail : List Lexeme} {e : Expr}
    (h : level.tighter.Reaches element expr ts e tail)
    (hstarts : next level.tighter.starts ts = true)
    (htail : next level.tighter.goesOn tail = false) : level.Reaches element expr ts e tail := by
  cases level with
  | primary => exact h
  | suffixed => exact Chain.start h
  | prefixed => exact unary_reads (h.reads htail) hstarts
  | sum | comparison | conjunction | disjunction => exact Chain.start (h.reads htail)
  | full =>
      intro hfull
      exact exprWith_reads (h.reads htail) (next_of_kind rfl hfull)

/-- An operator and its right operand go on with what is reached at the level of the operator. -/
theorem reaches_joined {level : Level} {t : Token} {span : Span} {build : Expr → Expr → Expr}
    {ts us tail : List Lexeme} {left right : Expr} (hop : level.join? t = some build)
    (hleft : level.Reaches element expr ts left (⟨t, span⟩ :: us))
    (hright : (level.tighter.reader element expr).Reads us right tail)
    (hlt : tail.length < us.length + 1) :
    level.Reaches element expr ts (build left right) tail := by
  have hnext : (joined (level.tighter.reader element expr) level.join?).Reads (⟨t, span⟩ :: us)
      (build, right) tail := by
    simp only [joined, reads_bind, reads_accept, reads_pure]
    exact ⟨(build, span), us, ⟨t, hop, rfl⟩, right, tail, hright, rfl, rfl⟩
  cases level with
  | primary | suffixed | prefixed | full => cases hop
  | sum | comparison | conjunction | disjunction => exact Chain.step hleft hnext hlt

end Level

/-! ### Operands and their suffixes -/

section Operands

variable {element : Reader Element} {expr : Reader Expr}

theorem atom_reads_literal {t : Token} {span : Span} {tail : List Lexeme} {e : Expr}
    (h : literal? t = some e) : (atom element expr).Reads (⟨t, span⟩ :: tail) e tail := by
  simp only [atom, literal, reads_orElse, reads_bind, reads_accept, reads_pure]
  exact Or.inl ⟨(e, span), tail, ⟨t, h, rfl⟩, rfl, rfl⟩

theorem atom_reads_grouped {left right : Span} {ts tail : List Lexeme} {e : Expr}
    (h : expr.Reads ts e (⟨.closeParen, right⟩ :: tail)) :
    (atom element expr).Reads (⟨.openParen, left⟩ :: ts) e tail := by
  have hliteral : literal.Fails (⟨.openParen, left⟩ :: ts) :=
    fails_bind.2 (Or.inl (accept_fails rfl))
  simp only [atom, reads_orElse, reads_bind, reads_token, reads_pure]
  exact Or.inr ⟨hliteral, Or.inl ⟨left, _, rfl, e, _, h, right, tail, rfl, rfl, rfl⟩⟩

theorem atom_reads_element {ts tail : List Lexeme} {e : Element} (h : element.Reads ts e tail)
    (hless : next (fun t => t = .less) ts = true) :
    (atom element expr).Reads ts (.element e) tail := by
  cases ts with
  | nil => cases hless
  | cons t ts =>
      obtain ⟨t, span⟩ := t
      obtain rfl : t = .less := of_decide_eq_true hless
      have hliteral : literal.Fails (⟨.less, span⟩ :: ts) :=
        fails_bind.2 (Or.inl (accept_fails rfl))
      have hparen : (token .openParen).Fails (⟨.less, span⟩ :: ts) := token_fails rfl
      simp only [atom, reads_orElse, reads_bind, reads_pure, fails_bind]
      exact Or.inr ⟨hliteral, Or.inr ⟨Or.inl hparen, e, tail, h, rfl, rfl⟩⟩

theorem suffix_reads_member {dot span : Span} {name : String} {tail : List Lexeme} :
    (suffix expr).Reads (⟨.dot, dot⟩ :: ⟨.word name, span⟩ :: tail)
      (fun object => .member object name) tail := by
  simp only [suffix, reads_orElse, reads_bind, reads_token, reads_word, reads_pure]
  exact Or.inl ⟨dot, _, rfl, (name, span), tail, rfl, rfl, rfl⟩

theorem suffix_reads_call {left : Span} {ts tail : List Lexeme} {all : List Expr}
    (h : (arguments expr).Reads (⟨.openParen, left⟩ :: ts) all tail) :
    (suffix expr).Reads (⟨.openParen, left⟩ :: ts) (fun callee => .call callee all) tail := by
  have hdot : (token .dot).Fails (⟨.openParen, left⟩ :: ts) := token_fails rfl
  simp only [suffix, reads_orElse, reads_bind, reads_pure, fails_bind]
  exact Or.inr ⟨Or.inl hdot, all, tail, h, rfl, rfl⟩

theorem arguments_reads_nil {left right : Span} {tail : List Lexeme}
    (h : expr.Fails (⟨.closeParen, right⟩ :: tail)) :
    (arguments expr).Reads (⟨.openParen, left⟩ :: ⟨.closeParen, right⟩ :: tail) [] tail := by
  simp only [arguments, reads_bind, reads_optional, reads_token]
  refine ⟨left, _, rfl, none, _, Or.inr ⟨rfl, rfl, h⟩, ?_⟩
  simp only [reads_bind, reads_token, reads_pure]
  exact ⟨[], _, ⟨rfl, rfl⟩, right, tail, rfl, rfl, rfl⟩

theorem arguments_reads {left right : Span} {ts us vs tail : List Lexeme} {first : Expr}
    {others : List Expr} {comma : Option Span} (hfirst : expr.Reads ts first us)
    (hothers : (many do
      let _ ← token .comma
      expr).Reads us others vs)
    (hcomma : (optional (token .comma)).Reads vs comma (⟨.closeParen, right⟩ :: tail)) :
    (arguments expr).Reads (⟨.openParen, left⟩ :: ts) (first :: others) tail := by
  simp only [arguments, reads_bind, reads_token]
  refine ⟨left, _, rfl, some first, us, reads_optional.2 (Or.inl ⟨first, rfl, hfirst⟩), ?_⟩
  simp only [reads_bind, reads_token, reads_pure]
  exact ⟨others, vs, hothers, comma, _, hcomma, first :: others, _, ⟨rfl, rfl⟩, right, tail, rfl,
    rfl, rfl⟩

end Operands

end RoleAudit.Markup
