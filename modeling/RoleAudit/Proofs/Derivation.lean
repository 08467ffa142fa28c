import RoleAudit.Proofs.Braces

/-!
# Derivations of phrases

The grammar of documents as a relation between lexemes and trees.  `Written skip ts phrase` says
that the lexemes `ts`, and all of them, write `phrase`: an expression of some level, an element, a
container, or one of the lists that these are made of.  Expressions come in levels, one for each
strength of binding; at a level whose operators join two operands, the left operand may be of the
same level and the right one is of the next tighter level.

A pair of braces whose content no expression covers stands for `Content.other`.  Which balanced
lists may be skipped in this way is a parameter, `skip`; `Derives` lets all of them be skipped.
-/

namespace RoleAudit.Markup

open RoleAudit.Text (Span)
open Reader Grammar

/-- The tokens of a name. -/
def Name.tokens : Name → List Token
  | .plain name => [.word name]
  | .namespaced space name => [.word space, .colon, .word name]
  | .member [] => []
  | .member (first :: others) => .word first :: others.flatMap fun name => [.dot, .word name]
  | .fragment => []

/-- Dots stand between two names or more. -/
def Name.IsProper : Name → Prop
  | .member parts => 2 ≤ parts.length
  | _ => True

/-- How tightly an expression holds together, from the tightest to the loosest. -/
inductive Level where
  /-- Literals, names, elements and whatever stands in parentheses. -/
  | primary
  /-- Properties and calls. -/
  | suffixed
  /-- Operators before an operand. -/
  | prefixed
  | sum
  | comparison
  | conjunction
  | disjunction
  /-- Conditionals, and so every expression. -/
  | full
  deriving DecidableEq, Repr

namespace Level

/-- The next tighter level. -/
def tighter : Level → Level
  | primary => primary
  | suffixed => primary
  | prefixed => suffixed
  | sum => prefixed
  | comparison => sum
  | conjunction => comparison
  | disjunction => conjunction
  | full => disjunction

/-- How a token joins two operands at a level, if it does. -/
def join? : Level → Token → Option (Expr → Expr → Expr)
  | sum => sumOp?
  | comparison => comparisonOp?
  | conjunction => conjunctionOp?
  | disjunction => disjunctionOp?
  | _ => fun _ => none

end Level

/-- What lexemes can write. -/
inductive Phrase where
  | expr (level : Level) (expr : Expr)
  /-- The arguments of a call, without the parentheses. -/
  | arguments (exprs : List Expr)
  /-- The arguments of a call after the first, each with the comma before it. -/
  | furtherArguments (exprs : List Expr)
  | container (container : Container)
  /-- The value of an attribute with the equal sign before it, or nothing. -/
  | value (value : Option AttributeValue)
  | item (item : TagItem)
  | items (items : List TagItem)
  | child (child : Child)
  | children (children : List Child)
  | element (element : Element)
  | elements (elements : List Element)

/-- Whether the first thing in a tag is an attribute that is written out. -/
def startsPlain : List TagItem → Bool
  | .plain _ :: _ => true
  | _ => false

/-- The lexemes write the phrase. -/
inductive Written (skip : List Lexeme → Prop) : List Lexeme → Phrase → Prop
  -- operands, and what may come after them
  | literal {t : Token} {span : Span} {e : Expr} (h : literal? t = some e) :
      Written skip [⟨t, span⟩] (.expr .primary e)
  | grouped {left right : Span} {ts : List Lexeme} {e : Expr}
      (h : Written skip ts (.expr .full e)) :
      Written skip (⟨.openParen, left⟩ :: (ts ++ [⟨.closeParen, right⟩])) (.expr .primary e)
  | nested {ts : List Lexeme} {e : Element} (h : Written skip ts (.element e)) :
      Written skip ts (.expr .primary (.element e))
  | member {dot span : Span} {ts : List Lexeme} {object : Expr} {name : String}
      (h : Written skip ts (.expr .suffixed object)) :
      Written skip (ts ++ [⟨.dot, dot⟩, ⟨.word name, span⟩]) (.expr .suffixed (.member object name))
  | call {left right : Span} {ts us : List Lexeme} {callee : Expr} {all : List Expr}
      (h : Written skip ts (.expr .suffixed callee)) (hall : Written skip us (.arguments all)) :
      Written skip (ts ++ ⟨.openParen, left⟩ :: (us ++ [⟨.closeParen, right⟩]))
        (.expr .suffixed (.call callee all))
  -- operators, with operands of the levels at which they bind
  | unary {t : Token} {span : Span} {op : UnaryOp} {ts : List Lexeme} {e : Expr}
      (hop : unaryOp? t = some op) (h : Written skip ts (.expr .prefixed e)) :
      Written skip (⟨t, span⟩ :: ts) (.expr .prefixed (.unary op e))
  | joined {level : Level} {t : Token} {span : Span} {build : Expr → Expr → Expr}
      {ts us : List Lexeme} {left right : Expr} (hop : level.join? t = some build)
      (hleft : Written skip ts (.expr level left))
      (hright : Written skip us (.expr level.tighter right)) :
      Written skip (ts ++ ⟨t, span⟩ :: us) (.expr level (build left right))
  | conditional {question colon : Span} {ts us vs : List Lexeme} {test yes no : Expr}
      (htest : Written skip ts (.expr .disjunction test)) (hyes : Written skip us (.expr .full yes))
      (hno : Written skip vs (.expr .full no)) :
      Written skip (ts ++ ⟨.question, question⟩ :: (us ++ ⟨.colon, colon⟩ :: vs))
        (.expr .full (.conditional test yes no))
  | tighter {level : Level} {ts : List Lexeme} {e : Expr}
      (h : Written skip ts (.expr level.tighter e)) : Written skip ts (.expr level e)
  -- arguments of a call, with a comma after the last of them or without
  | noArguments : Written skip [] (.arguments [])
  | arguments {ts us : List Lexeme} {first : Expr} {others : List Expr}
      (h : Written skip ts (.expr .full first))
      (hothers : Written skip us (.furtherArguments others)) :
      Written skip (ts ++ us) (.arguments (first :: others))
  | lastArgument : Written skip [] (.furtherArguments [])
  | trailingComma {comma : Span} : Written skip [⟨.comma, comma⟩] (.furtherArguments [])
  | furtherArgument {comma : Span} {ts us : List Lexeme} {next : Expr} {others : List Expr}
      (h : Written skip ts (.expr .full next))
      (hothers : Written skip us (.furtherArguments others)) :
      Written skip (⟨.comma, comma⟩ :: (ts ++ us)) (.furtherArguments (next :: others))
  -- braces
  | emptyBraces {left right : Span} :
      Written skip [⟨.openBrace, left⟩, ⟨.closeBrace, right⟩]
        (.container ⟨.empty, ⟨left.start, right.stop⟩⟩)
  | coveredBraces {left right : Span} {inside : List Lexeme} {e : Expr}
      (h : Written skip inside (.expr .full e)) :
      Written skip (⟨.openBrace, left⟩ :: (inside ++ [⟨.closeBrace, right⟩]))
        (.container ⟨.expr e, ⟨left.start, right.stop⟩⟩)
  | skippedBraces {left right : Span} {inside : List Lexeme} (hne : inside ≠ [])
      (hbalanced : Balanced (inside.map Lexeme.token)) (hskip : skip inside) :
      Written skip (⟨.openBrace, left⟩ :: (inside ++ [⟨.closeBrace, right⟩]))
        (.container ⟨.other, ⟨left.start, right.stop⟩⟩)
  -- attributes and spreads
  | noValue : Written skip [] (.value none)
  | quotedValue {equals span : Span} {text : String} :
      Written skip [⟨.equals, equals⟩, ⟨.quoted text, span⟩] (.value (some (.quoted text span)))
  | bracedValue {equals : Span} {ts : List Lexeme} {c : Container}
      (h : Written skip ts (.container c)) :
      Written skip (⟨.equals, equals⟩ :: ts) (.value (some (.braced c)))
  | plain {span : Span} {name : String} {ts : List Lexeme} {value : Option AttributeValue}
      (h : Written skip ts (.value value)) :
      Written skip (⟨.word name, span⟩ :: ts)
        (.item (.plain ⟨none, name, value,
          ⟨span.start, (value.map fun v => v.span.stop).getD span.stop⟩⟩))
  | spaced {first colon second : Span} {space name : String} {ts : List Lexeme}
      {value : Option AttributeValue} (h : Written skip ts (.value value)) :
      Written skip (⟨.word space, first⟩ :: ⟨.colon, colon⟩ :: ⟨.word name, second⟩ :: ts)
        (.item (.plain ⟨some space, name, value,
          ⟨first.start, (value.map fun v => v.span.stop).getD second.stop⟩⟩))
  | spread {left dots right : Span} {inside : List Lexeme}
      (hbalanced : Balanced (inside.map Lexeme.token)) :
      Written skip
        (⟨.openBrace, left⟩ :: ⟨.spread, dots⟩ :: (inside ++ [⟨.closeBrace, right⟩]))
        (.item (.spread ⟨left.start, right.stop⟩))
  | noItems : Written skip [] (.items [])
  | items {ts us : List Lexeme} {first : TagItem} {others : List TagItem}
      (h : Written skip ts (.item first)) (hothers : Written skip us (.items others)) :
      Written skip (ts ++ us) (.items (first :: others))
  -- children
  | prose {text : String} {span : Span} : Written skip [⟨.prose text, span⟩] (.child (.prose span))
  | elementChild {ts : List Lexeme} {e : Element} (h : Written skip ts (.element e)) :
      Written skip ts (.child (.element e))
  | bracedChild {ts : List Lexeme} {c : Container} (h : Written skip ts (.container c)) :
      Written skip ts (.child (.braced c))
  | noChildren : Written skip [] (.children [])
  | children {ts us : List Lexeme} {first : Child} {others : List Child}
      (h : Written skip ts (.child first)) (hothers : Written skip us (.children others)) :
      Written skip (ts ++ us) (.children (first :: others))
  -- elements, of one tag or of two tags with the same name
  | single {left slash right : Span} {names ts : List Lexeme} {name : Name} {items : List TagItem}
      (hproper : name.IsProper) (hne : name ≠ .fragment)
      (hname : names.map Lexeme.token = name.tokens) (hitems : Written skip ts (.items items)) :
      Written skip
        (⟨.less, left⟩ :: (names ++ (ts ++ [⟨.slash, slash⟩, ⟨.greater, right⟩])))
        (.element (.single ⟨name, items, ⟨left.start, right.stop⟩⟩))
  | pair {left right left' slash right' : Span} {names ts us names' : List Lexeme} {name : Name}
      {items : List TagItem} {children : List Child} (hproper : name.IsProper)
      (hplain : name = .fragment → startsPlain items = false)
      (hname : names.map Lexeme.token = name.tokens) (hitems : Written skip ts (.items items))
      (hchildren : Written skip us (.children children))
      (hclosing : names'.map Lexeme.token = name.tokens) :
      Written skip
        (⟨.less, left⟩ :: (names ++ (ts ++ ⟨.greater, right⟩ :: (us ++
          ⟨.less, left'⟩ :: ⟨.slash, slash⟩ :: (names' ++ [⟨.greater, right'⟩])))))
        (.element (.pair ⟨name, items, ⟨left.start, right.stop⟩⟩ children
          ⟨left'.start, right'.stop⟩))
  | noElements : Written skip [] (.elements [])
  | elements {ts us : List Lexeme} {first : Element} {others : List Element}
      (h : Written skip ts (.element first)) (hothers : Written skip us (.elements others)) :
      Written skip (ts ++ us) (.elements (first :: others))

/-- The lexemes write the phrase, where every balanced list may be skipped. -/
abbrev Derives : List Lexeme → Phrase → Prop :=
  Written fun _ => True

/-! ### Braces in what is written -/

/-- A name is made of words, colons and dots. -/
theorem Name.mem_tokens {name : Name} {t : Token} (h : t ∈ name.tokens) :
    (∃ text, t = .word text) ∨ t = .colon ∨ t = .dot := by
  unfold tokens at h
  split at h
  case h_4 =>
      simp only [List.mem_cons, List.mem_flatMap, List.not_mem_nil, or_false] at h
      rcases h with rfl | ⟨text, -, rfl | rfl⟩ <;> simp
  all_goals
    simp only [List.mem_cons, List.not_mem_nil, or_false] at h
  · exact Or.inl ⟨_, h⟩
  · rcases h with rfl | rfl | rfl <;> simp

theorem Name.tokens_balanced (name : Name) : Balanced name.tokens := by
  refine .of_forall fun t ht => ?_
  rcases mem_tokens ht with ⟨text, rfl⟩ | rfl | rfl <;> rfl

theorem isBrace_of_literal? {t : Token} {e : Expr} (h : literal? t = some e) :
    t.isBrace = false := by
  cases t with
  | openBrace => cases h
  | closeBrace => cases h
  | _ => rfl

theorem isBrace_of_unaryOp? {t : Token} {op : UnaryOp} (h : unaryOp? t = some op) :
    t.isBrace = false := by
  cases t with
  | openBrace => cases h
  | closeBrace => cases h
  | _ => rfl

theorem isBrace_of_join? {level : Level} {t : Token} {build : Expr → Expr → Expr}
    (h : level.join? t = some build) : t.isBrace = false := by
  cases t with
  | openBrace => cases level <;> cases h
  | closeBrace => cases level <;> cases h
  | _ => rfl

/-- Whatever is written is balanced, through all that is nested in it. -/
theorem Written.balanced {skip : List Lexeme → Prop} {ts : List Lexeme} {phrase : Phrase}
    (h : Written skip ts phrase) : Balanced (ts.map Lexeme.token) := by
  induction h with
  | literal h => exact .single (isBrace_of_literal? h) .nil
  | grouped _ ih => simpa using Balanced.single rfl (ih.append (.single rfl .nil))
  | member _ ih => simpa using ih.append (.single rfl (.single rfl .nil))
  | call _ _ ih ih' =>
      simpa using ih.append (.single rfl (ih'.append (.single rfl .nil)))
  | unary hop _ ih => exact .single (isBrace_of_unaryOp? hop) ih
  | joined hop _ _ ih ih' => simpa using ih.append (.single (isBrace_of_join? hop) ih')
  | conditional _ _ _ ih ih' ih'' =>
      simpa using ih.append (.single rfl (ih'.append (.single rfl ih'')))
  | nested _ ih | tighter _ ih | elementChild _ ih | bracedChild _ ih => exact ih
  | noArguments | lastArgument | noValue | noItems | noChildren | noElements => exact .nil
  | arguments _ _ ih ih' | items _ _ ih ih' | children _ _ ih ih' | elements _ _ ih ih' =>
      simpa using ih.append ih'
  | trailingComma | prose => exact .single rfl .nil
  | furtherArgument _ _ ih ih' => simpa using Balanced.single rfl (ih.append ih')
  | emptyBraces => exact Balanced.nil.braced
  | coveredBraces _ ih => simpa using ih.braced
  | skippedBraces _ hbalanced _ => simpa using hbalanced.braced
  | quotedValue => exact .single rfl (.single rfl .nil)
  | bracedValue _ ih | plain _ ih => exact .single rfl ih
  | spaced _ ih => exact .single rfl (.single rfl (.single rfl ih))
  | spread hbalanced =>
      have hinside := (Balanced.single (t := .spread) rfl hbalanced).braced
      simpa using hinside
  | single _ _ hname _ ih =>
      have htail : Balanced [.slash, .greater] := .single rfl (.single rfl .nil)
      simpa [hname] using
        Balanced.single (t := .less) rfl ((Name.tokens_balanced _).append (ih.append htail))
  | @pair left right left' slash right' names ts us names' name items children _ _ hname _ _
      hclosing ih ih' =>
      have hname' := Name.tokens_balanced name
      have hclose : Balanced (.less :: .slash :: (name.tokens ++ [.greater])) :=
        .single rfl (.single rfl (hname'.append (.single rfl .nil)))
      simpa [hname, hclosing] using Balanced.single (t := .less) rfl
        (hname'.append (ih.append (.single (t := .greater) rfl (ih'.append hclose))))

end RoleAudit.Markup
