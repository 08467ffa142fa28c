import RoleAudit.Proofs.Language
import RoleAudit.Proofs.OpenBraces

/-!
# The loose language, token by token

The loose language of documents is that of documents but for one rule: the names of the two tags of
an element may differ.  Whether a token list begins one of its documents can be told token by token.
A stack of `Symbol`s says what is still to come, the next symbol first; every symbol knows with
which tokens it may begin and what is to come after each of them (`Symbol.after`).  At the bottom of
the stack a document may go on with another element, or end.

Main statement: `viable_of_run`.  What the stack takes begins a document of the loose language, for
every symbol can be completed and completes what it stands for.
-/

namespace RoleAudit.Markup

/-! ### The language -/

mutual

/-- Elements, whatever the name in the closing tag is. -/
inductive IsLooseElement : List Token → Prop
  | single {name : Name} {items : List Token} (hproper : name.IsProper) (hname : name ≠ .fragment)
      (hitems : Repeated IsItem items) :
      IsLooseElement (.less :: (name.tokens ++ (items ++ [.slash, .greater])))
  | pair {name name' : Name} {items : List Token} {children : List (List Token)}
      (hproper : name.IsProper) (hproper' : name'.IsProper)
      (hfirst : name = .fragment → ∀ text others, items ≠ .word text :: others)
      (hitems : Repeated IsItem items) (hchildren : ∀ c ∈ children, IsLooseChild c) :
      IsLooseElement (.less :: (name.tokens ++ (items ++ .greater :: (children.flatten ++
        .less :: .slash :: (name'.tokens ++ [.greater])))))

/-- What may stand between an opening and a closing tag. -/
inductive IsLooseChild : List Token → Prop
  | element {ts : List Token} (h : IsLooseElement ts) : IsLooseChild ts
  | braced {ts : List Token} (h : IsContainer ts) : IsLooseChild ts
  | prose {text : String} : IsLooseChild [.prose text]

end

/-- A document is any number of elements. -/
def IsLooseDocument : List Token → Prop :=
  Repeated IsLooseElement

/-- A document of the loose language begins with these tokens. -/
def Viable (front : List Token) : Prop :=
  ∃ more, IsLooseDocument (front ++ more)

mutual

theorem IsElement.isLoose {ts : List Token} : IsElement ts → IsLooseElement ts
  | .single hproper hname hitems => .single hproper hname hitems
  | .pair hproper hfirst hitems hchildren =>
      .pair hproper hproper hfirst hitems fun c hc => (hchildren c hc).isLoose

theorem IsChild.isLoose {ts : List Token} : IsChild ts → IsLooseChild ts
  | .element h => .element h.isLoose
  | .braced h => .braced h
  | .prose => .prose

end

/-- Every document is one of the loose language. -/
theorem IsDocument.isLoose {ts : List Token} (h : IsDocument ts) : IsLooseDocument ts := by
  obtain ⟨parts, hparts, rfl⟩ := h
  exact ⟨parts, fun part hpart => (hparts part hpart).isLoose, rfl⟩

/-! ### Symbols -/

/-- What may be added before something else. -/
inductive Extra where
  /-- The parts of a name after the first. -/
  | name
  /-- The parts of a name after a dot and the part behind it. -/
  | dots
  /-- What belongs to an attribute after its first word. -/
  | attr
  /-- The value of an attribute, with its equal sign. -/
  | value
  deriving DecidableEq, Repr

/-- The tokens with which something may be added. -/
def Extra.starts : Extra → Token → Bool
  | .name, .colon | .name, .dot | .dots, .dot => true
  | .attr, .colon | .attr, .equals | .value, .equals => true
  | _, _ => false

/-- What may still have to come. -/
inductive Symbol where
  | exactly (t : Token)
  | word
  /-- The value of an attribute after the equal sign. -/
  | value
  /-- The rest of a group in braces, with the brace that closes it. -/
  | inside
  /-- The rest of an element from within its first tag, which only closes itself if it has a
  name. -/
  | items (isNamed : Bool)
  /-- The rest of an element after its opening tag. -/
  | children
  /-- The rest of an element after its `<`. -/
  | opening
  /-- The rest of an element whose children a `<` follows. -/
  | less
  /-- The rest of a closing tag after its slash. -/
  | closing
  | maybe (extra : Extra) (next : Symbol)
  deriving DecidableEq, Repr

namespace Symbol

/-- What is to come after the first token of an element behind its `<`. -/
def afterOpening : Token → Option (List Symbol)
  | .word _ => some [maybe .name (items true)]
  | .openBrace => some [exactly .spread, inside, items false]
  | .greater => some [children]
  | _ => none

/-- What is to come after the first token of a symbol, if the symbol may begin with it. -/
def after : Symbol → Token → Option (List Symbol)
  | exactly expected, t => if t = expected then some [] else none
  | word, .word _ => some []
  | word, _ => none
  | value, .quoted _ => some []
  | value, .openBrace => some [inside]
  | value, _ => none
  | inside, .openBrace => some [inside, inside]
  | inside, .closeBrace => some []
  | inside, _ => some [inside]
  | items isNamed, .word _ => some [maybe .attr (items isNamed)]
  | items isNamed, .openBrace => some [exactly .spread, inside, items isNamed]
  | items isNamed, .slash => if isNamed then some [exactly .greater] else none
  | items _, .greater => some [children]
  | items _, _ => none
  | children, .prose _ => some [children]
  | children, .openBrace => some [inside, children]
  | children, .less => some [less]
  | children, _ => none
  | opening, t => afterOpening t
  | less, .slash => some [closing]
  | less, t => (afterOpening t).map (· ++ [children])
  | closing, .word _ => some [maybe .name (exactly .greater)]
  | closing, .greater => some []
  | closing, _ => none
  | maybe .name next, .colon => some [word, next]
  | maybe .name next, .dot => some [word, maybe .dots next]
  | maybe .dots next, .dot => some [word, maybe .dots next]
  | maybe .attr next, .colon => some [word, maybe .value next]
  | maybe .attr next, .equals => some [value, next]
  | maybe .value next, .equals => some [value, next]
  | maybe _ next, t => next.after t

end Symbol

/-- A stack of symbols, with what is to come next first. -/
abbrev Symbols := List Symbol

namespace Symbols

/-- The stack after one more token, if this may come next.  Where nothing has to come, an element
may. -/
def step : Symbols → Token → Option Symbols
  | [], t => if t = .less then some [.opening] else none
  | symbol :: below, t => (symbol.after t).map (· ++ below)

theorem step_nil (t : Token) : step [] t = if t = .less then some [.opening] else none := rfl

/-- The stack after some tokens, if they may come one after the other. -/
def run : Symbols → List Token → Option Symbols
  | stack, [] => some stack
  | stack, t :: ts => (stack.step t).bind fun next => run next ts

variable {stack mid : Symbols} {us vs : List Token}

theorem run_cons {t : Token} (h : stack.step t = some mid) : stack.run (t :: vs) = mid.run vs := by
  rw [run, h]
  rfl

theorem run_append (h : stack.run us = some mid) : stack.run (us ++ vs) = mid.run vs := by
  induction us generalizing stack with
  | nil =>
      obtain rfl := Option.some.inj h
      rfl
  | cons t us ih =>
      obtain ⟨next, hnext, hus⟩ := Option.bind_eq_some_iff.1 h
      rw [List.cons_append, run_cons hnext, ih hus]

theorem run_append_none (h : stack.run us = none) : stack.run (us ++ vs) = none := by
  induction us generalizing stack with
  | nil => cases h
  | cons t us ih =>
      rw [List.cons_append, run]
      cases hstep : stack.step t with
      | none => rfl
      | some next =>
          rw [run_cons hstep] at h
          exact ih h

end Symbols

/-! ### What symbols stand for -/

/-- What may stand after an opening tag in an element. -/
def IsContent (ts : List Token) : Prop :=
  ∃ (cs : List (List Token)) (name : Name), (∀ c ∈ cs, IsLooseChild c) ∧ name.IsProper ∧
    ts = cs.flatten ++ .less :: .slash :: (name.tokens ++ [.greater])

/-- What may stand after the attributes of the first tag in an element. -/
def EndsElement (isNamed : Bool) (ts : List Token) : Prop :=
  (isNamed = true ∧ ts = [.slash, .greater]) ∨ ∃ us, IsContent us ∧ ts = .greater :: us

/-- Any number of dots, each with a part of a name behind it. -/
def AreDots (ts : List Token) : Prop :=
  ∃ names : List String, ts = names.flatMap fun name => [.dot, .word name]

/-- The token lists that an extra may add. -/
def Extra.Adds : Extra → List Token → Prop
  | .name, ts => (∃ text, ts = [.colon, .word text]) ∨ AreDots ts
  | .dots, ts => AreDots ts
  | .attr, ts => IsValue ts ∨ ∃ text us, IsValue us ∧ ts = .colon :: .word text :: us
  | .value, ts => IsValue ts

theorem Extra.adds_nil (extra : Extra) : extra.Adds [] := by
  cases extra with
  | name => exact Or.inr ⟨[], rfl⟩
  | dots => exact ⟨[], rfl⟩
  | attr => exact Or.inl .none
  | value => exact IsValue.none

/-- The token lists that a symbol stands for. -/
def Symbol.Writes : Symbol → List Token → Prop
  | exactly t, ts => ts = [t]
  | word, ts => ∃ text, ts = [.word text]
  | value, ts => IsValue (.equals :: ts)
  | inside, ts => ∃ us, Balanced us ∧ ts = us ++ [.closeBrace]
  | items isNamed, ts => ∃ us vs, Repeated IsItem us ∧ EndsElement isNamed vs ∧ ts = us ++ vs
  | children, ts => IsContent ts
  | opening, ts => IsLooseElement (.less :: ts)
  | less, ts => IsContent (.less :: ts)
  | closing, ts => ∃ name : Name, name.IsProper ∧ ts = name.tokens ++ [.greater]
  | maybe extra next, ts => ∃ us vs, extra.Adds us ∧ next.Writes vs ∧ ts = us ++ vs

/-- The token lists that symbols stand for, one after the other. -/
def Symbols.Write : Symbols → List Token → Prop
  | [], ts => ts = []
  | symbol :: below, ts => ∃ us vs, symbol.Writes us ∧ Symbols.Write below vs ∧ ts = us ++ vs

namespace Symbols

variable {stack below : Symbols} {ts : List Token}

@[simp] theorem write_nil : Write [] ts ↔ ts = [] := Iff.rfl

@[simp] theorem write_cons {symbol : Symbol} : Write (symbol :: below) ts ↔
    ∃ us vs, symbol.Writes us ∧ Write below vs ∧ ts = us ++ vs := Iff.rfl

theorem write_single {symbol : Symbol} : Write [symbol] ts ↔ symbol.Writes ts := by
  simp

theorem write_append : Write (stack ++ below) ts ↔
    ∃ us vs, Write stack us ∧ Write below vs ∧ ts = us ++ vs := by
  induction stack generalizing ts with
  | nil => simp
  | cons symbol stack ih =>
      simp only [List.cons_append, write_cons, ih]
      constructor
      · rintro ⟨us, _, hus, ⟨vs, ws, hvs, hws, rfl⟩, rfl⟩
        exact ⟨us ++ vs, ws, ⟨us, vs, hus, hvs, rfl⟩, hws, by simp⟩
      · rintro ⟨_, ws, ⟨us, vs, hus, hvs, rfl⟩, hws, rfl⟩
        exact ⟨us, vs ++ ws, hus, ⟨vs, ws, hvs, hws, rfl⟩, by simp⟩

end Symbols

theorem AreDots.cons {ts : List Token} (h : AreDots ts) (text : String) :
    AreDots (.dot :: .word text :: ts) := by
  obtain ⟨names, rfl⟩ := h
  exact ⟨text :: names, rfl⟩

/-- A name may be put together from its first part and what may follow it. -/
theorem Extra.Adds.exists_name {ts : List Token} (h : Extra.name.Adds ts) (text : String) :
    ∃ name : Name, name.IsProper ∧ name ≠ .fragment ∧ name.tokens = .word text :: ts := by
  rcases h with ⟨second, rfl⟩ | ⟨names, rfl⟩
  · exact ⟨.namespaced text second, trivial, by simp, rfl⟩
  · cases names with
    | nil => exact ⟨.plain text, trivial, by simp, rfl⟩
    | cons second others =>
        exact ⟨.member (text :: second :: others), by simp [Name.IsProper], by simp, rfl⟩

namespace Symbol

/-- What follows its name, if it has one, completes an element. -/
theorem isLooseElement_of_named {names ts : List Token} {text : String}
    (hnames : Extra.name.Adds names) (h : (items true).Writes ts) :
    IsLooseElement (.less :: .word text :: (names ++ ts)) := by
  obtain ⟨name, hproper, hne, htokens⟩ := hnames.exists_name text
  obtain ⟨us, _, hus, ⟨-, rfl⟩ | ⟨_, ⟨cs, name', hcs, hproper', rfl⟩, rfl⟩, rfl⟩ := h
  · have hsingle := IsLooseElement.single hproper hne hus
    simpa [htokens] using hsingle
  · have hpair := IsLooseElement.pair hproper hproper' (fun heq => absurd heq hne) hus hcs
    simpa [htokens] using hpair

theorem isLooseElement_of_bare {ts : List Token} (h : (items false).Writes ts)
    (hfirst : ∀ text others, ts ≠ .word text :: others) : IsLooseElement (.less :: ts) := by
  obtain ⟨us, _, hus, ⟨hfalse, -⟩ | ⟨_, ⟨cs, name', hcs, hproper', rfl⟩, rfl⟩, rfl⟩ := h
  · cases hfalse
  · refine @IsLooseElement.pair .fragment name' us cs trivial hproper'
      (fun _ text others heq => ?_) hus hcs
    rw [heq] at hfirst
    exact hfirst text _ rfl

/-- After a `<` in an element comes what its first token leaves to come. -/
theorem opening_writes {t : Token} {below : Symbols} {ts : List Token}
    (h : afterOpening t = some below) (hts : below.Write ts) : opening.Writes (t :: ts) := by
  unfold afterOpening at h
  split at h <;> cases h
  · obtain ⟨names, us, hnames, hus, rfl⟩ := Symbols.write_single.1 hts
    exact isLooseElement_of_named hnames hus
  · obtain ⟨_, _, rfl, ⟨_, _, ⟨us, hus, rfl⟩, hrest, rfl⟩, rfl⟩ := hts
    obtain ⟨is, vs, his, hvs, rfl⟩ := Symbols.write_single.1 hrest
    refine isLooseElement_of_bare ⟨_, vs, .cons (IsItem.spread hus) his, hvs, ?_⟩ (by simp)
    simp
  · exact isLooseElement_of_bare ⟨[], _, .nil, Or.inr ⟨_, Symbols.write_single.1 hts, rfl⟩, rfl⟩
      (by simp)

/-- A word and what follows it in a closing tag. -/
theorem closing_writes {names : List Token} (h : Extra.name.Adds names) (text : String) :
    closing.Writes (.word text :: (names ++ [.greater])) := by
  obtain ⟨name, hproper, -, htokens⟩ := h.exists_name text
  exact ⟨name, hproper, by rw [htokens]; rfl⟩

/-- An element among children, whose `<` has been read. -/
theorem less_writes {us vs : List Token} (h : opening.Writes us) (h' : children.Writes vs) :
    less.Writes (us ++ vs) := by
  obtain ⟨cs, name, hcs, hproper, rfl⟩ := h'
  refine ⟨(.less :: us) :: cs, name, fun c hc => ?_, hproper, by simp⟩
  rcases List.mem_cons.1 hc with rfl | hc
  · exact .element h
  · exact hcs c hc

/-- One more child before the others. -/
theorem children_writes {us vs : List Token} (h : IsLooseChild us) (h' : children.Writes vs) :
    children.Writes (us ++ vs) := by
  obtain ⟨cs, name, hcs, hproper, rfl⟩ := h'
  refine ⟨us :: cs, name, fun c hc => ?_, hproper, by simp⟩
  rcases List.mem_cons.1 hc with rfl | hc
  · exact h
  · exact hcs c hc

theorem items_writes {isNamed : Bool} {us vs : List Token} (h : IsItem us)
    (h' : (items isNamed).Writes vs) : (items isNamed).Writes (us ++ vs) := by
  obtain ⟨is, ws, his, hws, rfl⟩ := h'
  exact ⟨us ++ is, ws, .cons h his, hws, by simp⟩

theorem after_less {t : Token} (h : t ≠ .slash) :
    less.after t = (afterOpening t).map (· ++ [children]) := by
  cases t <;> first | rfl | exact absurd rfl h

theorem after_inside {t : Token} (h : t.isBrace = false) : inside.after t = some [inside] := by
  cases t <;> first | rfl | cases h

theorem after_maybe {extra : Extra} {next : Symbol} {t : Token} (h : extra.starts t = false) :
    (maybe extra next).after t = next.after t := by
  cases extra <;> cases t <;> first | rfl | cases h

section FirstToken

variable {t : Token} {below : Symbols} {ts : List Token} (hts : below.Write ts)
include hts

theorem value_writes_of_after (h : value.after t = some below) : value.Writes (t :: ts) := by
  cases t with
  | openBrace =>
      cases h
      obtain ⟨us, hus, rfl⟩ := Symbols.write_single.1 hts
      exact .braced (.braces hus)
  | quoted text =>
      cases h
      obtain rfl := Symbols.write_nil.1 hts
      exact .quoted
  | _ => cases h

theorem inside_writes_of_after (h : inside.after t = some below) : inside.Writes (t :: ts) := by
  cases hbrace : t.isBrace with
  | true =>
      cases t with
      | openBrace =>
          cases h
          obtain ⟨_, _, ⟨us, hus, rfl⟩, hinside, rfl⟩ := hts
          obtain ⟨vs, hvs, rfl⟩ := Symbols.write_single.1 hinside
          exact ⟨.openBrace :: (us ++ .closeBrace :: vs), .group hus hvs, by simp⟩
      | closeBrace =>
          cases h
          obtain rfl := Symbols.write_nil.1 hts
          exact ⟨[], .nil, rfl⟩
      | _ => cases hbrace
  | false =>
      rw [after_inside hbrace] at h
      cases h
      obtain ⟨us, hus, rfl⟩ := Symbols.write_single.1 hts
      exact ⟨t :: us, .single hbrace hus, rfl⟩

theorem items_writes_of_after {isNamed : Bool} (h : (items isNamed).after t = some below) :
    (items isNamed).Writes (t :: ts) := by
  cases t with
  | slash =>
      cases isNamed <;> cases h
      obtain rfl := Symbols.write_single.1 hts
      exact ⟨[], _, .nil, Or.inl ⟨rfl, rfl⟩, rfl⟩
  | greater =>
      cases h
      exact ⟨[], _, .nil, Or.inr ⟨_, Symbols.write_single.1 hts, rfl⟩, rfl⟩
  | openBrace =>
      cases h
      obtain ⟨_, _, rfl, ⟨_, _, ⟨us, hus, rfl⟩, hrest, rfl⟩, rfl⟩ := hts
      have hwrites := items_writes (IsItem.spread hus) (Symbols.write_single.1 hrest)
      simpa using hwrites
  | word text =>
      cases h
      obtain ⟨us, vs, hus | ⟨name, us, hus, rfl⟩, hvs, rfl⟩ := Symbols.write_single.1 hts
      · exact items_writes (.plain hus) hvs
      · exact items_writes (.spaced hus) hvs
  | _ => cases h

theorem children_writes_of_after (h : children.after t = some below) :
    children.Writes (t :: ts) := by
  cases t with
  | less =>
      cases h
      have hless : less.Writes ts := Symbols.write_single.1 hts
      exact hless
  | openBrace =>
      cases h
      obtain ⟨_, vs, ⟨us, hus, rfl⟩, hvs, rfl⟩ := hts
      exact children_writes (.braced (.braces hus)) (Symbols.write_single.1 hvs)
  | prose text =>
      cases h
      exact children_writes .prose (Symbols.write_single.1 hts)
  | _ => cases h

theorem less_writes_of_after (h : less.after t = some below) : less.Writes (t :: ts) := by
  by_cases hslash : t = .slash
  · subst hslash
    cases h
    obtain ⟨name, hproper, rfl⟩ := Symbols.write_single.1 hts
    exact ⟨[], name, by simp, hproper, rfl⟩
  · rw [after_less hslash] at h
    obtain ⟨stack, hstack, rfl⟩ := Option.map_eq_some_iff.1 h
    obtain ⟨us, vs, hus, hvs, rfl⟩ := Symbols.write_append.1 hts
    exact less_writes (opening_writes hstack hus) (Symbols.write_single.1 hvs)

theorem closing_writes_of_after (h : closing.after t = some below) : closing.Writes (t :: ts) := by
  cases t with
  | greater =>
      cases h
      obtain rfl := Symbols.write_nil.1 hts
      exact ⟨.fragment, trivial, rfl⟩
  | word text =>
      cases h
      obtain ⟨names, _, hnames, rfl, rfl⟩ := Symbols.write_single.1 hts
      exact closing_writes hnames text
  | _ => cases h

/-- Where an extra is added, the first token decides what it is. -/
theorem maybe_writes_of_starts {extra : Extra} {next : Symbol} (hstarts : extra.starts t = true)
    (h : (maybe extra next).after t = some below) : (maybe extra next).Writes (t :: ts) := by
  cases extra with
  | name =>
      cases t with
      | dot =>
          cases h
          obtain ⟨_, _, ⟨text, rfl⟩, hrest, rfl⟩ := hts
          obtain ⟨us, vs, hus, hvs, rfl⟩ := Symbols.write_single.1 hrest
          exact ⟨_, vs, Or.inr (hus.cons text), hvs, rfl⟩
      | colon =>
          cases h
          obtain ⟨_, vs, ⟨text, rfl⟩, hvs, rfl⟩ := hts
          exact ⟨_, vs, Or.inl ⟨text, rfl⟩, Symbols.write_single.1 hvs, rfl⟩
      | _ => cases hstarts
  | dots =>
      cases t with
      | dot =>
          cases h
          obtain ⟨_, _, ⟨text, rfl⟩, hrest, rfl⟩ := hts
          obtain ⟨us, vs, hus, hvs, rfl⟩ := Symbols.write_single.1 hrest
          exact ⟨_, vs, hus.cons text, hvs, rfl⟩
      | _ => cases hstarts
  | attr =>
      cases t with
      | equals =>
          cases h
          obtain ⟨us, vs, hus, hvs, rfl⟩ := hts
          exact ⟨.equals :: us, vs, Or.inl hus, Symbols.write_single.1 hvs, rfl⟩
      | colon =>
          cases h
          obtain ⟨_, _, ⟨text, rfl⟩, hrest, rfl⟩ := hts
          obtain ⟨us, vs, hus, hvs, rfl⟩ := Symbols.write_single.1 hrest
          exact ⟨_, vs, Or.inr ⟨text, us, hus, rfl⟩, hvs, rfl⟩
      | _ => cases hstarts
  | value =>
      cases t with
      | equals =>
          cases h
          obtain ⟨us, vs, hus, hvs, rfl⟩ := hts
          exact ⟨.equals :: us, vs, hus, Symbols.write_single.1 hvs, rfl⟩
      | _ => cases hstarts

end FirstToken

/-- With one of its first tokens and what that leaves to come a symbol is complete. -/
theorem writes_of_after {symbol : Symbol} {t : Token} {below : Symbols} {ts : List Token}
    (h : symbol.after t = some below) (hts : below.Write ts) : symbol.Writes (t :: ts) := by
  induction symbol generalizing below with
  | exactly expected =>
      unfold after at h
      split at h <;> cases h
      next heq =>
        obtain rfl := Symbols.write_nil.1 hts
        rw [heq]
        rfl
  | word =>
      cases t <;> cases h
      obtain rfl := Symbols.write_nil.1 hts
      exact ⟨_, rfl⟩
  | value => exact value_writes_of_after hts h
  | inside => exact inside_writes_of_after hts h
  | items isNamed => exact items_writes_of_after hts h
  | children => exact children_writes_of_after hts h
  | opening => exact opening_writes h hts
  | less => exact less_writes_of_after hts h
  | closing => exact closing_writes_of_after hts h
  | maybe extra next ih =>
      cases hstarts : extra.starts t with
      | true => exact maybe_writes_of_starts hts hstarts h
      | false =>
          -- nothing is added, and the token belongs to what comes next
          rw [after_maybe hstarts] at h
          exact ⟨[], _, extra.adds_nil, ih h hts, rfl⟩

/-- Every symbol can be completed. -/
theorem exists_writes (symbol : Symbol) : ∃ ts, symbol.Writes ts := by
  have hcontent : IsContent [.less, .slash, .greater] :=
    ⟨[], .fragment, by simp, trivial, rfl⟩
  induction symbol with
  | exactly t => exact ⟨[t], rfl⟩
  | word => exact ⟨[.word ""], "", rfl⟩
  | value => exact ⟨[.quoted ""], .quoted⟩
  | inside => exact ⟨[.closeBrace], [], .nil, rfl⟩
  | items isNamed => exact ⟨_, [], _, .nil, Or.inr ⟨_, hcontent, rfl⟩, rfl⟩
  | children => exact ⟨_, hcontent⟩
  | opening =>
      exact ⟨_, isLooseElement_of_bare ⟨[], _, .nil, Or.inr ⟨_, hcontent, rfl⟩, rfl⟩ (by simp)⟩
  | less => exact ⟨_, hcontent⟩
  | closing => exact ⟨[.greater], .fragment, trivial, rfl⟩
  | maybe extra next ih =>
      obtain ⟨ts, hts⟩ := ih
      exact ⟨ts, [], ts, extra.adds_nil, hts, rfl⟩

end Symbol

/-! ### Stacks and documents -/

namespace Symbols

variable {stack : Symbols}

/-- Among children, what follows a `<` is an element unless it is a slash. -/
theorem step_less {t : Token} (h : t ≠ .slash) :
    step (.less :: stack) t = step (.opening :: .children :: stack) t := by
  rw [step, step, Symbol.after_less h, Symbol.after, Option.map_map]
  congr 1
  funext above
  simp

/-- The token lists that complete a document, after those that led to the stack. -/
def Completes (stack : Symbols) (ts : List Token) : Prop :=
  ∃ us vs, stack.Write us ∧ IsLooseDocument vs ∧ ts = us ++ vs

theorem completes_of_step {t : Token} {next : Symbols} {ts : List Token}
    (h : stack.step t = some next) (hts : next.Completes ts) : stack.Completes (t :: ts) := by
  obtain ⟨us, vs, hus, hvs, rfl⟩ := hts
  cases stack with
  | nil =>
      rw [step_nil] at h
      split at h <;> cases h
      next heq =>
        subst heq
        exact ⟨[], .less :: us ++ vs, rfl, .cons (write_single.1 hus) hvs, rfl⟩
  | cons symbol below =>
      obtain ⟨above, habove, rfl⟩ := Option.map_eq_some_iff.1 h
      obtain ⟨ws, xs, hws, hxs, rfl⟩ := write_append.1 hus
      exact ⟨t :: ws ++ xs, vs, ⟨t :: ws, xs, Symbol.writes_of_after habove hws, hxs, rfl⟩, hvs,
        by simp⟩

theorem completes_of_run {us ts : List Token} {next : Symbols} (h : stack.run us = some next)
    (hts : next.Completes ts) : stack.Completes (us ++ ts) := by
  induction us generalizing stack with
  | nil =>
      obtain rfl := Option.some.inj h
      exact hts
  | cons t us ih =>
      obtain ⟨mid, hmid, hus⟩ := Option.bind_eq_some_iff.1 h
      exact completes_of_step hmid (ih hus)

theorem exists_completes (stack : Symbols) : ∃ ts, stack.Completes ts := by
  induction stack with
  | nil => exact ⟨[], [], [], rfl, .nil, rfl⟩
  | cons symbol below ih =>
      obtain ⟨_, us, vs, hus, hvs, rfl⟩ := ih
      obtain ⟨ts, hts⟩ := symbol.exists_writes
      exact ⟨ts ++ us ++ vs, ts ++ us, vs, ⟨ts, us, hts, hus, rfl⟩, hvs, rfl⟩

end Symbols

/-- Tokens that the stack takes begin a document. -/
theorem viable_of_run {front : List Token} {stack : Symbols}
    (h : Symbols.run [] front = some stack) : Viable front := by
  obtain ⟨more, hmore⟩ := stack.exists_completes
  obtain ⟨_, vs, rfl, hvs, heq⟩ := Symbols.completes_of_run h hmore
  exact ⟨more, by rwa [heq]⟩

end RoleAudit.Markup
