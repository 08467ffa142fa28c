import RoleAudit.Proofs.Extents
import RoleAudit.Proofs.Lockstep
import RoleAudit.Proofs.Relexing

/-!
# A phrase under two stacks

What a phrase does to the stack of modes depends on the top of it only.  So if the same phrase is
read under two stacks that the phrase may start with, the same scanners read it, place by place, and
both stacks come to what the phrase makes of them.  `Coupled` says so of two runs over the same
lexemes, and tells which stretches of them write elements: where an element starts, no tag is read.

As in one run alone, nothing that is skipped may hold a `<`.

Main statements: `Written.isCoupled`, by induction on the derivation, and `Coupled.exists_of_among`.
-/

namespace RoleAudit.Markup

open RoleAudit.Text (Span)
open Reader Grammar

/-! ### Two runs over the same lexemes -/

namespace Modes

variable {modes modes' : Modes}

theorem scanner_settled (modes : Modes) : modes.settled.scanner = modes.scanner := by
  match modes with
  | .tag _ :: _ | .code :: _ | .prose :: _ | [] => rfl

theorem InCode.scanner_eq (h : modes.InCode) (h' : modes'.InCode) :
    modes.scanner = modes'.scanner := by
  match modes, modes', h, h' with
  | .code :: _, .code :: _, _, _ => rfl

theorem InTag.scanner_eq (h : modes.InTag) (h' : modes'.InTag) :
    modes.scanner = modes'.scanner := by
  match modes, modes', h, h' with
  | .tag _ :: _, .tag _ :: _, _, _ => rfl

theorem scanner_eq_of_prose (h : modes.head? = some .prose) (h' : modes'.head? = some .prose) :
    modes.scanner = modes'.scanner := by
  match modes, modes', h, h' with
  | .prose :: _, .prose :: _, _, _ => rfl

end Modes

/-- Two stacks lead over the same lexemes, under the same scanner at every place.  The elements are
written by stretches of the lexemes, in order; where one starts, neither stack is that of a tag, and
where it stops, both are as they were. -/
inductive Coupled (skip : List Lexeme → Prop) :
    Modes → Modes → List Lexeme → List Element → Modes → Modes → Prop
  | nil {modes modes' : Modes} (h : modes.scanner = modes'.scanner) :
      Coupled skip modes modes' [] [] modes modes'
  | lexeme {modes modes' after after' : Modes} {t : Lexeme} {ts : List Lexeme} {es : List Element}
      (h : modes.scanner = modes'.scanner)
      (hrest : Coupled skip (modes.after t.token) (modes'.after t.token) ts es after after') :
      Coupled skip modes modes' (t :: ts) es after after'
  | element {modes modes' after after' : Modes} {us ts : List Lexeme} {e : Element}
      {es : List Element} (hwritten : Written skip us (.element e)) (hmodes : ¬ modes.InTag)
      (hmodes' : ¬ modes'.InTag) (hthrough : modes.through us = modes)
      (hthrough' : modes'.through us = modes') (habreast : Abreast modes modes' us)
      (hrest : Coupled skip modes modes' ts es after after') :
      Coupled skip modes modes' (us ++ ts) (e :: es) after after'

namespace Coupled

variable {skip : List Lexeme → Prop} {modes modes' mid mid' after after' : Modes}
  {ts us : List Lexeme} {es fs : List Element}

theorem through (h : Coupled skip modes modes' ts es after after') :
    modes.through ts = after ∧ modes'.through ts = after' := by
  induction h with
  | nil _ => exact ⟨rfl, rfl⟩
  | lexeme _ _ ih => exact ih
  | element _ _ _ hthrough hthrough' _ _ ih =>
      rw [Modes.through_append, Modes.through_append, hthrough, hthrough']
      exact ih

theorem abreast (h : Coupled skip modes modes' ts es after after') : Abreast modes modes' ts := by
  induction h with
  | nil h => exact .nil h
  | lexeme h _ ih => exact .cons h ih
  | element _ _ _ hthrough hthrough' habreast _ ih =>
      exact habreast.append (by rwa [hthrough, hthrough'])

theorem append (h : Coupled skip modes modes' ts es mid mid')
    (h' : Coupled skip mid mid' us fs after after') :
    Coupled skip modes modes' (ts ++ us) (es ++ fs) after after' := by
  induction h with
  | nil _ => exact h'
  | lexeme h _ ih => exact .lexeme h (ih h')
  | element hwritten hmodes hmodes' hthrough hthrough' habreast _ ih =>
      rw [List.append_assoc]
      exact .element hwritten hmodes hmodes' hthrough hthrough' habreast (ih h')

/-- A lexeme that goes on with code. -/
theorem code {t : Lexeme} (h : modes.InCode) (h' : modes'.InCode) (hless : t.token ≠ .less)
    (hbrace : t.token.isBrace = false) : Coupled skip modes modes' [t] [] modes modes' := by
  refine .lexeme (h.scanner_eq h') ?_
  rw [h.after hless hbrace, h'.after hless hbrace]
  exact .nil (h.scanner_eq h')

/-- Code after a lexeme that goes on with it. -/
theorem code_cons {t : Lexeme} (h : modes.InCode) (h' : modes'.InCode) (hless : t.token ≠ .less)
    (hbrace : t.token.isBrace = false) (hrest : Coupled skip modes modes' ts es after after') :
    Coupled skip modes modes' (t :: ts) es after after' :=
  (code h h' hless hbrace).append hrest

/-- Code in parentheses. -/
theorem parens (left right : Span) (h : modes.InCode) (h' : modes'.InCode)
    (hinside : Coupled skip modes modes' ts es modes modes') :
    Coupled skip modes modes' (⟨.openParen, left⟩ :: (ts ++ [⟨.closeParen, right⟩])) es modes
      modes' := by
  have hclosed := hinside.append (code (t := ⟨.closeParen, right⟩) h h' (by simp) rfl)
  rw [List.append_nil] at hclosed
  exact code_cons h h' (by simp) rfl hclosed

/-- A lexeme that goes on with a tag. -/
theorem tag {t : Lexeme} (h : modes.InTag) (h' : modes'.InTag) (ht : t.token.goesOnTag = true) :
    Coupled skip modes modes' [t] [] modes.settled modes'.settled := by
  refine .lexeme (h.scanner_eq h') ?_
  rw [h.after ht, h'.after ht]
  exact .nil (h.settled.scanner_eq h'.settled)

/-- A tag after a lexeme that goes on with it. -/
theorem tag_cons {t : Lexeme} (h : modes.InTag) (h' : modes'.InTag)
    (ht : t.token.goesOnTag = true)
    (hrest : Coupled skip modes.settled modes'.settled ts es after after') :
    Coupled skip modes modes' (t :: ts) es after after' :=
  (tag h h' ht).append hrest

/-- A name goes on with a tag. -/
theorem name {name : Name} (h : modes.InTag) (h' : modes'.InTag)
    (hts : ts.map Lexeme.token = name.tokens) :
    Coupled skip modes modes' ts [] (modes.onward ts) (modes'.onward ts) := by
  have hall : ∀ t ∈ ts, t.token.goesOnTag = true := by
    intro t ht
    have hmem : t.token ∈ name.tokens := hts ▸ List.mem_map_of_mem ht
    rcases Name.mem_tokens hmem with ⟨text, htoken⟩ | htoken | htoken <;> rw [htoken] <;> rfl
  clear hts
  induction ts generalizing modes modes' with
  | nil => exact nil (h.scanner_eq h')
  | cons t ts ih =>
      have htail := ih h.settled h'.settled fun u hu => hall u (List.mem_cons_of_mem _ hu)
      have hboth := tag_cons h h' (hall t List.mem_cons_self) htail
      rwa [Modes.settled_onward, Modes.settled_onward, ← Modes.onward_cons modes t ts,
        ← Modes.onward_cons modes' t ts] at hboth

/-- Braces around what is read as code lead back to the stacks before them. -/
theorem braces {left right : Span} (hscanner : modes.scanner = modes'.scanner)
    (h : Coupled skip (.code :: modes.settled) (.code :: modes'.settled) ts es
      (.code :: modes.settled) (.code :: modes'.settled)) :
    Coupled skip modes modes' (⟨.openBrace, left⟩ :: (ts ++ [⟨.closeBrace, right⟩])) es
      modes.settled modes'.settled := by
  have hclose : Coupled skip (.code :: modes.settled) (.code :: modes'.settled)
      [⟨.closeBrace, right⟩] [] modes.settled modes'.settled := by
    have hsettled : modes.settled.scanner = modes'.settled.scanner := by
      rw [modes.scanner_settled, modes'.scanner_settled, hscanner]
    exact .lexeme rfl (.nil hsettled)
  have hinside := h.append hclose
  rw [List.append_nil, ← modes.after_openBrace, ← modes'.after_openBrace] at hinside
  exact .lexeme hscanner hinside

/-- What is skipped is read as code, throughout. -/
theorem balanced {toks : List Token} (h : Balanced toks) :
    ∀ {modes modes' : Modes} {ts : List Lexeme}, modes.InCode → modes'.InCode →
      ts.map Lexeme.token = toks → (∀ t ∈ ts, t.token ≠ .less) →
        Coupled skip modes modes' ts [] modes modes' := by
  induction h with
  | nil =>
      intro modes modes' ts hmodes hmodes' hts _
      obtain rfl := List.map_eq_nil_iff.1 hts
      exact .nil (hmodes.scanner_eq hmodes')
  | @single t rest ht _ ih =>
      intro modes modes' ts hmodes hmodes' hts hless
      obtain ⟨span, us, rfl, hus⟩ := lexemes_cons hts
      exact code_cons hmodes hmodes' (hless _ List.mem_cons_self) ht
        (ih hmodes hmodes' hus fun u hu => hless u (List.mem_cons_of_mem _ hu))
  | group _ _ ih ih' =>
      intro modes modes' ts hmodes hmodes' hts hless
      obtain ⟨left, _, rfl, hts'⟩ := lexemes_cons hts
      obtain ⟨us, _, rfl, hus, hclose⟩ := List.map_eq_append_iff.1 hts'
      obtain ⟨right, vs, rfl, hvs⟩ := lexemes_cons hclose
      have hinside := @ih (.code :: modes.settled) (.code :: modes'.settled) us rfl rfl hus
        fun u hu => hless u (by simp [hu])
      have hgroup : Coupled skip modes modes'
          (⟨.openBrace, left⟩ :: (us ++ [⟨.closeBrace, right⟩])) [] modes.settled modes'.settled :=
        .braces (hmodes.scanner_eq hmodes') hinside
      rw [Modes.settled_of_not_inTag hmodes.not_inTag,
        Modes.settled_of_not_inTag hmodes'.not_inTag] at hgroup
      simpa using hgroup.append (ih' hmodes hmodes' hvs fun u hu => hless u (by simp [hu]))

end Coupled

/-- What stands in a skipped part holds no `<`. -/
theorem Clean.ne_less {left right : Lexeme} {inside : List Lexeme} {parts : List Part} {part : Part}
    (hclean : Clean (left :: (inside ++ [right])) parts) (hpart : part ∈ parts)
    (hskipped : part.isSkipped = true) (hspan : part.span = ⟨left.span.start, right.span.stop⟩) :
    ∀ t ∈ inside, t.token ≠ .less := fun t ht =>
  hclean.skipped part hpart hskipped t (by simp [ht]) (hspan ▸ hclean.within t (by simp [ht]))

/-- Between its `<` and its `>`, an element is read as a tag is, and both stacks are left as they
were. -/
def Encloses (skip : List Lexeme → Prop) (modes modes' : Modes) (ts : List Lexeme) (e : Element) :
    Prop :=
  ∃ left inside right last last', ts = ⟨.less, left⟩ :: (inside ++ [⟨.greater, right⟩]) ∧
    Coupled skip (.tag {} :: modes) (.tag {} :: modes') inside e.nested last last' ∧
    last.InTag ∧ last'.InTag ∧ last.after .greater = modes ∧ last'.after .greater = modes'

/-- An element as part of what is around it. -/
theorem Encloses.coupled {skip : List Lexeme → Prop} {modes modes' : Modes} {ts : List Lexeme}
    {e : Element} (h : Encloses skip modes modes' ts e) (hwritten : Written skip ts (.element e))
    (hmodes : ¬ modes.InTag) (hmodes' : ¬ modes'.InTag)
    (hscanner : modes.scanner = modes'.scanner) :
    Coupled skip modes modes' ts [e] modes modes' := by
  obtain ⟨left, inside, right, last, last', rfl, hinside, hlast, hlast', hback, hback'⟩ := h
  obtain ⟨hthrough, hthrough'⟩ := hinside.through
  have hend : Abreast last last' [⟨.greater, right⟩] :=
    .cons (hlast.scanner_eq hlast') (.nil (by rw [hback, hback', hscanner]))
  have habreast : Abreast modes modes' (⟨.less, left⟩ :: (inside ++ [⟨.greater, right⟩])) := by
    refine .cons hscanner ?_
    rw [Modes.after_less hmodes, Modes.after_less hmodes']
    exact hinside.abreast.append (by rwa [hthrough, hthrough'])
  have helement := Coupled.element hwritten hmodes hmodes'
    (by simp [Modes.after_less hmodes, hthrough, hback])
    (by simp [Modes.after_less hmodes', hthrough', hback']) habreast (.nil hscanner)
  rwa [List.append_nil] at helement

/-! ### The derivation and two stacks -/

/-- Two stacks that the phrase may start with are coupled over its lexemes, and come to what the
phrase makes of them. -/
def Phrase.IsCoupled (skip : List Lexeme → Prop) (ts : List Lexeme) : Phrase → Prop
  | .expr _ e => ∀ modes modes' : Modes, modes.InCode → modes'.InCode →
      Clean ts (partsOf e.events) → Coupled skip modes modes' ts e.elements modes modes'
  | .arguments es | .furtherArguments es => ∀ modes modes' : Modes, modes.InCode → modes'.InCode →
      Clean ts (partsOf (exprsEvents es)) →
        Coupled skip modes modes' ts (exprsElements es) modes modes'
  | .container c => ∀ modes modes' : Modes, modes.scanner = modes'.scanner →
      Clean ts (.container c :: partsOf c.events) →
        Coupled skip modes modes' ts c.elements modes.settled modes'.settled
  | .value v => ∀ modes modes' : Modes, modes.InTag → modes'.InTag →
      Clean ts (valueGroups v ++ partsOf (valueEvents v)) →
        Coupled skip modes modes' ts (valueElements v) (modes.onward ts) (modes'.onward ts)
  | .item i => ∀ modes modes' : Modes, modes.InTag → modes'.InTag →
      Clean ts (i.groups ++ partsOf i.events) →
        Coupled skip modes modes' ts i.elements modes.settled modes'.settled
  | .items is => ∀ modes modes' : Modes, modes.InTag → modes'.InTag → Clean ts (itemsParts is) →
      Coupled skip modes modes' ts (is.flatMap TagItem.elements) (modes.onward ts)
        (modes'.onward ts)
  | .child c => ∀ modes modes' : Modes, modes.head? = some .prose → modes'.head? = some .prose →
      Clean ts (c.groups ++ partsOf c.events) → Coupled skip modes modes' ts c.elements modes modes'
  | .children cs => ∀ modes modes' : Modes, modes.head? = some .prose →
      modes'.head? = some .prose → Clean ts (childrenParts cs) →
        Coupled skip modes modes' ts (cs.flatMap Child.elements) modes modes'
  | .element e => ∀ modes modes' : Modes, ¬ modes.InTag → ¬ modes'.InTag →
      Clean ts (partsOf e.events) → Encloses skip modes modes' ts e
  | .elements es => ∀ modes modes' : Modes, ¬ modes.InTag → ¬ modes'.InTag →
      modes.scanner = modes'.scanner → Clean ts (partsOf (walk es)) →
        Coupled skip modes modes' ts es modes modes'

namespace Phrase

variable {skip : List Lexeme → Prop}

theorem isCoupled_single {left slash right : Span} {names us : List Lexeme} {name : Name}
    {items : List TagItem} (hproper : name.IsProper) (hne : name ≠ .fragment)
    (hname : names.map Lexeme.token = name.tokens) (ih : IsCoupled skip us (.items items)) :
    IsCoupled skip (⟨.less, left⟩ :: (names ++ (us ++ [⟨.slash, slash⟩, ⟨.greater, right⟩])))
      (.element (.single ⟨name, items, ⟨left.start, right.stop⟩⟩)) := by
  intro modes modes' _ _ hclean
  obtain ⟨t, names, rfl⟩ : ∃ t us, names = t :: us := List.exists_cons_of_ne_nil (by
    rintro rfl
    exact hne (name.eq_fragment_of_tokens hproper hname.symm))
  -- after its name, whatever stands in it, the tag is settled until the slash
  have hin : ∀ outer : Modes, Modes.InTag (.tag {} :: outer) := fun outer => ⟨_, rfl⟩
  have hnames : Coupled skip _ _ _ [] _ _ := .name (hin modes) (hin modes') hname
  have hitems := ih _ _ (hin modes).settled (hin modes').settled
    (hclean.tail.right.left.mono fun part hpart => mem_parts_single.2 (Or.inr hpart))
  have hslash : Coupled skip (.tag ⟨false, false, false⟩ :: modes)
      (.tag ⟨false, false, false⟩ :: modes') [⟨.slash, slash⟩] []
      (.tag ⟨false, false, true⟩ :: modes) (.tag ⟨false, false, true⟩ :: modes') :=
    .lexeme rfl (.nil rfl)
  rw [Modes.settled_onward, Modes.settled_onward] at hitems
  refine ⟨left, t :: names ++ (us ++ [⟨.slash, slash⟩]), right, .tag ⟨false, false, true⟩ :: modes,
    .tag ⟨false, false, true⟩ :: modes', by simp, ?_, ⟨_, rfl⟩, ⟨_, rfl⟩, rfl, rfl⟩
  simpa using hnames.append (hitems.append hslash)

theorem isCoupled_pair {left right left' slash right' : Span} {names us vs names' : List Lexeme}
    {name : Name} {items : List TagItem} {children : List Child}
    (hname : names.map Lexeme.token = name.tokens)
    (hclosing : names'.map Lexeme.token = name.tokens) (ih : IsCoupled skip us (.items items))
    (ih' : IsCoupled skip vs (.children children)) :
    IsCoupled skip
      (⟨.less, left⟩ :: (names ++ (us ++ ⟨.greater, right⟩ :: (vs ++
        ⟨.less, left'⟩ :: ⟨.slash, slash⟩ :: (names' ++ [⟨.greater, right'⟩])))))
      (.element (.pair ⟨name, items, ⟨left.start, right.stop⟩⟩ children
        ⟨left'.start, right'.stop⟩)) := by
  intro modes modes' _ _ hclean
  have hin : ∀ outer : Modes, Modes.InTag (.tag {} :: outer) := fun outer => ⟨_, rfl⟩
  have hnames : Coupled skip _ _ _ [] _ _ := .name (hin modes) (hin modes') hname
  have hinside := hnames.append (ih _ _ ((hin modes).onward names) ((hin modes').onward names)
      (hclean.tail.right.left.mono fun part hpart => mem_parts_pair.2 (Or.inr (Or.inl hpart))))
  -- the opening tag leads into prose
  have hprose : ∀ outer : Modes,
      ((Modes.onward (.tag {} :: outer) names).onward us).after .greater = .prose :: outer := by
    intro outer
    rw [← Modes.onward_append]
    unfold Modes.onward
    split <;> rfl
  have hopened : Coupled skip ((Modes.onward (.tag {} :: modes) names).onward us)
      ((Modes.onward (.tag {} :: modes') names).onward us) [⟨.greater, right⟩] []
      (.prose :: modes) (.prose :: modes') := by
    refine .lexeme ((((hin modes).onward names).onward us).scanner_eq
      (((hin modes').onward names).onward us)) ?_
    rw [hprose, hprose]
    exact .nil rfl
  have hchildren := ih' (.prose :: modes) (.prose :: modes') rfl rfl
    (hclean.tail.right.right.tail.left.mono
      fun part hpart => mem_parts_pair.2 (Or.inr (Or.inr hpart)))
  -- the closing tag is opened in prose, and has shown a slash
  have hin' : ∀ outer : Modes, Modes.InTag (.tag ⟨false, true, true⟩ :: outer) :=
    fun outer => ⟨_, rfl⟩
  have hslash : Coupled skip (.prose :: modes) (.prose :: modes')
      [⟨.less, left'⟩, ⟨.slash, slash⟩] [] (.tag ⟨false, true, true⟩ :: .prose :: modes)
      (.tag ⟨false, true, true⟩ :: .prose :: modes') := .lexeme rfl (.lexeme rfl (.nil rfl))
  have hclosed := hslash.append
    (Coupled.name (hin' (.prose :: modes)) (hin' (.prose :: modes')) hclosing)
  have hback : ∀ outer : Modes, (Modes.onward (.tag ⟨false, true, true⟩ :: .prose :: outer)
      names').after .greater = outer := by
    intro outer
    unfold Modes.onward
    split <;> rfl
  refine ⟨left, names ++ (us ++ ⟨.greater, right⟩ :: (vs ++ ⟨.less, left'⟩ :: ⟨.slash, slash⟩ ::
    names')), right', _, _, by simp, ?_, (hin' _).onward names', (hin' _).onward names', hback _,
    hback _⟩
  simpa using hinside.append (hopened.append (hchildren.append hclosed))

end Phrase

/-- Over whatever is written, two stacks that it may start with are coupled. -/
theorem Written.isCoupled {skip : List Lexeme → Prop} {ts : List Lexeme} {phrase : Phrase}
    (h : Written skip ts phrase) : phrase.IsCoupled skip ts := by
  induction h with
  | @literal t span e h =>
      intro modes modes' hmodes hmodes' _
      rw [elements_of_literal? h]
      exact .code hmodes hmodes' (events_of_literal? h).2 (isBrace_of_literal? h)
  | @grouped left right _ _ _ ih =>
      intro modes modes' hmodes hmodes' hclean
      exact (ih modes modes' hmodes hmodes' hclean.tail.left).parens left right hmodes hmodes'
  | nested h ih =>
      intro modes modes' hmodes hmodes' hclean
      exact (ih modes modes' hmodes.not_inTag hmodes'.not_inTag hclean).coupled h hmodes.not_inTag
        hmodes'.not_inTag (hmodes.scanner_eq hmodes')
  | member _ ih =>
      intro modes modes' hmodes hmodes' hclean
      have hobject := ih modes modes' hmodes hmodes' hclean.left
      simpa [Expr.elements] using hobject.append
        (.code_cons hmodes hmodes' (by simp) rfl (.code hmodes hmodes' (by simp) rfl))
  | @call left right _ _ _ _ _ _ ih ih' =>
      intro modes modes' hmodes hmodes' hclean
      have hcallee := ih modes modes' hmodes hmodes' (hclean.left.mono (by simp [Expr.events]))
      have hall := ih' modes modes' hmodes hmodes'
        (hclean.right.tail.left.mono (by simp [Expr.events]))
      exact hcallee.append (hall.parens left right hmodes hmodes')
  | unary hop _ ih =>
      intro modes modes' hmodes hmodes' hclean
      exact .code_cons hmodes hmodes' (less_ne_of_unaryOp? hop) (isBrace_of_unaryOp? hop)
        (ih modes modes' hmodes hmodes' hclean.tail)
  | @joined level t span build us vs left right hop _ _ ih ih' =>
      intro modes modes' hmodes hmodes' hclean
      obtain ⟨hevents, hless⟩ := events_of_join? hop left right
      rw [hevents, partsOf_append] at hclean
      rw [elements_of_join? hop]
      have hleft := ih modes modes' hmodes hmodes' (hclean.left.mono (by simp))
      have hright := ih' modes modes' hmodes hmodes' (hclean.right.tail.mono (by simp))
      exact hleft.append (.code_cons hmodes hmodes' hless (isBrace_of_join? hop) hright)
  | conditional _ _ _ ih ih' ih'' =>
      intro modes modes' hmodes hmodes' hclean
      have htest := ih modes modes' hmodes hmodes' (hclean.left.mono (by simp [Expr.events]))
      have hyes := ih' modes modes' hmodes hmodes'
        (hclean.right.tail.left.mono (by simp [Expr.events]))
      have hno := ih'' modes modes' hmodes hmodes'
        (hclean.right.tail.right.tail.mono (by simp [Expr.events]))
      exact htest.append (.code_cons hmodes hmodes' (by simp) rfl
        (hyes.append (.code_cons hmodes hmodes' (by simp) rfl hno)))
  | tighter _ ih => exact ih
  | noArguments | lastArgument =>
      exact fun modes modes' hmodes hmodes' _ => .nil (hmodes.scanner_eq hmodes')
  | arguments _ _ ih ih' =>
      intro modes modes' hmodes hmodes' hclean
      exact (ih modes modes' hmodes hmodes' (hclean.left.mono (by simp [exprsEvents]))).append
        (ih' modes modes' hmodes hmodes' (hclean.right.mono (by simp [exprsEvents])))
  | trailingComma => exact fun modes modes' hmodes hmodes' _ => .code hmodes hmodes' (by simp) rfl
  | furtherArgument _ _ ih ih' =>
      intro modes modes' hmodes hmodes' hclean
      have hnext := ih modes modes' hmodes hmodes' (hclean.tail.left.mono (by simp [exprsEvents]))
      have hothers := ih' modes modes' hmodes hmodes'
        (hclean.tail.right.mono (by simp [exprsEvents]))
      exact .code_cons hmodes hmodes' (by simp) rfl (hnext.append hothers)
  | emptyBraces =>
      intro modes modes' hscanner _
      exact Coupled.braces hscanner (.nil rfl)
  | coveredBraces _ ih =>
      intro modes modes' hscanner hclean
      exact .braces hscanner (ih _ _ rfl rfl
        (hclean.tail.left.mono (by simp [Container.events, Content.events])))
  | skippedBraces _ hbalanced _ =>
      intro modes modes' hscanner hclean
      have hless := hclean.ne_less List.mem_cons_self rfl rfl
      exact .braces hscanner (.balanced hbalanced rfl rfl rfl hless)
  | noValue => exact fun modes modes' hmodes hmodes' _ => .nil (hmodes.scanner_eq hmodes')
  | quotedValue =>
      intro modes modes' hmodes hmodes' _
      simpa [valueElements] using
        Coupled.tag_cons hmodes hmodes' rfl (.tag hmodes.settled hmodes'.settled rfl)
  | bracedValue _ ih =>
      intro modes modes' hmodes hmodes' hclean
      have hbraces := ih modes.settled modes'.settled
        (hmodes.settled.scanner_eq hmodes'.settled) hclean.tail
      simpa [valueElements] using Coupled.tag_cons hmodes hmodes' rfl hbraces
  | plain _ ih =>
      intro modes modes' hmodes hmodes' hclean
      rw [TagItem.events_plain] at hclean
      have hvalue := ih modes.settled modes'.settled hmodes.settled hmodes'.settled hclean.tail
      simpa [TagItem.elements] using Coupled.tag_cons hmodes hmodes' rfl hvalue
  | @spaced first colon second space name us value _ ih =>
      intro modes modes' hmodes hmodes' hclean
      rw [TagItem.events_plain] at hclean
      have hvalue := ih modes.settled modes'.settled hmodes.settled hmodes'.settled
        hclean.tail.tail.tail
      have hname : Coupled skip modes.settled modes'.settled (⟨.word name, second⟩ :: us) _ _ _ :=
        .tag_cons hmodes.settled hmodes'.settled rfl
          (by rwa [Modes.settled_settled, Modes.settled_settled])
      have hcolon : Coupled skip modes.settled modes'.settled (⟨.colon, colon⟩ :: _) _ _ _ :=
        .tag_cons hmodes.settled hmodes'.settled rfl
          (by rwa [Modes.settled_settled, Modes.settled_settled])
      simpa [TagItem.elements] using Coupled.tag_cons hmodes hmodes' rfl hcolon
  | @spread left dots right inside hbalanced =>
      intro modes modes' hmodes hmodes' hclean
      -- the dots and what follows them are skipped together
      have hdots : Balanced ((⟨.spread, dots⟩ :: inside).map Lexeme.token) := .single rfl hbalanced
      have hclean' : Clean (⟨.openBrace, left⟩ :: (⟨.spread, dots⟩ :: inside ++
        [⟨.closeBrace, right⟩])) [.spread ⟨left.start, right.stop⟩] := hclean
      have hless := hclean'.ne_less List.mem_cons_self rfl rfl
      exact .braces (hmodes.scanner_eq hmodes') (.balanced hdots rfl rfl rfl hless)
  | noItems => exact fun modes modes' hmodes hmodes' _ => .nil (hmodes.scanner_eq hmodes')
  | items h _ ih ih' =>
      intro modes modes' hmodes hmodes' hclean
      have hfirst := ih modes modes' hmodes hmodes' (hclean.left.mono (by simp))
      have hothers := ih' modes.settled modes'.settled hmodes.settled hmodes'.settled
        (hclean.right.mono (by simp))
      obtain ⟨t, us, rfl, -⟩ := IsItem.starts h.isForm rfl
      simpa using hfirst.append hothers
  | prose =>
      intro modes modes' hmodes hmodes' _
      have hscanner := Modes.scanner_eq_of_prose hmodes hmodes'
      refine .lexeme hscanner ?_
      rw [modes.after_prose hmodes, modes'.after_prose hmodes']
      exact .nil hscanner
  | elementChild h ih =>
      intro modes modes' hmodes hmodes' hclean
      have hin := Modes.not_inTag_of_prose hmodes
      have hin' := Modes.not_inTag_of_prose hmodes'
      exact (ih modes modes' hin hin' hclean).coupled h hin hin'
        (Modes.scanner_eq_of_prose hmodes hmodes')
  | bracedChild _ ih =>
      intro modes modes' hmodes hmodes' hclean
      have hbraces := ih modes modes' (Modes.scanner_eq_of_prose hmodes hmodes') hclean
      rwa [Modes.settled_of_not_inTag (Modes.not_inTag_of_prose hmodes),
        Modes.settled_of_not_inTag (Modes.not_inTag_of_prose hmodes')] at hbraces
  | noChildren =>
      exact fun modes modes' hmodes hmodes' _ => .nil (Modes.scanner_eq_of_prose hmodes hmodes')
  | children _ _ ih ih' =>
      intro modes modes' hmodes hmodes' hclean
      exact (ih modes modes' hmodes hmodes' (hclean.left.mono (by simp))).append
        (ih' modes modes' hmodes hmodes' (hclean.right.mono (by simp)))
  | single hproper hne hname _ ih => exact Phrase.isCoupled_single hproper hne hname ih
  | pair _ _ hname _ _ hclosing ih ih' => exact Phrase.isCoupled_pair hname hclosing ih ih'
  | noElements => exact fun modes modes' _ _ hscanner _ => .nil hscanner
  | elements h _ ih ih' =>
      intro modes modes' hmodes hmodes' hscanner hclean
      have hfirst := ih modes modes' hmodes hmodes' (hclean.left.mono (by simp))
      exact (hfirst.coupled h hmodes hmodes' hscanner).append
        (ih' modes modes' hmodes hmodes' hscanner (hclean.right.mono (by simp)))

/-! ### Where an element starts -/

theorem partsOf_subset {events others : List Event} (h : events ⊆ others) :
    partsOf events ⊆ partsOf others := by
  intro part hpart
  obtain ⟨event, hevent, hpart⟩ := List.mem_flatMap.1 hpart
  exact List.mem_flatMap.2 ⟨event, h hevent, hpart⟩

theorem Element.events_subset_walk {es : List Element} {e : Element} (he : e ∈ es) :
    e.events ⊆ walk es := fun _ hevent =>
  List.mem_flatMap.2 ⟨e, he, hevent⟩

theorem Element.walk_nested_subset (e : Element) : walk e.nested ⊆ e.events := by
  simp [e.events_eq]

/-- The walk of a forest goes through every element in it, at any depth. -/
theorem Among.events_subset_walk {es : List Element} {e : Element} (h : Among es e) :
    e.events ⊆ walk es := by
  induction h with
  | here he => exact Element.events_subset_walk he
  | @inside es e f hf _ ih =>
      exact fun event hevent => Element.events_subset_walk hf (f.walk_nested_subset (ih hevent))

namespace Coupled

variable {skip : List Lexeme → Prop} {modes modes' after after' : Modes} {ts : List Lexeme}
  {es : List Element} {e : Element}

/-- No tag is read where one of the elements starts. -/
theorem exists_of_mem (h : Coupled skip modes modes' ts es after after') (he : e ∈ es) :
    ∃ front us back, ts = front ++ (us ++ back) ∧ Written skip us (.element e) ∧
      ¬ (modes.through front).InTag := by
  induction h with
  | nil _ => cases he
  | @lexeme _ _ _ _ t _ _ _ _ ih =>
      obtain ⟨front, us, back, rfl, hwritten, hmodes⟩ := ih he
      exact ⟨t :: front, us, back, rfl, hwritten, hmodes⟩
  | @element modes _ _ _ us ts _ _ hwritten hmodes _ hthrough _ _ _ ih =>
      rcases List.mem_cons.1 he with rfl | he
      · exact ⟨[], us, ts, rfl, hwritten, hmodes⟩
      · obtain ⟨front, vs, back, rfl, hwritten', hmodes'⟩ := ih he
        refine ⟨us ++ front, vs, back, by simp, hwritten', ?_⟩
        rwa [Modes.through_append, hthrough]

/-- No tag is read where an element starts that is nested in the lexemes at any depth. -/
theorem exists_of_among (h : Coupled skip modes modes' ts es after after')
    (hclean : Clean ts (partsOf (walk es))) (he : Among es e) :
    ∃ front us back, ts = front ++ (us ++ back) ∧ Written skip us (.element e) ∧
      ¬ (modes.through front).InTag := by
  induction he generalizing modes modes' ts after after' with
  | here he => exact h.exists_of_mem he
  | @inside es e f hf _ ih =>
      obtain ⟨front, us, back, rfl, hwritten, hmodes⟩ := h.exists_of_mem hf
      -- what is nested in the element stands between its `<` and its `>`
      have hevents := Element.events_subset_walk hf
      obtain ⟨left, inside, right, _, _, rfl, hinside, -⟩ :=
        hwritten.isCoupled _ _ hmodes hmodes (hclean.right.left.mono (partsOf_subset hevents))
      obtain ⟨front', vs, back', rfl, hwritten', hmodes'⟩ :=
        ih hinside (hclean.right.left.tail.left.mono
          (partsOf_subset fun event hevent => hevents (f.walk_nested_subset hevent)))
      refine ⟨front ++ ⟨.less, left⟩ :: front', vs, back' ++ ⟨.greater, right⟩ :: back, by simp,
        hwritten', ?_⟩
      rwa [Modes.through_append, Modes.through_cons, Modes.after_less hmodes]

end Coupled

end RoleAudit.Markup
