import RoleAudit.Proofs.Parts
import RoleAudit.Proofs.Language

/-!
# Modes and trees in lockstep

The scanner decides on a mode by what the tags have shown so far, and knows no grammar; the tree is
found afterwards.  On a source that is parsed, the two agree: by induction on the derivation of the
tree, reading a phrase leads the stack of modes where the phrase says.

What is skipped as a balanced list is no part of the tree, and `<` in it opens a tag that the tree
does not know.  So nothing that is skipped may hold one.

Main statements: `Written.isTracked` and `modes_follow`.
-/

namespace RoleAudit.Markup

open RoleAudit.Text (Span)
open Reader Grammar

/-! ### Lexemes in order -/

/-- Lexemes that stand one after the other, without `<` where they are skipped. -/
structure Clean (ts : List Lexeme) (parts : List Part) : Prop where
  nonempty : ∀ t ∈ ts, t.span.start ≤ t.span.stop
  ordered : ts.Pairwise fun t u => t.span.stop ≤ u.span.start
  skipped : ∀ part ∈ parts, part.isSkipped = true → ∀ t ∈ ts, Within t.span part.span →
    t.token ≠ .less

namespace Clean

variable {ts us : List Lexeme} {parts parts' : List Part}

theorem sublist (h : Clean ts parts) (hsub : us.Sublist ts) : Clean us parts :=
  ⟨fun t ht => h.nonempty t (hsub.subset ht), h.ordered.sublist hsub,
    fun part hpart hskipped t ht => h.skipped part hpart hskipped t (hsub.subset ht)⟩

theorem left (h : Clean (ts ++ us) parts) : Clean ts parts :=
  h.sublist (List.sublist_append_left _ _)

theorem right (h : Clean (ts ++ us) parts) : Clean us parts :=
  h.sublist (List.sublist_append_right _ _)

theorem tail {t : Lexeme} (h : Clean (t :: ts) parts) : Clean ts parts :=
  h.sublist (List.sublist_cons_self _ _)

theorem mono (h : Clean ts parts) (hsub : parts' ⊆ parts) : Clean ts parts' :=
  ⟨h.nonempty, h.ordered, fun part hpart => h.skipped part (hsub hpart)⟩

/-- All lexemes lie between the first and the last. -/
theorem within {first last : Lexeme} (h : Clean (first :: (ts ++ [last])) parts) :
    ∀ t ∈ first :: (ts ++ [last]), Within t.span ⟨first.span.start, last.span.stop⟩ := by
  obtain ⟨hfirst, hrest⟩ := List.pairwise_cons.1 h.ordered
  obtain ⟨-, -, hlast⟩ := List.pairwise_append.1 hrest
  have hne := h.nonempty first (by simp)
  have hne' := h.nonempty last (by simp)
  have hends := hfirst last (by simp)
  intro t ht
  simp only [List.mem_cons, List.mem_append, List.not_mem_nil, or_false] at ht
  rcases ht with rfl | ht | rfl
  · exact ⟨Nat.le_refl _, by dsimp only; omega⟩
  · have hstart := hfirst t (by simp [ht])
    have hstop := hlast t ht last (by simp)
    exact ⟨by dsimp only; omega, by dsimp only; omega⟩
  · exact ⟨by dsimp only; omega, Nat.le_refl _⟩

end Clean

/-! ### Phrases -/

/-- What happens on a walk through the value of an attribute. -/
def valueEvents : Option AttributeValue → List Event
  | some value => value.events
  | none => []

/-- The parts of attributes and spreads, at any depth. -/
def itemsParts (items : List TagItem) : List Part :=
  items.flatMap fun item => item.groups ++ partsOf item.events

/-- The parts of children, at any depth. -/
def childrenParts (children : List Child) : List Part :=
  children.flatMap fun child => child.groups ++ partsOf child.events

/-- Reading `ts` leads the modes where the phrase says, and follows its parts.  Expressions are
code, but for the elements in them; what stands in a tag is read as one, but for the braces in
it. -/
def Phrase.IsTracked (ts : List Lexeme) : Phrase → Prop
  | .expr _ e => ∀ modes : Modes, modes.InCode → Clean ts (partsOf e.events) →
      Tracks Modes.InCode modes ts modes (partsOf e.events) (elementsOf e.events)
  | .arguments es | .furtherArguments es => ∀ modes : Modes, modes.InCode →
      Clean ts (partsOf (exprsEvents es)) →
        Tracks Modes.InCode modes ts modes (partsOf (exprsEvents es)) (elementsOf (exprsEvents es))
  | .container c => ∀ modes : Modes, Clean ts (.container c :: partsOf c.events) →
      Tracks (fun _ => True) modes ts modes.settled (.container c :: partsOf c.events) []
  | .value v => ∀ modes : Modes, modes.InTag → Clean ts (valueGroups v ++ partsOf (valueEvents v)) →
      Tracks Modes.InTag modes ts (modes.onward ts) (valueGroups v ++ partsOf (valueEvents v))
        (valueGroups v)
  | .item i => ∀ modes : Modes, modes.InTag → Clean ts (i.groups ++ partsOf i.events) →
      Tracks Modes.InTag modes ts modes.settled (i.groups ++ partsOf i.events) i.groups
  | .items is => ∀ modes : Modes, modes.InTag → Clean ts (itemsParts is) →
      Tracks Modes.InTag modes ts (modes.onward ts) (itemsParts is) (is.flatMap TagItem.groups)
  | .child c => ∀ modes : Modes, modes.head? = some .prose →
      Clean ts (c.groups ++ partsOf c.events) →
        Tracks (fun _ => True) modes ts modes (c.groups ++ partsOf c.events) []
  | .children cs => ∀ modes : Modes, modes.head? = some .prose → Clean ts (childrenParts cs) →
      Tracks (fun _ => True) modes ts modes (childrenParts cs) []
  | .element e => ∀ modes : Modes, ¬ modes.InTag → Clean ts (partsOf e.events) →
      Tracks (fun _ => True) modes ts modes (partsOf e.events) []
  | .elements es => ∀ modes : Modes, ¬ modes.InTag →
      Clean ts (partsOf (es.flatMap Element.events)) →
        Tracks (fun _ => True) modes ts modes (partsOf (es.flatMap Element.events)) []

/-! ### Braces and tags -/

namespace Tracks

variable {modes outer opened closed : Modes} {ts inside : List Lexeme} {parts holes : List Part}

/-- Braces around what is read as code lead back to the stack before them. -/
theorem braces {left right : Span}
    (h : Tracks Modes.InCode (.code :: modes.settled) inside (.code :: modes.settled) parts holes) :
    Tracks (fun _ => True) modes (⟨.openBrace, left⟩ :: (inside ++ [⟨.closeBrace, right⟩]))
        modes.settled parts [] ∧
      BracesFollowed
        (stepsUnder modes (⟨.openBrace, left⟩ :: (inside ++ [⟨.closeBrace, right⟩])))
        ⟨left.start, right.stop⟩ holes := by
  have hclosed : Modes.after (.code :: modes.settled) .closeBrace = modes.settled := rfl
  obtain ⟨htracks, steps, hstretch, hunder⟩ :=
    h.surround ⟨.openBrace, left⟩ ⟨.closeBrace, right⟩ modes.after_openBrace hclosed rfl
  exact ⟨htracks, _, steps, _, hstretch, rfl, rfl, rfl, modes.kinds_settled, hunder⟩

/-- A name goes on with a tag. -/
theorem name {name : Name} (h : modes.InTag) (hts : ts.map Lexeme.token = name.tokens) :
    Tracks Modes.InTag modes ts (modes.onward ts) [] [] := by
  have hall : ∀ t ∈ ts, t.token.goesOnTag = true := by
    intro t ht
    have hmem : t.token ∈ name.tokens := hts ▸ List.mem_map_of_mem ht
    rcases Name.mem_tokens hmem with ⟨text, htoken⟩ | htoken | htoken <;> rw [htoken] <;> rfl
  clear hts
  induction ts generalizing modes with
  | nil => exact nil
  | cons t ts ih =>
      have htail := ih h.settled fun u hu => hall u (List.mem_cons_of_mem _ hu)
      have hboth := (tag h (hall t List.mem_cons_self)).append htail
      rwa [← Modes.onward_cons modes t [], ← Modes.onward_append] at hboth

/-- What is read in a tag between `<` and `>` makes up a tag. -/
theorem enclose (left right : Span) (hopened : outer.after .less = opened)
    (h : Tracks Modes.InTag opened inside closed parts holes) (hclosed : closed.InTag) :
    Tracks (fun _ => True) outer (⟨.less, left⟩ :: (inside ++ [⟨.greater, right⟩]))
        (closed.after .greater) parts [] ∧
      TagFollowed (stepsUnder outer (⟨.less, left⟩ :: (inside ++ [⟨.greater, right⟩])))
        ⟨left.start, right.stop⟩ holes outer (closed.after .greater) := by
  obtain ⟨htracks, steps, hstretch, hunder⟩ :=
    h.surround ⟨.less, left⟩ ⟨.greater, right⟩ hopened rfl hclosed
  exact ⟨htracks, _, steps, _, hstretch, rfl, rfl, rfl, rfl, hunder⟩

end Tracks

/-! ### The derivation and the modes -/

@[simp] theorem itemsParts_cons (item : TagItem) (others : List TagItem) :
    itemsParts (item :: others) = item.groups ++ partsOf item.events ++ itemsParts others :=
  List.flatMap_cons

@[simp] theorem childrenParts_cons (child : Child) (others : List Child) :
    childrenParts (child :: others) =
      child.groups ++ partsOf child.events ++ childrenParts others :=
  List.flatMap_cons

theorem mem_itemsParts {items : List TagItem} {part : Part} : part ∈ itemsParts items ↔
    part ∈ items.flatMap TagItem.groups ∨ part ∈ partsOf (itemsEvents items) := by
  induction items with
  | nil => simp [itemsParts, itemsEvents]
  | cons item others ih =>
      simp only [itemsParts_cons, List.flatMap_cons, List.mem_append, itemsEvents, partsOf_append,
        ih]
      grind

theorem mem_childrenParts {children : List Child} {part : Part} : part ∈ childrenParts children ↔
    part ∈ children.flatMap Child.groups ∨ part ∈ partsOf (childrenEvents children) := by
  induction children with
  | nil => simp [childrenParts, childrenEvents]
  | cons child others ih =>
      simp only [childrenParts_cons, List.flatMap_cons, List.mem_append, childrenEvents,
        partsOf_append, ih]
      grind

theorem mem_parts_single {tag : Tag} {part : Part} : part ∈ partsOf (Element.single tag).events ↔
    part = .element (.single tag) ∨ part ∈ itemsParts tag.items := by
  rw [mem_itemsParts]
  obtain ⟨name, items, span⟩ := tag
  simp [partsOf, Element.events, Element.parts, Element.tag, Element.children, Tag.events]

theorem mem_parts_pair {tag : Tag} {children : List Child} {closing : Span} {part : Part} :
    part ∈ partsOf (Element.pair tag children closing).events ↔
      part = .element (.pair tag children closing) ∨ part ∈ itemsParts tag.items ∨
        part ∈ childrenParts children := by
  rw [mem_itemsParts, mem_childrenParts]
  obtain ⟨name, items, span⟩ := tag
  simp only [partsOf, Element.events, Element.parts, Element.tag, Element.children, Tag.events,
    List.flatMap_cons, List.flatMap_append, List.flatMap_nil, List.mem_append, List.mem_cons]
  grind

theorem Element.mem_elementsOf_events (e : Element) : .element e ∈ elementsOf e.events := by
  cases e <;> simp [events, elementsOf]

theorem events_of_literal? {t : Token} {e : Expr} (h : literal? t = some e) :
    e.events = [] ∧ t ≠ .less := by
  cases t <;> cases h <;> exact ⟨rfl, by simp⟩

theorem events_of_join? {level : Level} {t : Token} {build : Expr → Expr → Expr}
    (h : level.join? t = some build) (left right : Expr) :
    (build left right).events = left.events ++ right.events ∧ t ≠ .less := by
  cases level with
  | primary | suffixed | prefixed | full => cases h
  | sum | comparison | conjunction | disjunction =>
      cases t <;> cases h <;> exact ⟨rfl, by simp⟩

theorem less_ne_of_unaryOp? {t : Token} {op : UnaryOp} (h : unaryOp? t = some op) : t ≠ .less := by
  rintro rfl
  cases h

/-- The lexemes of an element lie in it. -/
theorem Clean.within_element {ts : List Lexeme} {parts : List Part} (hclean : Clean ts parts)
    {skip : List Lexeme → Prop} {e : Element} (h : Written skip ts (.element e)) :
    ∀ t ∈ ts, Within t.span (Part.element e).span := by
  cases h with
  | @single left slash right names us name items hproper hne hname hitems =>
      have hts : ⟨.less, left⟩ :: (names ++ (us ++ [⟨.slash, slash⟩, ⟨.greater, right⟩])) =
          ⟨.less, left⟩ :: (names ++ us ++ [⟨.slash, slash⟩] ++
            [(⟨.greater, right⟩ : Lexeme)]) := by
        simp
      rw [hts] at hclean ⊢
      exact hclean.within
  | @pair left right left' slash right' names us vs names' name items children hproper hplain hname
      hitems hchildren hclosing =>
      have hts : ⟨.less, left⟩ :: (names ++ (us ++ ⟨.greater, right⟩ :: (vs ++
          ⟨.less, left'⟩ :: ⟨.slash, slash⟩ :: (names' ++ [⟨.greater, right'⟩])))) =
          ⟨.less, left⟩ :: (names ++ us ++ ⟨.greater, right⟩ :: (vs ++
          ⟨.less, left'⟩ :: ⟨.slash, slash⟩ :: names') ++ [(⟨.greater, right'⟩ : Lexeme)]) := by
        simp
      rw [hts] at hclean ⊢
      exact hclean.within

/-- The lexemes of a container lie in it. -/
theorem Clean.within_container {ts : List Lexeme} {parts : List Part} (hclean : Clean ts parts)
    {skip : List Lexeme → Prop} {c : Container} (h : Written skip ts (.container c)) :
    ∀ t ∈ ts, Within t.span (Part.container c).span := by
  cases h with
  | @emptyBraces left right =>
      have hbraces : Clean (⟨.openBrace, left⟩ :: ([] ++ [⟨.closeBrace, right⟩])) parts := hclean
      exact hbraces.within
  | coveredBraces _ => exact hclean.within
  | skippedBraces _ _ _ => exact hclean.within

/-- What is skipped is read as code throughout. -/
theorem Clean.tracks_skipped {left right : Span} {inside : List Lexeme} {parts : List Part}
    {part : Part} (hclean : Clean (⟨.openBrace, left⟩ :: (inside ++ [⟨.closeBrace, right⟩])) parts)
    (hpart : part ∈ parts) (hskipped : part.isSkipped = true)
    (hspan : part.span = ⟨left.start, right.stop⟩) (hbalanced : Balanced (inside.map Lexeme.token))
    {modes : Modes} (hmodes : modes.InCode) : Tracks Modes.InCode modes inside modes [] [] := by
  have hless : ∀ t ∈ inside, t.token ≠ .less := fun t ht =>
    hclean.skipped part hpart hskipped t (by simp [ht]) (hspan ▸ hclean.within t (by simp [ht]))
  obtain ⟨hthrough, hsteps⟩ := Modes.InCode.through_balanced hbalanced hmodes rfl hless
  exact ⟨hthrough, by simp, fun s hs => Or.inl (hsteps s hs)⟩

theorem TagItem.events_plain (space : Option String) (name : String) (value : Option AttributeValue)
    (span : Span) : (TagItem.plain ⟨space, name, value, span⟩).events = valueEvents value := by
  cases value <;> rfl

theorem Name.eq_fragment_of_tokens {name : Name} (hproper : name.IsProper) (h : name.tokens = []) :
    name = .fragment := by
  match name, hproper, h with
  | .fragment, _, _ => rfl
  | .member [], hproper, _ => cases hproper

namespace Phrase

/-- A tag that closes itself leads back to the stack before it. -/
theorem isTracked_single {left slash right : Span} {names us : List Lexeme} {name : Name}
    {items : List TagItem} (hproper : name.IsProper) (hne : name ≠ .fragment)
    (hname : names.map Lexeme.token = name.tokens) (ih : IsTracked us (.items items)) :
    IsTracked (⟨.less, left⟩ :: (names ++ (us ++ [⟨.slash, slash⟩, ⟨.greater, right⟩])))
      (.element (.single ⟨name, items, ⟨left.start, right.stop⟩⟩)) := by
  intro modes hmodes hclean
  obtain ⟨t, names, rfl⟩ : ∃ t us, names = t :: us := List.exists_cons_of_ne_nil (by
    rintro rfl
    exact hne (name.eq_fragment_of_tokens hproper hname.symm))
  -- after its name, whatever stands in it, the tag is settled until the slash
  let opened : Modes := .tag {} :: modes
  let closed : Modes := .tag ⟨false, false, true⟩ :: modes
  have hin : opened.InTag := ⟨_, rfl⟩
  have hnames := Tracks.name hin hname
  have hitems := ih _ hin.settled
    (hclean.tail.right.left.mono fun part hpart => mem_parts_single.2 (Or.inr hpart))
  have hslash : Tracks Modes.InTag opened.settled [⟨.slash, slash⟩] closed [] [] :=
    .single hin.settled rfl
  rw [Modes.onward_cons] at hnames
  rw [Modes.settled_onward] at hitems
  have hinside := hnames.append (hitems.append hslash)
  obtain ⟨htracks, htag⟩ := Tracks.enclose left right (Modes.after_less hmodes) hinside ⟨_, rfl⟩
  simp only [List.append_assoc, List.cons_append, List.nil_append,
    List.append_nil] at htracks htag ⊢
  have helement : (Part.element (.single ⟨name, items, ⟨left.start, right.stop⟩⟩)).Followed _ :=
    ⟨modes, htag⟩
  exact (htracks.cons_part helement).mono
    (fun part hpart => List.mem_cons.2 (mem_parts_single.1 hpart)) (fun _ => id)

/-- An opening tag leads into prose and the closing tag back out of it. -/
theorem isTracked_pair {left right left' slash right' : Span} {names us vs names' : List Lexeme}
    {name : Name} {items : List TagItem} {children : List Child}
    (hname : names.map Lexeme.token = name.tokens)
    (hclosing : names'.map Lexeme.token = name.tokens) (ih : IsTracked us (.items items))
    (ih' : IsTracked vs (.children children)) :
    IsTracked
      (⟨.less, left⟩ :: (names ++ (us ++ ⟨.greater, right⟩ :: (vs ++
        ⟨.less, left'⟩ :: ⟨.slash, slash⟩ :: (names' ++ [⟨.greater, right'⟩])))))
      (.element (.pair ⟨name, items, ⟨left.start, right.stop⟩⟩ children
        ⟨left'.start, right'.stop⟩)) := by
  intro modes hmodes hclean
  let opened : Modes := .tag {} :: modes
  have hin : opened.InTag := ⟨_, rfl⟩
  have hinside := (Tracks.name hin hname).append (ih _ (hin.onward names)
    (hclean.tail.right.left.mono fun part hpart => mem_parts_pair.2 (Or.inr (Or.inl hpart))))
  rw [← Modes.onward_append] at hinside
  have hprose : (opened.onward (names ++ us)).after .greater = .prose :: modes := by
    unfold Modes.onward
    split <;> rfl
  obtain ⟨htracks, htag⟩ :=
    Tracks.enclose left right (Modes.after_less hmodes) hinside (hin.onward _)
  rw [hprose] at htracks htag
  have hchildren := ih' (.prose :: modes) rfl (hclean.tail.right.right.tail.left.mono
    fun part hpart => mem_parts_pair.2 (Or.inr (Or.inr hpart)))
  -- the closing tag is opened in prose, and has shown a slash
  let opened' : Modes := .tag ⟨false, true, true⟩ :: .prose :: modes
  have hin' : opened'.InTag := ⟨_, rfl⟩
  have hslash : Tracks Modes.InTag (.tag {} :: .prose :: modes) [⟨.slash, slash⟩] opened' [] [] :=
    .single ⟨_, rfl⟩ rfl
  have hback : (opened'.onward names').after .greater = modes := by
    unfold Modes.onward
    split <;> rfl
  have hless : Modes.after (.prose :: modes) .less = .tag {} :: .prose :: modes := rfl
  obtain ⟨htracks', htag'⟩ := Tracks.enclose left' right' hless
    (hslash.append (Tracks.name hin' hclosing)) (hin'.onward _)
  rw [hback] at htracks' htag'
  have hafter := hchildren.append htracks'
  -- the steps of the closing tag come last, after those of the opening tag and of the children
  have helement : (Part.element (.pair ⟨name, items, ⟨left.start, right.stop⟩⟩ children
      ⟨left'.start, right'.stop⟩)).Followed _ :=
    ⟨modes, htag.mono (stepsUnder_left _ _ _),
      htag'.mono ((stepsUnder_right hchildren.through _).trans
        (stepsUnder_right htracks.through _))⟩
  have hall := (htracks.append hafter).cons_part helement
  simp only [List.append_assoc, List.cons_append, List.nil_append, List.append_nil] at hall ⊢
  refine hall.mono (fun part hpart => ?_) (fun _ => id)
  simpa using mem_parts_pair.1 hpart

end Phrase

/-- Reading a phrase leads the modes where it says, and follows all of its parts. -/
theorem Written.isTracked {ts : List Lexeme} {phrase : Phrase} (h : Derives ts phrase) :
    phrase.IsTracked ts := by
  induction h with
  | @literal t span e h =>
      intro modes hmodes _
      obtain ⟨hevents, hless⟩ := events_of_literal? h
      rw [hevents]
      exact .code hmodes hless (isBrace_of_literal? h)
  | @grouped left right us e h ih =>
      intro modes hmodes hclean
      exact (ih modes hmodes hclean.tail.left).parens left right hmodes
  | @nested us e h ih =>
      intro modes hmodes hclean
      -- what is read as a tag lies in the element, which code leaves out
      have hinner := ih modes hmodes.not_inTag hclean
      have hwithin := hclean.within_element h
      have hmem : [.element e] ⊆ elementsOf (Expr.element e).events := by
        simpa [Expr.events] using e.mem_elementsOf_events
      exact (hinner.hide (.element e) hwithin).mono (fun _ => id) hmem
  | member h ih =>
      intro modes hmodes hclean
      have hobject := ih modes hmodes hclean.left
      simpa [Expr.events] using
        hobject.append (.code_cons hmodes (by simp) rfl (.code hmodes (by simp) rfl))
  | @call left right us vs callee all h hall ih ih' =>
      intro modes hmodes hclean
      have hcallee := ih modes hmodes (hclean.left.mono (by simp [Expr.events]))
      have hall' := ih' modes hmodes (hclean.right.tail.left.mono (by simp [Expr.events]))
      simpa [Expr.events] using hcallee.append (hall'.parens left right hmodes)
  | unary hop h ih =>
      intro modes hmodes hclean
      exact .code_cons hmodes (less_ne_of_unaryOp? hop) (isBrace_of_unaryOp? hop)
        (ih modes hmodes hclean.tail)
  | @joined level t span build us vs left right hop hleft hright ih ih' =>
      intro modes hmodes hclean
      obtain ⟨hevents, hless⟩ := events_of_join? hop left right
      rw [hevents, partsOf_append] at hclean
      rw [hevents, partsOf_append, elementsOf_append]
      have hleft' := ih modes hmodes (hclean.left.mono (by simp))
      have hright' := ih' modes hmodes (hclean.right.tail.mono (by simp))
      exact hleft'.append (.code_cons hmodes hless (isBrace_of_join? hop) hright')
  | @conditional question colon us vs ws test yes no htest hyes hno ih ih' ih'' =>
      intro modes hmodes hclean
      have htest' := ih modes hmodes (hclean.left.mono (by simp [Expr.events]))
      have hyes' := ih' modes hmodes (hclean.right.tail.left.mono (by simp [Expr.events]))
      have hno' := ih'' modes hmodes (hclean.right.tail.right.tail.mono (by simp [Expr.events]))
      have hbranches := hyes'.append (.code_cons (t := ⟨.colon, colon⟩) hmodes (by simp) rfl hno')
      simpa [Expr.events] using htest'.append (.code_cons hmodes (by simp) rfl hbranches)
  | tighter _ ih => exact ih
  | noArguments | lastArgument => exact fun modes _ _ => .nil
  | arguments h hothers ih ih' =>
      intro modes hmodes hclean
      have hfirst := ih modes hmodes (hclean.left.mono (by simp [exprsEvents]))
      have hothers' := ih' modes hmodes (hclean.right.mono (by simp [exprsEvents]))
      simpa [exprsEvents] using hfirst.append hothers'
  | trailingComma => exact fun modes hmodes _ => .code hmodes (by simp) rfl
  | @furtherArgument comma us vs e others h hothers ih ih' =>
      intro modes hmodes hclean
      have hnext := ih modes hmodes (hclean.tail.left.mono (by simp [exprsEvents]))
      have hothers' := ih' modes hmodes (hclean.tail.right.mono (by simp [exprsEvents]))
      have hboth := hnext.append hothers'
      simpa [exprsEvents] using hboth.code_cons (t := ⟨.comma, comma⟩) hmodes (by simp) rfl
  | emptyBraces =>
      intro modes _
      have hinside : Tracks Modes.InCode (.code :: modes.settled) [] (.code :: modes.settled)
        [] [] := .nil
      obtain ⟨htracks, hfollowed⟩ := hinside.braces
      exact htracks.cons_part hfollowed
  | coveredBraces h ih =>
      intro modes hclean
      have hinside := ih (.code :: modes.settled) rfl
        (hclean.tail.left.mono (by simp [Container.events, Content.events]))
      obtain ⟨htracks, hfollowed⟩ := hinside.braces
      exact htracks.cons_part hfollowed
  | skippedBraces hne hbalanced _ =>
      intro modes hclean
      have hcode : Modes.InCode (.code :: modes.settled) := rfl
      have hinside := hclean.tracks_skipped List.mem_cons_self rfl rfl hbalanced hcode
      obtain ⟨htracks, hfollowed⟩ := hinside.braces
      exact htracks.cons_part hfollowed
  | noValue => exact fun modes _ _ => .nil
  | quotedValue =>
      intro modes hmodes _
      simpa [valueGroups, valueEvents, AttributeValue.events] using
        Tracks.tag_cons hmodes rfl (.tag hmodes.settled rfl)
  | @bracedValue equals us c h ih =>
      intro modes hmodes hclean
      -- what is read as code lies in the braces, which the tag leaves out
      have hbraces : Tracks Modes.InTag modes.settled us modes.settled.settled _ [.container c] :=
        (ih modes.settled hclean.tail).hide (.container c) (hclean.tail.within_container h)
      simpa [valueGroups, valueEvents, AttributeValue.events] using
        hbraces.tag_cons (t := ⟨.equals, equals⟩) hmodes rfl
  | @plain span name us value h ih =>
      intro modes hmodes hclean
      rw [TagItem.events_plain] at hclean ⊢
      have hvalue := ih modes.settled hmodes.settled hclean.tail
      simpa [TagItem.groups] using hvalue.tag_cons (t := ⟨.word name, span⟩) hmodes rfl
  | @spaced first colon second space name us value h ih =>
      intro modes hmodes hclean
      rw [TagItem.events_plain] at hclean ⊢
      have hsettled := hmodes.settled
      have hvalue := ih modes.settled hsettled hclean.tail.tail.tail
      have hname : Tracks Modes.InTag modes.settled (⟨.word name, second⟩ :: us) _ _ _ :=
        .tag_cons hsettled rfl (by rwa [Modes.settled_settled])
      have hcolon : Tracks Modes.InTag modes.settled (⟨.colon, colon⟩ :: _) _ _ _ :=
        .tag_cons hsettled rfl (by rwa [Modes.settled_settled])
      simpa [TagItem.groups] using hcolon.tag_cons (t := ⟨.word space, first⟩) hmodes rfl
  | @spread left dots right inside hbalanced =>
      intro modes hmodes hclean
      -- the dots and what follows them are skipped together
      have hdots : Balanced ((⟨.spread, dots⟩ :: inside).map Lexeme.token) := .single rfl hbalanced
      have hclean' : Clean (⟨.openBrace, left⟩ :: (⟨.spread, dots⟩ :: inside ++
        [⟨.closeBrace, right⟩])) [.spread ⟨left.start, right.stop⟩] := hclean
      have hcode : Modes.InCode (.code :: modes.settled) := rfl
      have hinside := hclean'.tracks_skipped List.mem_cons_self rfl rfl hdots hcode
      obtain ⟨htracks, hfollowed⟩ := hinside.braces
      have hspread : (Part.spread ⟨left.start, right.stop⟩).Followed _ := hfollowed
      exact (htracks.cons_part hspread).hide (.spread ⟨left.start, right.stop⟩) hclean'.within
  | noItems => exact fun modes _ _ => .nil
  | items h hothers ih ih' =>
      intro modes hmodes hclean
      have hfirst := ih modes hmodes (hclean.left.mono (by simp))
      have hothers' := ih' modes.settled hmodes.settled (hclean.right.mono (by simp))
      obtain ⟨t, us, rfl, -⟩ := IsItem.starts h.isForm rfl
      simpa using hfirst.append hothers'
  | prose =>
      intro modes hmodes _
      exact .single trivial (modes.after_prose hmodes _)
  | elementChild h ih =>
      intro modes hmodes hclean
      exact ih modes (Modes.not_inTag_of_prose hmodes) hclean
  | bracedChild h ih =>
      intro modes hmodes hclean
      have hbraces := ih modes hclean
      rwa [Modes.settled_of_not_inTag (Modes.not_inTag_of_prose hmodes)] at hbraces
  | noChildren => exact fun modes _ _ => .nil
  | children h hothers ih ih' =>
      intro modes hmodes hclean
      have hfirst := ih modes hmodes (hclean.left.mono (by simp))
      exact hfirst.append (ih' modes hmodes (hclean.right.mono (by simp)))
  | single hproper hne hname _ ih => exact Phrase.isTracked_single hproper hne hname ih
  | pair _ _ hname _ _ hclosing ih ih' => exact Phrase.isTracked_pair hname hclosing ih ih'
  | noElements => exact fun modes _ _ => .nil
  | elements h hothers ih ih' =>
      intro modes hmodes hclean
      have hfirst := ih modes hmodes (hclean.left.mono (by simp))
      have hothers' := ih' modes hmodes (hclean.right.mono (by simp))
      simpa using hfirst.append hothers'

/-- The lexemes of a source stand in order. -/
theorem clean_lexemes {source : String} {parts : List Part}
    (h : ∀ part ∈ parts, part.isSkipped = true → ∀ t ∈ lexemes source, Within t.span part.span →
      t.token ≠ .less) : Clean (lexemes source) parts :=
  ⟨fun _ ht => Nat.le_of_lt (start_lt_stop_of_mem_lexemes ht), pairwise_lexemes source, h⟩

/-- On every source that is parsed and in which nothing that is skipped holds a `<`, the modes
follow the document, part by part, and lead back to the empty stack. -/
theorem modes_follow (source : String) (d : Document) (h : Document.parse source = .ok d)
    (hplain : ∀ part ∈ d.parts, part.isSkipped = true → ∀ t ∈ lexemes source,
      Within t.span part.span → t.token ≠ .less) :
    (∀ part ∈ d.parts, part.Followed (tokenSteps source)) ∧ finalModes source = [] := by
  have hderives := derives_of_reads_document (ofLexemes_eq_ok_iff.1 h)
  have htracks := hderives.isTracked [] Modes.not_inTag_nil (clean_lexemes hplain)
  rw [tokenSteps_eq, finalModes_eq]
  exact ⟨htracks.followed, htracks.through⟩

/-- A fragment with a spread, in which a list that is no expression is skipped and an element stands
in an expression. -/
def modesSource : String :=
  "<\x7b...p\x7d>it's \x7b[1]\x7d\x7bok && <b/>\x7d</>"

/-- What `modesSource` is parsed into. -/
def modesDocument : Document :=
  let inner : Element := .single ⟨.plain "b", [], ⟨25, 29⟩⟩
  ⟨[.pair ⟨.fragment, [.spread ⟨1, 7⟩], ⟨0, 8⟩⟩
    [.prose ⟨8, 13⟩, .braced ⟨.other, ⟨13, 18⟩⟩,
      .braced ⟨.expr (.logical .and (.name "ok") (.element inner)), ⟨18, 30⟩⟩] ⟨30, 33⟩]⟩

theorem modes_follow_sample : Document.parse modesSource = .ok modesDocument ∧
    (∀ part ∈ modesDocument.parts, part.Followed (tokenSteps modesSource)) ∧
      finalModes modesSource = [] := by
  have hparse : Document.parse modesSource = .ok modesDocument := by with_unfolding_all rfl
  have hplain : ∀ part ∈ modesDocument.parts, part.isSkipped = true → ∀ t ∈ lexemes modesSource,
      Within t.span part.span → t.token ≠ .less := by decide +kernel
  exact ⟨hparse, modes_follow modesSource modesDocument hparse hplain⟩

end RoleAudit.Markup
