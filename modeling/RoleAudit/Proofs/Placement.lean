import Mathlib.Data.List.Chain
import RoleAudit.Proofs.Extents

/-!
# What spans point at

In a parsed source every span stands where its text stands, and the spans of what is nested lie in
one another.  `Element.WellPlaced` says so for one element, its tags, its attributes, its children
and the braces in it.

The ends of a phrase are lexemes, so what a phrase starts and stops with is read off the source
there.  That no two runs of prose stand next to each other is a matter of lexing: what ends a run is
a lexeme of its own.

Main statement: `spans_nest`.
-/

namespace RoleAudit.Markup

open RoleAudit.Text

/-! ### Well-placed elements -/

/-- A stretch of a source holds a text. -/
def Slice (source : List Char) (span : Span) (text : List Char) : Prop :=
  ∃ rest, Cut source span text rest

/-- An attribute starts with its name, or with the name of its namespace, and holds its value. -/
structure Attribute.WellPlaced (source : List Char) (attr : Attribute) : Prop where
  starts : ∃ others, Slice source attr.span ((attr.space.getD attr.name).toList ++ others)
  holds : ∀ value, attr.value = some value → Within value.span attr.span

/-- What stands in a tag stands between its two ends, in order. -/
structure Tag.WellPlaced (source : List Char) (tag : Tag) : Prop where
  ends : ∃ text, Slice source tag.span ('<' :: (text ++ ['>']))
  inside : ∀ item ∈ tag.items, StrictlyWithin item.span tag.span
  inOrder : InOrder (tag.items.map TagItem.span)
  attributes : ∀ attr ∈ tag.attributes, attr.WellPlaced source

/-- What stands in braces lies strictly within them, at any depth, and the outermost elements stand
in order. -/
structure Container.WellPlaced (container : Container) : Prop where
  inside : ∀ e, Among container.elements e → StrictlyWithin e.span container.span
  inOrder : InOrder (container.elements.map Element.span)

/-- A run of prose is a text that is not blank and free of what ends prose. -/
def IsProseAt (source : List Char) (span : Span) : Prop :=
  ∃ text, Slice source span text ∧ (∃ c ∈ text, isBlank c = false) ∧ ∀ c ∈ text, endsProse c = false

/-- Whether a child is a run of prose. -/
def Child.isProse : Child → Bool
  | .prose _ => true
  | _ => false

/-- The spans in an element point at what they are about and nest as the element does. -/
structure Element.WellPlaced (source : List Char) (e : Element) : Prop where
  /-- The element starts with `<` and stops with `>`. -/
  ends : ∃ text, Slice source e.span ('<' :: (text ++ ['>']))
  tag_start : e.tag.span.start = e.span.start
  /-- A tag that closes itself is all of the element. -/
  single : e.closing? = none → e.span = e.tag.span ∧ e.children = []
  closing : ∀ closing, e.closing? = some closing →
    closing.stop = e.span.stop ∧ e.tag.span.stop ≤ closing.start ∧
      ∃ text, Slice source closing ('<' :: (text ++ ['>']))
  tag : e.tag.WellPlaced source
  /-- The children stand between the two tags. -/
  children : ∀ closing, e.closing? = some closing → ∀ child ∈ e.children,
    e.tag.span.stop ≤ child.span.start ∧ child.span.stop ≤ closing.start
  children_inOrder : InOrder (e.children.map Child.span)
  prose_apart : e.children.IsChain fun c c' => ¬ (c.isProse = true ∧ c'.isProse = true)
  prose : ∀ span, .prose span ∈ e.children → IsProseAt source span
  /-- What stands in the braces of the tag and among the children lies in them. -/
  braces : ∀ container, .container container ∈ e.parts → container.WellPlaced

/-! ### Texts of lexemes -/

/-- Two stretches of a source, one after the other, make up one that starts with the text of the
first and stops with the text of the second. -/
theorem Slice.join {source text text' : List Char} {span span' : Span} (h : Slice source span text)
    (h' : Slice source span' text') (hle : span.stop ≤ span'.start) :
    ∃ mid, Slice source ⟨span.start, span'.stop⟩ (text ++ (mid ++ text')) := by
  obtain ⟨rest, before, rfl, hstart, hstop⟩ := h
  obtain ⟨rest', before', heq, hstart', hstop'⟩ := h'
  have hlength : byteLength (before ++ text) ≤ byteLength before' := by
    rw [byteLength_append]
    omega
  rw [List.append_assoc before' text' rest'] at heq
  -- the second text stands after the first, as it starts no sooner than that stops
  obtain ⟨mid, rfl⟩ : ∃ mid, before' = before ++ text ++ mid := by
    rcases List.append_eq_append_iff.1 heq with ⟨mid, hmid, -⟩ | ⟨mid, hmid, -⟩
    · exact ⟨mid, hmid⟩
    · rw [hmid, byteLength_append] at hlength
      have hnil : mid = [] := by
        by_contra hne
        have hpos := byteLength_pos hne
        omega
      exact ⟨[], by rw [hmid, hnil, List.append_nil, List.append_nil]⟩
  refine ⟨mid, rest', before, ?_, hstart, ?_⟩
  · rw [heq]
    simp
  · simp only [byteLength_append] at hstart' ⊢
    omega

/-- Whether a token is a run of prose. -/
def Token.isProse : Token → Bool
  | prose _ => true
  | _ => false

/-- Two lexemes are not both runs of prose. -/
def NotBothProse (t u : Lexeme) : Prop :=
  ¬ (t.token.isProse = true ∧ u.token.isProse = true)

theorem notBothProse_of_left {t : Lexeme} (h : t.token.isProse = false) (u : Lexeme) :
    NotBothProse t u := by
  rintro ⟨ht, -⟩
  rw [h] at ht
  cases ht

theorem isBlankProse_of_not_isProse {t : Token} (h : t.isProse = false) :
    Step.isBlankProse t = false := by
  cases t with
  | prose value => cases h
  | _ => rfl

/-- Where prose is read and what comes next ends it, the next lexeme is no prose.  Hence no two runs
of prose stand next to each other: what ends the first is a lexeme. -/
theorem Tiles.isChain {modes : Modes} {offset : Nat} {text : List Char} {steps : List Step}
    (h : Tiles modes offset text steps) :
    (steps.filterMap Step.lexeme?).IsChain NotBothProse ∧
      (modes.head? = some .prose → (∀ c ∈ text.head?, endsProse c = true) →
        ∀ t ∈ (steps.filterMap Step.lexeme?).head?, t.token.isProse = false) := by
  induction h with
  | done => exact ⟨.nil, by simp⟩
  | @step modes offset piece rest token steps hne haccounts hrest ih =>
      obtain ⟨hchain, hnext⟩ := ih
      cases token with
      | none => exact ⟨hchain, fun hmodes _ => absurd hmodes haccounts.1⟩
      | some t =>
          cases ht : t.isProse with
          | false =>
              have hblank := isBlankProse_of_not_isProse ht
              simp only [List.filterMap_cons, Step.lexeme?, hblank, Bool.false_eq_true, if_false]
              refine ⟨hchain.cons fun u _ => notBothProse_of_left ht u, fun _ _ u hu => ?_⟩
              cases hu
              exact ht
          | true =>
              cases t with
              | prose value =>
                  obtain ⟨hmodes, -, hpiece, hends⟩ := haccounts
                  have hafter : modes.after (.prose value) = modes := modes.after_prose hmodes value
                  have hfirst := hnext ((congrArg List.head? hafter).trans hmodes) hends
                  refine ⟨?_, fun _ hstop => ?_⟩
                  · rw [List.filterMap_cons]
                    split
                    · exact hchain
                    · exact hchain.cons fun u hu hboth => by simp [hfirst u hu] at hboth
                  · -- the run would end where it starts
                    obtain ⟨c, piece, rfl⟩ := List.exists_cons_of_ne_nil hne
                    have hc := hpiece c List.mem_cons_self
                    rw [hstop c rfl] at hc
                    cases hc
              | _ => cases ht

section Lexemes

variable {source : String}

/-- Every lexeme takes up a text of the source, which its token accounts for. -/
theorem slice_of_mem_lexemes {t : Lexeme} (ht : t ∈ lexemes source) : ∃ modes text rest,
    Cut source.toList t.span text rest ∧ Accounts modes text rest (some t.token) := by
  obtain ⟨step, hstep, hlexeme⟩ := mem_lexemes.1 ht
  obtain ⟨htoken, -, hspan⟩ := step.lexeme?_eq_some hlexeme
  obtain ⟨text, rest, hcut, -, haccounts⟩ := cut_of_mem_trace hstep
  exact ⟨step.before, text, rest, hspan ▸ hcut, htoken ▸ haccounts⟩

theorem slice_of_isVerbatim {t : Lexeme} (ht : t ∈ lexemes source)
    (hverbatim : t.token.isVerbatim = true) :
    Slice source.toList t.span t.token.spelling.toList := by
  obtain ⟨modes, text, rest, hcut, haccounts⟩ := slice_of_mem_lexemes ht
  rw [spelling_of_accounts hverbatim haccounts, String.toList_ofList]
  exact ⟨rest, hcut⟩

/-- Lexemes take up a text that starts as their first one is spelled. -/
theorem slice_of_extent? {t : Lexeme} {ts : List Lexeme} {span : Span}
    (h : t :: ts <:+: lexemes source) (hspan : extent? (t :: ts) = some span)
    (hverbatim : t.token.isVerbatim = true) :
    ∃ others, Slice source.toList span (t.token.spelling.toList ++ others) := by
  have hfirst := slice_of_isVerbatim (h.subset List.mem_cons_self) hverbatim
  rcases List.eq_nil_or_concat ts with rfl | ⟨us, u, rfl⟩
  · cases hspan
    exact ⟨[], by rwa [List.append_nil]⟩
  · rw [List.concat_eq_append] at h hspan
    obtain ⟨_, text, rest, hcut, -⟩ := slice_of_mem_lexemes (h.subset (by simp : u ∈ _))
    have hordered : Ordered ([t] ++ (us ++ [u])) := (ordered_lexemes source).of_isInfix h
    have hle := hordered.stop_le_start (List.mem_singleton_self t) (by simp : u ∈ us ++ [u])
    obtain ⟨mid, hslice⟩ := hfirst.join ⟨rest, hcut⟩ hle
    cases (extent?_surround t u us).symm.trans hspan
    exact ⟨mid ++ text, hslice⟩

/-- Between `<` and `>` stands a text that they enclose. -/
theorem slice_between {left right : Span} {inside : List Lexeme}
    (h : ⟨.less, left⟩ :: (inside ++ [⟨.greater, right⟩]) <:+: lexemes source) :
    ∃ text, Slice source.toList ⟨left.start, right.stop⟩ ('<' :: (text ++ ['>'])) := by
  have hless : Slice source.toList left ['<'] := by
    simpa [Token.spelling] using slice_of_isVerbatim (h.subset List.mem_cons_self) rfl
  have hgreater : Slice source.toList right ['>'] := by
    simpa [Token.spelling] using
      slice_of_isVerbatim (t := ⟨.greater, right⟩) (h.subset (by simp)) rfl
  have hordered : Ordered ([⟨.less, left⟩] ++ (inside ++ [⟨.greater, right⟩])) :=
    (ordered_lexemes source).of_isInfix h
  have hle := hordered.stop_le_start (List.mem_singleton_self _)
    (by simp : ⟨.greater, right⟩ ∈ inside ++ [⟨.greater, right⟩])
  exact hless.join hgreater hle

theorem isProseAt_of_mem_lexemes {text : String} {span : Span}
    (h : ⟨.prose text, span⟩ ∈ lexemes source) : IsProseAt source.toList span := by
  obtain ⟨step, hstep, hlexeme⟩ := mem_lexemes.1 h
  obtain ⟨htoken, hblank, hspan⟩ := step.lexeme?_eq_some hlexeme
  obtain ⟨piece, rest, hcut, -, haccounts⟩ := cut_of_mem_trace hstep
  rw [htoken] at haccounts
  obtain ⟨-, rfl, hpiece, -⟩ := haccounts
  rw [hspan] at hcut
  refine ⟨piece, ⟨rest, hcut⟩, ?_, hpiece⟩
  simpa [Step.isBlankProse] using hblank

theorem isChain_lexemes (source : String) : (lexemes source).IsChain NotBothProse :=
  (tiles_trace source).isChain.1

end Lexemes

/-! ### Lists of phrases -/

section Lists

variable {skip : List Lexeme → Prop} {ts : List Lexeme}

theorem Written.scattered_items {items : List TagItem} (h : Written skip ts (.items items)) :
    Scattered (fun us item => Written skip us (.item item)) ts items := by
  induction items generalizing ts with
  | nil => exact .nil ts
  | cons item others ih =>
      cases h with
      | items h hothers => exact .take h (ih hothers)

theorem Written.scattered_children {children : List Child}
    (h : Written skip ts (.children children)) :
    Scattered (fun us child => Written skip us (.child child)) ts children := by
  induction children generalizing ts with
  | nil => exact .nil ts
  | cons child others ih =>
      cases h with
      | children h hothers => exact .take h (ih hothers)

/-- Children next to each other are written by lexemes next to each other. -/
theorem Written.prose_apart {children : List Child} (h : Derives ts (.children children))
    (hts : ts.IsChain NotBothProse) :
    children.IsChain fun c c' => ¬ (c.isProse = true ∧ c'.isProse = true) := by
  induction children generalizing ts with
  | nil => exact .nil
  | cons child others ih =>
      cases h with
      | @children us vs _ _ h hothers =>
          refine (ih hothers hts.right_of_append).cons fun other hother => ?_
          rintro ⟨hprose, hprose'⟩
          obtain ⟨others, rfl⟩ := List.head?_eq_some_iff.1 hother
          -- both are single lexemes
          cases hothers with
          | children h' hothers =>
              cases h <;> cases hprose
              cases h' <;> cases hprose'
              exact (List.isChain_cons_cons.1 hts).1 ⟨rfl, rfl⟩

/-- Braces in a tag are the value of an attribute. -/
theorem Written.container_of_item {item : TagItem} {c : Container}
    (h : Written skip ts (.item item)) (hc : .container c ∈ item.groups) :
    ∃ us, us <:+: ts ∧ Written skip us (.container c) := by
  cases h with
  | plain h | spaced h =>
      cases h with
      | noValue | quotedValue => cases hc
      | bracedValue h =>
          obtain rfl : c = _ := by simpa [TagItem.groups, valueGroups] using hc
          refine ⟨_, List.IsSuffix.isInfix ?_, h⟩
          simp [List.suffix_cons_iff]
  | spread _ => simp [TagItem.groups] at hc

theorem Written.container_of_child {child : Child} {c : Container}
    (h : Written skip ts (.child child)) (hc : .container c ∈ child.groups) :
    Written skip ts (.container c) := by
  cases h with
  | prose | elementChild _ => cases hc
  | bracedChild h =>
      obtain rfl : c = _ := by simpa [Child.groups] using hc
      exact h

/-- The lexemes of an element hold those of its items and those of its children. -/
theorem Written.element_lists {e : Element} (h : Written skip ts (.element e)) :
    ∃ us vs, us <:+: ts ∧ vs <:+: ts ∧
      Written skip us (.items e.tag.items) ∧ Written skip vs (.children e.children) := by
  cases h with
  | @single left slash right names us name items hproper hne hname hitems =>
      exact ⟨us, [], ⟨⟨.less, left⟩ :: names, [⟨.slash, slash⟩, ⟨.greater, right⟩], by simp⟩,
        ⟨[], _, rfl⟩, hitems, .noChildren⟩
  | @pair left right left' slash right' names us vs names' name items children hproper hplain hname
      hitems hchildren hclosing =>
      let closing : List Lexeme :=
        ⟨.less, left'⟩ :: ⟨.slash, slash⟩ :: (names' ++ [⟨.greater, right'⟩])
      exact ⟨us, vs,
        ⟨⟨.less, left⟩ :: names, ⟨.greater, right⟩ :: (vs ++ closing), by simp [closing]⟩,
        ⟨⟨.less, left⟩ :: (names ++ (us ++ [⟨.greater, right⟩])), closing, by simp [closing]⟩,
        hitems, hchildren⟩

/-- The braces of an element are those in its tag and those among its children. -/
theorem Written.container_of_parts {e : Element} {c : Container}
    (h : Written skip ts (.element e)) (hc : .container c ∈ e.parts) :
    ∃ us, us <:+: ts ∧ Written skip us (.container c) := by
  obtain ⟨us, vs, hus, hvs, hitems, hchildren⟩ := h.element_lists
  simp only [Element.parts, List.mem_cons, reduceCtorEq, false_or, List.mem_append,
    List.mem_flatMap] at hc
  rcases hc with ⟨item, hitem, hc⟩ | ⟨child, hchild, hc⟩
  · obtain ⟨ws, hws, h⟩ := hitems.scattered_items.exists_of_mem hitem
    obtain ⟨xs, hxs, h⟩ := h.container_of_item hc
    exact ⟨xs, (hxs.trans hws).trans hus, h⟩
  · obtain ⟨ws, hws, h⟩ := hchildren.scattered_children.exists_of_mem hchild
    exact ⟨ws, hws.trans hvs, h.container_of_child hc⟩

end Lists

theorem Tag.mem_attributes {tag : Tag} {attr : Attribute} :
    attr ∈ tag.attributes ↔ .plain attr ∈ tag.items := by
  rw [attributes, List.mem_filterMap]
  constructor
  · rintro ⟨item, hitem, h⟩
    cases item <;> cases h
    exact hitem
  · exact fun h => ⟨_, h, rfl⟩

/-! ### Phrases in a source -/

section Source

variable {source : String} {ts : List Lexeme}

/-- The value of an attribute stands after whatever stands before it. -/
theorem Written.start_le_value {t : Lexeme} {value : Option AttributeValue} {v : AttributeValue}
    (h : Derives ts (.value value)) (before : List Lexeme)
    (hordered : Ordered (t :: (before ++ ts))) (hv : value = some v) :
    t.span.start ≤ v.span.start := by
  rcases h.extent?_value with ⟨rfl, rfl⟩ | ⟨_, equals, vs, rfl, rfl, hspan⟩
  · cases hv
  · cases hv
    have hafter := hordered.stop_le_of_cons
      ((List.suffix_cons _ _).isInfix.trans (List.suffix_append _ _).isInfix) hspan
    have hne := hordered.nonempty t List.mem_cons_self
    omega

theorem Written.attribute_wellPlaced {attr : Attribute} (h : Derives ts (.item (.plain attr)))
    (hts : ts <:+: lexemes source) : attr.WellPlaced source.toList := by
  have hordered := (ordered_lexemes source).of_isInfix hts
  have hextent := h.extent?_item
  cases h with
  | @plain span name us value h =>
      have hstarts := slice_of_extent? hts hextent rfl
      refine ⟨hstarts, fun v hv => ?_⟩
      have hle := h.start_le_value [] hordered hv
      subst hv
      exact ⟨hle, Nat.le_refl _⟩
  | @spaced first colon second space name us value h =>
      have hstarts := slice_of_extent? hts hextent rfl
      refine ⟨hstarts, fun v hv => ?_⟩
      have hle := h.start_le_value [_, _] hordered hv
      subst hv
      exact ⟨hle, Nat.le_refl _⟩

theorem Written.container_wellPlaced {c : Container} (h : Derives ts (.container c))
    (hts : ts <:+: lexemes source) : c.WellPlaced := by
  have hordered := (ordered_lexemes source).of_isInfix hts
  obtain ⟨left, inside, right, rfl, hspan, hinside⟩ := h.container_ends
  have hextent : ∀ us e, Writes us e → extent? us = some e.span := fun _ _ h => h.extent?_element
  refine ⟨fun e he => ?_, hinside.inOrder hextent hordered.tail.left⟩
  refine (hinside.orderly hordered.tail.left).strictlyWithin (fun f hf => ?_) he
  rw [hspan]
  exact hinside.strictlyWithin hextent hordered hf

/-- A tag whose items are written between its ends is well placed. -/
theorem Tag.wellPlaced {tag : Tag} {left right : Span} {inside : List Lexeme}
    (hts : ⟨.less, left⟩ :: (inside ++ [⟨.greater, right⟩]) <:+: lexemes source)
    (hspan : tag.span = ⟨left.start, right.stop⟩)
    (hitems : Scattered (fun us item => Derives us (.item item)) inside tag.items) :
    tag.WellPlaced source.toList := by
  have hordered := (ordered_lexemes source).of_isInfix hts
  have hextent : ∀ us item, Derives us (.item item) → extent? us = some item.span :=
    fun _ _ h => h.extent?_item
  refine ⟨?_, fun item hitem => ?_, hitems.inOrder hextent hordered.tail.left, fun attr hattr => ?_⟩
  · rw [hspan]
    exact slice_between hts
  · rw [hspan]
    exact hitems.strictlyWithin hextent hordered hitem
  · obtain ⟨us, hus, h⟩ := hitems.exists_of_mem (Tag.mem_attributes.1 hattr)
    exact h.attribute_wellPlaced ((hus.trans (isInfix_between _ _ _ _)).trans hts)

/-- Children stand between the lexemes that enclose what writes them. -/
theorem Written.children_between {children : List Child} {first last : Lexeme}
    {others : List Lexeme} (h : Derives ts (.children children))
    (hordered : Ordered (first :: (ts ++ last :: others))) :
    ∀ child ∈ children, first.span.stop ≤ child.span.start ∧ child.span.stop ≤ last.span.start := by
  intro child hchild
  obtain ⟨us, hus, h⟩ := h.scattered_children.exists_of_mem hchild
  have hextent := h.extent?_child
  have hfront : us <:+: ts ++ last :: others := hus.trans (List.prefix_append _ _).isInfix
  exact ⟨hordered.stop_le_of_cons hfront hextent, hordered.tail.stop_le_of_append hus hextent⟩

theorem Written.element_wellPlaced {e : Element} (h : Writes ts e) (hts : ts <:+: lexemes source) :
    e.WellPlaced source.toList := by
  have hordered := (ordered_lexemes source).of_isInfix hts
  have hends : ∃ text, Slice source.toList e.span ('<' :: (text ++ ['>'])) := by
    obtain ⟨left, inside, right, rfl, hspan, -⟩ := h.element_ends
    rw [hspan]
    exact slice_between hts
  have hbraces : ∀ c, .container c ∈ e.parts → c.WellPlaced := by
    intro c hc
    obtain ⟨us, hus, hcontainer⟩ := h.container_of_parts hc
    exact hcontainer.container_wellPlaced (hus.trans hts)
  cases h with
  | @single left slash right names us name items hproper hne hname hitems =>
      have htag :
          ⟨.less, left⟩ :: ((names ++ (us ++ [⟨.slash, slash⟩])) ++ [⟨.greater, right⟩]) <:+:
            lexemes source := by simpa using hts
      exact {
        ends := hends
        tag_start := rfl
        single := fun _ => ⟨rfl, rfl⟩
        closing := fun _ h => by cases h
        tag := Tag.wellPlaced htag rfl ((hitems.scattered_items.before _).after names)
        children := fun _ h => by cases h
        children_inOrder := ⟨by simp [Element.children], by simp [Element.children]⟩
        prose_apart := .nil
        prose := fun _ h => by cases h
        braces := hbraces }
  | @pair left right left' slash right' names us vs names' name items children hproper hplain hname
      hitems hchildren hclosing =>
      -- the opening tag, what stands between the two tags, and the closing tag
      let after : List Lexeme := ⟨.slash, slash⟩ :: (names' ++ [⟨.greater, right'⟩])
      have htag : ⟨.less, left⟩ :: ((names ++ us) ++ [⟨.greater, right⟩]) <:+: lexemes source :=
        List.IsInfix.trans ⟨[], vs ++ ⟨.less, left'⟩ :: after, by simp [after]⟩ hts
      have hbetween : ⟨.greater, right⟩ :: (vs ++ ⟨.less, left'⟩ :: after) <:+: lexemes source :=
        List.IsInfix.trans ⟨⟨.less, left⟩ :: (names ++ us), [], by simp [after]⟩ hts
      have hlast : ⟨.less, left'⟩ :: ((⟨.slash, slash⟩ :: names') ++ [⟨.greater, right'⟩]) <:+:
          lexemes source :=
        List.IsInfix.trans ⟨⟨.greater, right⟩ :: vs, [], by simp [after]⟩ hbetween
      have hvs : vs <:+: lexemes source := (isInfix_between _ _ _ _).trans hbetween
      have hordered' := (ordered_lexemes source).of_isInfix hbetween
      exact {
        ends := hends
        tag_start := rfl
        single := fun h => by cases h
        closing := fun _ h => by
          cases h
          have hle := (List.pairwise_cons.1 hordered'.apart).1 ⟨.less, left'⟩ (by simp)
          exact ⟨rfl, hle, slice_between hlast⟩
        tag := Tag.wellPlaced htag rfl (hitems.scattered_items.after names)
        children := fun _ h => by
          cases h
          exact hchildren.children_between hordered'
        children_inOrder := hchildren.scattered_children.inOrder (fun _ _ h => h.extent?_child)
          hordered'.tail.left
        prose_apart := by
          obtain ⟨front, back, hsource⟩ := hvs
          have hchain := isChain_lexemes source
          rw [← hsource] at hchain
          exact hchildren.prose_apart hchain.left_of_append.right_of_append
        prose := fun span hspan => by
          obtain ⟨ws, hws, h⟩ := hchildren.scattered_children.exists_of_mem hspan
          cases h
          exact isProseAt_of_mem_lexemes (hvs.subset (hws.subset (List.mem_singleton_self _)))
        braces := hbraces }

end Source

/-- On every source that is parsed, every element at any depth is well placed. -/
theorem spans_nest (source : String) (d : Document) (h : Document.parse source = .ok d) :
    ∀ e, Among d.elements e → e.WellPlaced source.toList := by
  intro e he
  obtain ⟨ts, hts, hwrites⟩ := writes_of_among h he
  exact hwrites.element_wellPlaced hts

/-- An element with a namespace, an element in the value of an attribute, prose with a quote, and
an element in braces. -/
def nestedSource : String :=
  "<a role=\x7b(\"x\") + \x60y\x60\x7d on:z=\x7bf(<b/>)\x7d>it's \x7bok && <i \x7b...p\x7d>no</i>\x7d<c/></a>"

/-- What `nestedSource` is parsed into. -/
def nestedDocument : Document :=
  let inTag : Element := .single ⟨.plain "b", [], ⟨30, 34⟩⟩
  let inBraces : Element := .pair ⟨.plain "i", [.spread ⟨52, 58⟩], ⟨49, 59⟩⟩ [.prose ⟨59, 61⟩]
    ⟨61, 65⟩
  let last : Element := .single ⟨.plain "c", [], ⟨66, 70⟩⟩
  let sum : Expr := .binary .add (.quoted "x") (.template "y")
  ⟨[.pair ⟨.plain "a",
      [.plain ⟨none, "role", some (.braced ⟨.expr sum, ⟨8, 21⟩⟩), ⟨3, 21⟩⟩,
        .plain ⟨some "on", "z", some (.braced ⟨.expr (.call (.name "f") [.element inTag]),
          ⟨27, 36⟩⟩), ⟨22, 36⟩⟩], ⟨0, 37⟩⟩
    [.prose ⟨37, 42⟩, .braced ⟨.expr (.logical .and (.name "ok") (.element inBraces)), ⟨42, 66⟩⟩,
      .element last] ⟨70, 74⟩]⟩

theorem parse_nestedSource : Document.parse nestedSource = .ok nestedDocument := by
  with_unfolding_all rfl

theorem spans_nest_sample : Document.parse nestedSource = .ok nestedDocument ∧
    ∀ e, Among nestedDocument.elements e → e.WellPlaced nestedSource.toList :=
  ⟨parse_nestedSource, spans_nest nestedSource nestedDocument parse_nestedSource⟩

end RoleAudit.Markup
