import RoleAudit.Proofs.Language
import RoleAudit.Proofs.Nesting
import RoleAudit.Proofs.Parts

/-!
# Where phrases stand

The lexemes of a source stand one after the other, and the tree takes its spans from them: an
element, a container, an attribute or a child takes up the stretch from the first to the last of the
lexemes that write it.  What is nested in a phrase is written by stretches of its lexemes, in order
(`Scattered`).  So the spans of a forest nest: `Orderly` says how, and needs no lexemes.

Main statements: `Written.scattered`, `Written.element_ends`, `orderly_of_parse` and
`writes_of_among`.
-/

namespace RoleAudit.Markup

open RoleAudit.Text (Span)
open Reader Grammar

/-! ### Stretches of a source -/

/-- A stretch lies in another and reaches neither end of it. -/
def StrictlyWithin (inner outer : Span) : Prop :=
  outer.start < inner.start ∧ inner.stop < outer.stop

instance (inner outer : Span) : Decidable (StrictlyWithin inner outer) :=
  inferInstanceAs (Decidable (outer.start < inner.start ∧ inner.stop < outer.stop))

theorem StrictlyWithin.trans {a b c : Span} (h : StrictlyWithin a b) (h' : StrictlyWithin b c) :
    StrictlyWithin a c :=
  ⟨Nat.lt_trans h'.1 h.1, Nat.lt_trans h.2 h'.2⟩

theorem StrictlyWithin.irrefl (span : Span) : ¬ StrictlyWithin span span :=
  fun h => Nat.lt_irrefl _ h.1

/-- The stretches hold something each, and stand one after the other. -/
structure InOrder (spans : List Span) : Prop where
  nonempty : ∀ s ∈ spans, s.start < s.stop
  apart : spans.Pairwise fun s s' => s.stop ≤ s'.start

theorem isInfix_between {α : Type} (first last : α) (inside others : List α) :
    inside <:+: first :: (inside ++ last :: others) :=
  ⟨[first], last :: others, rfl⟩

/-- The stretch from the first of some lexemes to the last. -/
def extent? (ts : List Lexeme) : Option Span :=
  ts.head?.bind fun first => ts.getLast?.map fun last => ⟨first.span.start, last.span.stop⟩

@[simp] theorem extent?_single (t : Lexeme) : extent? [t] = some t.span := rfl

@[simp] theorem extent?_surround (first last : Lexeme) (inside : List Lexeme) :
    extent? (first :: (inside ++ [last])) = some ⟨first.span.start, last.span.stop⟩ := by
  simp [extent?, List.getLast?_cons, List.getLast?_append]

theorem extent?_cons {t : Lexeme} {ts : List Lexeme} {start stop : Nat}
    (h : extent? ts = some ⟨start, stop⟩) : extent? (t :: ts) = some ⟨t.span.start, stop⟩ := by
  obtain ⟨first, -, h⟩ := Option.bind_eq_some_iff.1 h
  obtain ⟨last, hlast, h⟩ := Option.map_eq_some_iff.1 h
  cases h
  simp [extent?, List.getLast?_cons, hlast]

/-- The lexemes are not empty and stand one after the other. -/
structure Ordered (ts : List Lexeme) : Prop where
  nonempty : ∀ t ∈ ts, t.span.start < t.span.stop
  apart : ts.Pairwise fun t u => t.span.stop ≤ u.span.start

theorem ordered_lexemes (source : String) : Ordered (lexemes source) :=
  ⟨fun _ ht => start_lt_stop_of_mem_lexemes ht, pairwise_lexemes source⟩

namespace Ordered

variable {ts us : List Lexeme} {span : Span}

theorem sublist (h : Ordered ts) (hsub : us.Sublist ts) : Ordered us :=
  ⟨fun t ht => h.nonempty t (hsub.subset ht), h.apart.sublist hsub⟩

theorem of_isInfix (h : Ordered ts) (hsub : us <:+: ts) : Ordered us :=
  h.sublist hsub.sublist

theorem left (h : Ordered (ts ++ us)) : Ordered ts :=
  h.sublist (List.sublist_append_left _ _)

theorem right (h : Ordered (ts ++ us)) : Ordered us :=
  h.sublist (List.sublist_append_right _ _)

theorem tail {t : Lexeme} (h : Ordered (t :: ts)) : Ordered ts :=
  h.sublist (List.sublist_cons_self _ _)

theorem stop_le_start (h : Ordered (ts ++ us)) {t u : Lexeme} (ht : t ∈ ts) (hu : u ∈ us) :
    t.span.stop ≤ u.span.start :=
  (List.pairwise_append.1 h.apart).2.2 t ht u hu

/-- The extent of lexemes starts with one of them, stops with one of them, and holds something. -/
theorem bounds (h : Ordered ts) (hspan : extent? ts = some span) :
    (∃ t ∈ ts, span.start = t.span.start) ∧ (∃ t ∈ ts, span.stop = t.span.stop) ∧
      span.start < span.stop := by
  obtain ⟨first, hfirst, hspan⟩ := Option.bind_eq_some_iff.1 hspan
  obtain ⟨last, hlast, rfl⟩ := Option.map_eq_some_iff.1 hspan
  have hmem : last ∈ ts := List.mem_of_mem_getLast? hlast
  refine ⟨⟨first, List.mem_of_mem_head? hfirst, rfl⟩, ⟨last, hmem, rfl⟩, ?_⟩
  obtain ⟨ts, rfl⟩ : ∃ us, ts = first :: us := List.head?_eq_some_iff.1 hfirst
  have hne := h.nonempty first List.mem_cons_self
  have hne' := h.nonempty last hmem
  rcases List.mem_cons.1 hmem with rfl | hmem
  · exact hne
  · have hle := (List.pairwise_cons.1 h.apart).1 last hmem
    dsimp only
    omega

/-- Of two runs of lexemes, the extent of the first stops before that of the second starts. -/
theorem extent_le (h : Ordered (ts ++ us)) {span' : Span} (hts : extent? ts = some span)
    (hus : extent? us = some span') : span.stop ≤ span'.start := by
  obtain ⟨-, ⟨t, ht, hstop⟩, -⟩ := h.left.bounds hts
  obtain ⟨⟨u, hu, hstart⟩, -, -⟩ := h.right.bounds hus
  rw [hstop, hstart]
  exact h.stop_le_start ht hu

/-- What stands after a lexeme starts after it. -/
theorem stop_le_of_cons {t : Lexeme} (h : Ordered (t :: ts)) (hsub : us <:+: ts)
    (hspan : extent? us = some span) : t.span.stop ≤ span.start := by
  have hboth : Ordered ([t] ++ us) := h.sublist (hsub.sublist.cons_cons t)
  exact hboth.extent_le (extent?_single t) hspan

/-- What stands before a lexeme stops before it. -/
theorem stop_le_of_append {t : Lexeme} {others : List Lexeme} (h : Ordered (ts ++ t :: others))
    (hsub : us <:+: ts) (hspan : extent? us = some span) : span.stop ≤ t.span.start := by
  have hboth : Ordered (us ++ [t]) := h.sublist (hsub.sublist.append (by simp))
  exact hboth.extent_le hspan (extent?_single t)

/-- What stands between two lexemes lies strictly within the stretch from the one to the other. -/
theorem strictlyWithin {first last : Lexeme} (h : Ordered (first :: (ts ++ [last])))
    (hsub : us <:+: ts) (hspan : extent? us = some span) :
    StrictlyWithin span ⟨first.span.start, last.span.stop⟩ := by
  have hafter := h.left.stop_le_of_cons hsub hspan
  have hbefore := h.tail.stop_le_of_append hsub hspan
  have hne := h.nonempty first List.mem_cons_self
  have hne' := h.nonempty last (by simp)
  exact ⟨by dsimp only; omega, by dsimp only; omega⟩

/-- Of ordered lexemes, those between two of them are the ones that lie strictly within the stretch
from the first to the second. -/
theorem filter_strictlyWithin {front back : List Lexeme} {first last : Lexeme}
    (h : Ordered (front ++ first :: (ts ++ last :: back))) :
    (front ++ first :: (ts ++ last :: back)).filter
      (fun t => StrictlyWithin t.span ⟨first.span.start, last.span.stop⟩) = ts := by
  have hne := h.nonempty
  have hfirst := (List.pairwise_cons.1 h.right.apart).1
  have hfront : ∀ t ∈ front, ¬ StrictlyWithin t.span ⟨first.span.start, last.span.stop⟩ := by
    intro t ht hwithin
    have hle := h.stop_le_start ht (List.mem_cons_self (a := first))
    have hlt := hne t (by simp [ht])
    have hstart := hwithin.1
    dsimp only at hstart
    omega
  have hinside : ∀ t ∈ ts, StrictlyWithin t.span ⟨first.span.start, last.span.stop⟩ := by
    intro t ht
    have hle := hfirst t (by simp [ht])
    have hle' := h.right.tail.stop_le_start ht (List.mem_cons_self (a := last))
    have hlt := hne first (by simp)
    have hlt' := hne last (by simp)
    exact ⟨by dsimp only; omega, by dsimp only; omega⟩
  have hback : ∀ t ∈ back, ¬ StrictlyWithin t.span ⟨first.span.start, last.span.stop⟩ := by
    intro t ht hwithin
    have hle := (List.pairwise_cons.1 h.right.tail.right.apart).1 t ht
    have hlt := hne t (by simp [ht])
    have hstop := hwithin.2
    dsimp only at hstop
    omega
  rw [List.filter_append, List.filter_cons_of_neg (by simp [StrictlyWithin]), List.filter_append,
    List.filter_cons_of_neg (by simp [StrictlyWithin]),
    List.filter_eq_nil_iff.2 (by simpa using hfront),
    List.filter_eq_self.2 (by simpa using hinside),
    List.filter_eq_nil_iff.2 (by simpa using hback), List.nil_append, List.append_nil]

end Ordered

/-! ### Stretches of lexemes -/

/-- Among the lexemes are stretches, one after the other, each of which has the relation to one
member of the list. -/
inductive Scattered {α : Type} (P : List Lexeme → α → Prop) : List Lexeme → List α → Prop
  | nil (ts : List Lexeme) : Scattered P ts []
  | skip {ts : List Lexeme} {xs : List α} (t : Lexeme) (h : Scattered P ts xs) :
      Scattered P (t :: ts) xs
  | take {us ts : List Lexeme} {x : α} {xs : List α} (h : P us x) (h' : Scattered P ts xs) :
      Scattered P (us ++ ts) (x :: xs)

namespace Scattered

variable {α : Type} {P : List Lexeme → α → Prop} {ts us : List Lexeme} {x : α} {xs ys : List α}

theorem after (h : Scattered P us xs) (ts : List Lexeme) : Scattered P (ts ++ us) xs := by
  induction ts with
  | nil => exact h
  | cons t ts ih => exact ih.skip t

theorem append (h : Scattered P ts xs) (h' : Scattered P us ys) :
    Scattered P (ts ++ us) (xs ++ ys) := by
  induction h with
  | nil ts => exact h'.after ts
  | skip t _ ih => exact ih.skip t
  | take hx _ ih =>
      rw [List.append_assoc]
      exact ih.take hx

theorem before (h : Scattered P ts xs) (us : List Lexeme) : Scattered P (ts ++ us) xs := by
  simpa using h.append (nil us)

theorem single (h : P ts x) : Scattered P ts [x] := by
  simpa using (nil []).take h

/-- The first member has a stretch, and the others have theirs after it. -/
theorem exists_of_cons (h : Scattered P ts (x :: xs)) :
    ∃ before us after, ts = before ++ (us ++ after) ∧ P us x ∧ Scattered P after xs := by
  generalize hys : x :: xs = ys at h
  induction h with
  | nil ts => cases hys
  | skip t _ ih =>
      obtain ⟨before, us, after, rfl, hx, hxs⟩ := ih hys
      exact ⟨t :: before, us, after, rfl, hx, hxs⟩
  | @take us ts y ys hy hys' =>
      cases hys
      exact ⟨[], us, ts, rfl, hy, hys'⟩

theorem exists_of_mem (h : Scattered P ts xs) (hx : x ∈ xs) : ∃ us, us <:+: ts ∧ P us x := by
  induction h with
  | nil ts => cases hx
  | skip t _ ih =>
      obtain ⟨us, hus, hx⟩ := ih hx
      exact ⟨us, hus.trans (List.suffix_cons _ _).isInfix, hx⟩
  | @take us ts y ys hy _ ih =>
      rcases List.mem_cons.1 hx with rfl | hx
      · exact ⟨us, (List.prefix_append _ _).isInfix, hy⟩
      · obtain ⟨vs, hvs, hx⟩ := ih hx
        exact ⟨vs, hvs.trans (List.suffix_append _ _).isInfix, hx⟩

variable {span : α → Span} (hspan : ∀ us x, P us x → extent? us = some (span x))
include hspan

/-- Members with stretches in ordered lexemes stand in order. -/
theorem inOrder (h : Scattered P ts xs) (hts : Ordered ts) : InOrder (xs.map span) := by
  induction h with
  | nil ts => exact ⟨by simp, by simp⟩
  | skip t _ ih => exact ih hts.tail
  | @take us ts x xs hx hxs ih =>
      obtain ⟨hne, hapart⟩ := ih hts.right
      obtain ⟨-, -, hlt⟩ := hts.left.bounds (hspan us x hx)
      refine ⟨by simpa using ⟨hlt, by simpa using hne⟩,
        List.pairwise_cons.2 ⟨fun s hs => ?_, hapart⟩⟩
      obtain ⟨y, hy, rfl⟩ := List.mem_map.1 hs
      obtain ⟨vs, hvs, hy⟩ := hxs.exists_of_mem hy
      have hboth : Ordered (us ++ vs) := hts.sublist (hvs.sublist.append_left us)
      exact hboth.extent_le (hspan us x hx) (hspan vs y hy)

/-- Members with stretches between two lexemes lie strictly within the stretch from the first to the
second. -/
theorem strictlyWithin {first last : Lexeme} (h : Scattered P ts xs)
    (hts : Ordered (first :: (ts ++ [last]))) (hx : x ∈ xs) :
    StrictlyWithin (span x) ⟨first.span.start, last.span.stop⟩ := by
  obtain ⟨us, hus, hx⟩ := h.exists_of_mem hx
  exact hts.strictlyWithin hus (hspan us x hx)

end Scattered

/-! ### The extent of a phrase -/

/-- The stretch that a spread or an attribute takes up. -/
def TagItem.span : TagItem → Span
  | .plain attr => attr.span
  | .spread span => span

/-- The stretch that a child takes up. -/
def Child.span : Child → Span
  | .prose span => span
  | .element e => e.span
  | .braced container => container.span

section Phrases

variable {ts : List Lexeme}

theorem Written.extent?_container {c : Container} (h : Derives ts (.container c)) :
    extent? ts = some c.span := by
  cases h with
  | emptyBraces => rfl
  | coveredBraces _ => simp
  | skippedBraces _ _ _ => simp

/-- The value of an attribute stands after an equal sign, and nothing stands for none. -/
theorem Written.extent?_value {value : Option AttributeValue} (h : Derives ts (.value value)) :
    (value = none ∧ ts = []) ∨ ∃ v equals us, value = some v ∧ ts = ⟨.equals, equals⟩ :: us ∧
      extent? us = some v.span := by
  cases h with
  | noValue => exact Or.inl ⟨rfl, rfl⟩
  | @quotedValue equals span text => exact Or.inr ⟨_, equals, _, rfl, rfl, rfl⟩
  | @bracedValue equals us c h => exact Or.inr ⟨_, equals, us, rfl, rfl, h.extent?_container⟩

theorem Written.extent?_item {item : TagItem} (h : Derives ts (.item item)) :
    extent? ts = some item.span := by
  cases h with
  | @plain span name us value h =>
      rcases h.extent?_value with ⟨rfl, rfl⟩ | ⟨v, equals, us, rfl, rfl, hv⟩
      · rfl
      · exact extent?_cons (extent?_cons hv)
  | @spaced first colon second space name us value h =>
      rcases h.extent?_value with ⟨rfl, rfl⟩ | ⟨v, equals, us, rfl, rfl, hv⟩
      · rfl
      · exact extent?_cons (extent?_cons (extent?_cons (extent?_cons hv)))
  | @spread left dots right inside _ =>
      exact extent?_surround ⟨.openBrace, left⟩ ⟨.closeBrace, right⟩ (⟨.spread, dots⟩ :: inside)

end Phrases

/-! ### What is nested in a phrase -/

/-- The outermost elements of a phrase, from left to right. -/
def Phrase.outermost : Phrase → List Element
  | .expr _ e => e.elements
  | .arguments es | .furtherArguments es => exprsElements es
  | .container c => c.elements
  | .value v => valueElements v
  | .item i => i.elements
  | .items is => is.flatMap TagItem.elements
  | .child c => c.elements
  | .children cs => cs.flatMap Child.elements
  | .element e => [e]
  | .elements es => es

/-- The lexemes write an element. -/
abbrev Writes (ts : List Lexeme) (e : Element) : Prop :=
  Derives ts (.element e)

theorem elements_of_literal? {t : Token} {e : Expr} (h : literal? t = some e) :
    e.elements = [] := by
  cases t <;> cases h <;> rfl

theorem elements_of_join? {level : Level} {t : Token} {build : Expr → Expr → Expr}
    (h : level.join? t = some build) (left right : Expr) :
    (build left right).elements = left.elements ++ right.elements := by
  cases level with
  | primary | suffixed | prefixed | full => cases h
  | sum | comparison | conjunction | disjunction => cases t <;> cases h <;> rfl

/-- The outermost elements of a phrase are written by stretches of its lexemes, in order. -/
theorem Written.scattered {skip : List Lexeme → Prop} {ts : List Lexeme} {phrase : Phrase}
    (h : Written skip ts phrase) :
    Scattered (fun us e => Written skip us (.element e)) ts phrase.outermost := by
  induction h with
  | @literal t span e h =>
      have hnone : Phrase.outermost (.expr .primary e) = [] := elements_of_literal? h
      exact hnone ▸ .nil _
  | grouped _ ih => exact .skip _ (ih.before _)
  | nested h _ => exact .single h
  | member _ ih => exact ih.before _
  | call _ _ ih ih' => exact ih.append (.skip _ (ih'.before _))
  | unary _ _ ih => exact .skip _ ih
  | @joined level t span build us vs left right hop _ _ ih ih' =>
      have hboth : Phrase.outermost (.expr level (build left right)) =
          left.elements ++ right.elements := elements_of_join? hop left right
      exact hboth ▸ ih.append (.skip _ ih')
  | conditional _ _ _ ih ih' ih'' => exact ih.append (.skip _ (ih'.append (.skip _ ih'')))
  | tighter _ ih | elementChild _ ih | bracedChild _ ih => exact ih
  | noArguments | lastArgument | noValue | noItems | noChildren | noElements => exact .nil _
  | arguments _ _ ih ih' => exact ih.append ih'
  | trailingComma | emptyBraces | quotedValue | spread _ | prose => exact .nil _
  | skippedBraces _ _ _ => exact .nil _
  | furtherArgument _ _ ih ih' => exact .skip _ (ih.append ih')
  | coveredBraces _ ih => exact .skip _ (ih.before _)
  | bracedValue _ ih | plain _ ih => exact .skip _ ih
  | spaced _ ih => exact .skip _ (.skip _ (.skip _ ih))
  | items _ _ ih ih' | children _ _ ih ih' => simpa [Phrase.outermost] using ih.append ih'
  | elements _ _ ih ih' => exact ih.append ih'
  | single hproper hne hname hitems _ => exact .single (.single hproper hne hname hitems)
  | pair hproper hplain hname hitems hchildren hclosing _ _ =>
      exact .single (.pair hproper hplain hname hitems hchildren hclosing)

/-- An element starts with `<` and stops with `>`, and what is nested in it stands between. -/
theorem Written.element_ends {skip : List Lexeme → Prop} {ts : List Lexeme} {e : Element}
    (h : Written skip ts (.element e)) :
    ∃ left inside right, ts = ⟨.less, left⟩ :: (inside ++ [⟨.greater, right⟩]) ∧
      e.span = ⟨left.start, right.stop⟩ ∧
        Scattered (fun us f => Written skip us (.element f)) inside e.nested := by
  cases h with
  | @single left slash right names us name items hproper hne hname hitems =>
      refine ⟨left, names ++ (us ++ [⟨.slash, slash⟩]), right, by simp, rfl, ?_⟩
      rw [Element.nested_single]
      exact (hitems.scattered.before _).after names
  | @pair left right left' slash right' names us vs names' name items children hproper hplain hname
      hitems hchildren hclosing =>
      refine ⟨left, names ++ (us ++ ⟨.greater, right⟩ :: (vs ++ ⟨.less, left'⟩ :: ⟨.slash, slash⟩ ::
        names')), right', by simp, rfl, ?_⟩
      have hboth := hitems.scattered.append (.skip ⟨.greater, right⟩ (hchildren.scattered.before
        (⟨.less, left'⟩ :: ⟨.slash, slash⟩ :: names')))
      exact hboth.after names

theorem Written.extent?_element {e : Element} (h : Derives ts (.element e)) :
    extent? ts = some e.span := by
  obtain ⟨left, inside, right, rfl, hspan, -⟩ := h.element_ends
  rw [extent?_surround, hspan]

theorem Written.extent?_child {child : Child} (h : Derives ts (.child child)) :
    extent? ts = some child.span := by
  cases h with
  | prose => rfl
  | elementChild h => exact h.extent?_element
  | bracedChild h => exact h.extent?_container

/-- Braces start and stop a container, and what is nested in it stands between. -/
theorem Written.container_ends {skip : List Lexeme → Prop} {ts : List Lexeme} {c : Container}
    (h : Written skip ts (.container c)) :
    ∃ left inside right, ts = ⟨.openBrace, left⟩ :: (inside ++ [⟨.closeBrace, right⟩]) ∧
      c.span = ⟨left.start, right.stop⟩ ∧
        Scattered (fun us e => Written skip us (.element e)) inside c.elements := by
  cases h with
  | @emptyBraces left right => exact ⟨left, [], right, rfl, rfl, .nil _⟩
  | @coveredBraces left right inside e h => exact ⟨left, inside, right, rfl, rfl, h.scattered⟩
  | @skippedBraces left right inside _ _ _ => exact ⟨left, inside, right, rfl, rfl, .nil _⟩

/-! ### Forests in order -/

/-- In a forest the spans of elements nest: what is nested in an element lies strictly within it,
and elements next to each other stand in order. -/
inductive Orderly : List Element → Prop
  | nil : Orderly []
  | cons {e : Element} {es : List Element} (hlt : e.span.start < e.span.stop)
      (hwithin : ∀ f ∈ e.nested, StrictlyWithin f.span e.span) (hnested : Orderly e.nested)
      (happart : ∀ f ∈ es, e.span.stop ≤ f.span.start) (hothers : Orderly es) : Orderly (e :: es)

/-- Elements that are written in ordered lexemes, one after the other, make up a forest in order. -/
theorem Scattered.orderly {ts : List Lexeme} {es : List Element} (h : Scattered Writes ts es)
    (hts : Ordered ts) : Orderly es := by
  induction es using forest_induction generalizing ts with
  | nil => exact .nil
  | cons e es ih ih' =>
      obtain ⟨before, us, after, rfl, he, hothers⟩ := h.exists_of_cons
      have hboth := hts.right
      have hextent := he.extent?_element
      obtain ⟨left, inside, right, rfl, hspan, hnested⟩ := he.element_ends
      refine .cons (hboth.left.bounds hextent).2.2 (fun f hf => ?_)
        (ih hnested hboth.left.tail.left) (fun f hf => ?_) (ih' hothers hboth.right)
      · rw [hspan]
        exact hnested.strictlyWithin (fun _ _ hg => hg.extent?_element) hboth.left hf
      · obtain ⟨vs, hvs, hf⟩ := hothers.exists_of_mem hf
        have hpair := hboth.sublist (hvs.sublist.append_left _)
        exact hpair.extent_le hextent hf.extent?_element

namespace Orderly

variable {es : List Element} {e f : Element}

/-- Every element takes up something. -/
theorem nonempty (h : Orderly es) (he : Among es e) : e.span.start < e.span.stop := by
  induction h with
  | nil => simp at he
  | cons hlt _ _ _ _ ih ih' =>
      rcases among_cons.1 he with rfl | he | he
      · exact hlt
      · exact ih he
      · exact ih' he

/-- What holds of the spans of a forest, and of every span strictly within one of which it holds,
holds at any depth. -/
theorem inherit {P : Span → Prop}
    (hP : ∀ {inner outer : Span}, StrictlyWithin inner outer → P outer → P inner) (h : Orderly es)
    (hes : ∀ f ∈ es, P f.span) (he : Among es e) : P e.span := by
  induction h with
  | nil => simp at he
  | @cons f es _ hwithin _ _ _ ih ih' =>
      have hf := hes f List.mem_cons_self
      rcases among_cons.1 he with rfl | he | he
      · exact hf
      · exact ih (fun g hg => hP (hwithin g hg) hf) he
      · exact ih' (fun g hg => hes g (List.mem_cons_of_mem _ hg)) he

/-- What is nested at any depth in a stretch that holds the trees of a forest lies strictly within
it. -/
theorem strictlyWithin {span : Span} (h : Orderly es) (hes : ∀ f ∈ es, StrictlyWithin f.span span)
    (he : Among es e) : StrictlyWithin e.span span :=
  h.inherit (fun hinner houter => hinner.trans houter) hes he

/-- What stands after a place, at any depth, starts after it. -/
theorem le_start {offset : Nat} (h : Orderly es) (hes : ∀ f ∈ es, offset ≤ f.span.start)
    (he : Among es e) : offset ≤ e.span.start :=
  h.inherit (P := fun span => offset ≤ span.start)
    (fun hinner houter => Nat.le_trans houter (Nat.le_of_lt hinner.1)) hes he

theorem head_lt (h : Orderly (e :: es)) : e.span.start < e.span.stop :=
  h.nonempty (among_cons.2 (Or.inl rfl))

theorem nested (h : Orderly (e :: es)) : Orderly e.nested := by
  cases h
  assumption

theorem tail (h : Orderly (e :: es)) : Orderly es := by
  cases h
  assumption

/-- What is nested in an element, at any depth, lies strictly within it. -/
theorem within_head (h : Orderly (e :: es)) (hf : Among e.nested f) :
    StrictlyWithin f.span e.span := by
  cases h with
  | cons _ hwithin hnested _ _ => exact hnested.strictlyWithin hwithin hf

/-- What stands after an element, at any depth, starts after it. -/
theorem stop_head_le (h : Orderly (e :: es)) (hf : Among es f) : e.span.stop ≤ f.span.start := by
  cases h with
  | cons _ _ _ happart hothers => exact hothers.le_start happart hf

theorem not_among_tail (h : Orderly (e :: es)) (hf : StrictlyWithin f.span e.span) :
    ¬ Among es f := by
  intro hmem
  have hle := h.stop_head_le hmem
  have hlt := h.tail.nonempty hmem
  have hstop := hf.2
  omega

end Orderly

/-! ### Parsed sources -/

theorem derives_of_parse {source : String} {d : Document} (h : Document.parse source = .ok d) :
    Derives (lexemes source) (.elements d.elements) :=
  derives_of_reads_document (ofLexemes_eq_ok_iff.1 h)

/-- The elements of a parsed source make up a forest in order. -/
theorem orderly_of_parse {source : String} {d : Document} (h : Document.parse source = .ok d) :
    Orderly d.elements :=
  (derives_of_parse h).scattered.orderly (ordered_lexemes source)

/-- Every element of a forest, at any depth, is written by a stretch of its lexemes. -/
theorem Scattered.exists_of_among {skip : List Lexeme → Prop} {ts : List Lexeme}
    {es : List Element} (h : Scattered (fun us e => Written skip us (.element e)) ts es)
    {e : Element} (he : Among es e) : ∃ us, us <:+: ts ∧ Written skip us (.element e) := by
  induction he generalizing ts with
  | here he => exact h.exists_of_mem he
  | inside hf _ ih =>
      obtain ⟨us, hus, hf⟩ := h.exists_of_mem hf
      obtain ⟨left, inside, right, rfl, -, hnested⟩ := hf.element_ends
      obtain ⟨vs, hvs, he⟩ := ih hnested
      exact ⟨vs, (hvs.trans (isInfix_between _ _ _ _)).trans hus, he⟩

theorem writes_of_among {source : String} {d : Document} (h : Document.parse source = .ok d)
    {e : Element} (he : Among d.elements e) : ∃ ts, ts <:+: lexemes source ∧ Writes ts e :=
  (derives_of_parse h).scattered.exists_of_among he

end RoleAudit.Markup
