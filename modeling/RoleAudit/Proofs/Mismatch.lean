import RoleAudit.Proofs.Coupling
import RoleAudit.Proofs.OpenBraces

/-!
# Two tags whose names differ

An opening and a closing tag with different names are no element.  What becomes of the document
around them depends on how they are reached.  From element to element through children alone there
is no other way to read them: children end in front of them, and then a closing tag is missing
(`IsRefused`, handed on by `IsRefused.pair`).  Within a pair of braces there is one, since braces
may hold any balanced list (`Exchanges`).

Main statements: `IsDescendant.refuses`, by induction on the way down, and `Written.exchanges`, by
induction on the derivation.
-/

namespace RoleAudit.Markup

open RoleAudit.Text (Span)
open Reader Grammar

/-! ### The way from element to element -/

/-- An element is another one, or one of its children, or a child of such a child, and so on: no
braces stand around it within the other. -/
inductive IsDescendant : Element → Element → Prop
  | self (e : Element) : IsDescendant e e
  | child {tag : Tag} {children : List Child} {closing : Span} {f e : Element}
      (h : .element f ∈ children) (h' : IsDescendant f e) :
      IsDescendant (.pair tag children closing) e

/-- The tokens of an opening tag without attributes, and of a closing tag right after it. -/
def mismatchedTokens (opened closed : Name) : List Token :=
  .less :: (opened.tokens ++ .greater :: .less :: .slash :: (closed.tokens ++ [.greater]))

theorem lexemes_mismatched {n m : Name} {ts : List Lexeme}
    (h : ts.map Lexeme.token = mismatchedTokens n m) :
    ∃ left names right left' slash names' right',
      ts = ⟨.less, left⟩ :: (names ++ ⟨.greater, right⟩ :: ⟨.less, left'⟩ :: ⟨.slash, slash⟩ ::
        (names' ++ [⟨.greater, right'⟩])) ∧
      names.map Lexeme.token = n.tokens ∧ names'.map Lexeme.token = m.tokens := by
  obtain ⟨left, _, rfl, hopening⟩ := lexemes_cons h
  obtain ⟨names, _, rfl, hnames, hopen⟩ := List.map_eq_append_iff.1 hopening
  obtain ⟨right, _, rfl, hless⟩ := lexemes_cons hopen
  obtain ⟨left', _, rfl, hslash⟩ := lexemes_cons hless
  obtain ⟨slash, _, rfl, hclosing⟩ := lexemes_cons hslash
  obtain ⟨names', _, rfl, hnames', hclose⟩ := List.map_eq_append_iff.1 hclosing
  obtain ⟨right', rfl⟩ := lexemes_single hclose
  exact ⟨left, names, right, left', slash, names', right', rfl, hnames, hnames'⟩

theorem mem_mismatchedTokens {n m : Name} {t : Token} (h : t ∈ mismatchedTokens n m) :
    (∃ text, t = .word text) ∨ t = .colon ∨ t = .dot ∨ t = .less ∨ t = .greater ∨ t = .slash := by
  have hname (name : Name) (ht : t ∈ name.tokens) :
      (∃ text, t = .word text) ∨ t = .colon ∨ t = .dot := Name.mem_tokens ht
  simp only [mismatchedTokens, List.mem_cons, List.mem_append, List.not_mem_nil, or_false] at h
  grind

theorem balanced_mismatchedTokens {n m : Name} : Balanced (mismatchedTokens n m) := by
  refine .of_forall fun t ht => ?_
  rcases mem_mismatchedTokens ht with ⟨_, rfl⟩ | rfl | rfl | rfl | rfl | rfl <;> rfl

/-! ### Refused token lists -/

/-- No element starts with the tokens, whatever follows them, though they start as one does. -/
structure IsRefused (toks : List Token) : Prop where
  opens : ∃ t rest, toks = .less :: t :: rest ∧ t ≠ .slash
  fails : ∀ ts tail depth, ts.map Lexeme.token = toks → (ts ++ tail).length < depth →
    (elementTo depth).Fails (ts ++ tail)

/-- An opening tag and children are no element if no closing tag of the same name follows. -/
theorem elementWith_fails_unclosed {element : Reader Element} {expr : Reader Expr}
    {left right : Span} {n : Name} {items : List TagItem} {children : List Child}
    {names ts us rest : List Lexeme} (hproper : n.IsProper)
    (hnames : names.map Lexeme.token = n.tokens) (hstart : next Token.continuesName ts = false)
    (hword : n = .fragment → next Token.isWord ts = false)
    (hitems : (many (tagItem expr)).Reads ts items (⟨.greater, right⟩ :: us))
    (hchildren : (many (child element expr)).Reads us children rest)
    (hclosing : closingTag.Fails rest ∨
      ∃ closed closing tail, closingTag.Reads rest (closed, closing) tail ∧ n ≠ closed) :
    (elementWith element expr).Fails (⟨.less, left⟩ :: (names ++ ts)) := by
  obtain ⟨written, hwritten, rfl, -⟩ := optional_name_reads hproper hnames hstart hword
  simp only [elementWith, fails_bind, fails_orElse]
  refine Or.inr ⟨left, _, by simp, Or.inr ⟨written, _, hwritten, Or.inr ⟨items, _, hitems, ?_,
    Or.inr ⟨right, us, by simp, Or.inr ⟨children, rest, hchildren, ?_⟩⟩⟩⟩⟩
  · split <;> simp
  · rcases hclosing with hclosing | ⟨closed, closing, tail, hclosing, hne⟩
    · exact Or.inl hclosing
    · refine Or.inr ⟨_, tail, hclosing, ?_⟩
      rw [if_neg hne]
      exact fails_refuse

theorem closingTag_fails {left span : Span} {t : Token} {tail : List Lexeme} (ht : t ≠ .slash) :
    closingTag.Fails (⟨.less, left⟩ :: ⟨t, span⟩ :: tail) := by
  have hslash : (token .slash).Fails (⟨t, span⟩ :: tail) := fails_token_cons.2 ht
  simp only [closingTag, fails_bind]
  exact Or.inr ⟨left, _, by simp, Or.inl hslash⟩

/-- Children end where an element starts that is none. -/
theorem child_fails_of_element {element : Reader Element} {expr : Reader Expr} {left : Span}
    {ts : List Lexeme} (h : element.Fails (⟨.less, left⟩ :: ts)) :
    (child element expr).Fails (⟨.less, left⟩ :: ts) := by
  simp only [child, fails_orElse, fails_bind]
  exact ⟨Or.inl h, Or.inl (container_fails rfl), Or.inl (by simp)⟩

theorem Name.head_tokens_append {n : Name} {t : Token} {rest : List Token} (ht : t ≠ .slash) :
    ∃ u others, n.tokens ++ t :: rest = u :: others ∧ u ≠ .slash := by
  cases hn : n.tokens with
  | nil => exact ⟨t, rest, rfl, ht⟩
  | cons u others =>
      refine ⟨u, others ++ t :: rest, rfl, ?_⟩
      rcases Name.mem_tokens (hn ▸ List.mem_cons_self : u ∈ n.tokens) with ⟨_, rfl⟩ | rfl | rfl <;>
        simp

/-- Two tags with different names are refused. -/
theorem isRefused_mismatchedTokens {n m : Name} (hn : n.IsProper) (hm : m.IsProper) (hne : n ≠ m) :
    IsRefused (mismatchedTokens n m) where
  opens := by
    obtain ⟨u, others, heq, hu⟩ := @Name.head_tokens_append n .greater
      (.less :: .slash :: (m.tokens ++ [.greater])) (by simp)
    exact ⟨u, others, by rw [mismatchedTokens, heq], hu⟩
  fails := by
    intro ts tail depth hts hlt
    cases depth with
    | zero => simp at hlt
    | succ depth =>
        obtain ⟨left, names, right, left', slash, names', right', rfl, hnames, hnames'⟩ :=
          lexemes_mismatched hts
        simp only [List.cons_append, List.append_assoc, List.nil_append]
        exact elementWith_fails_unclosed hn hnames rfl (fun _ => rfl)
          (many_stop (tagItem_fails rfl))
          (many_stop (child_fails_closing elementTo_fails_closing))
          (Or.inr ⟨m, _, tail, closingTag_reads hm hnames', hne⟩)

/-- Whatever stands in a tag, and after it, does not start with a slash. -/
theorem head_items_append {items rest : List Token} (h : Repeated IsItem items) :
    ∃ u others, items ++ .greater :: rest = u :: others ∧ u ≠ .slash := by
  obtain ⟨parts, hparts, rfl⟩ := h
  cases parts with
  | nil => exact ⟨.greater, rest, rfl, by simp⟩
  | cons part parts =>
      cases hparts part List.mem_cons_self <;> exact ⟨_, _, rfl, by simp⟩

/-- Among the children of an element, a refused list makes the element refused. -/
theorem IsRefused.pair {n : Name} {items children toks : List Token} (h : IsRefused toks)
    (hproper : n.IsProper) (hfirst : n = .fragment → ∀ text others, items ≠ .word text :: others)
    (hitems : Repeated IsItem items) (hchildren : Repeated IsChild children) :
    IsRefused (.less :: (n.tokens ++ (items ++ .greater :: (children ++ toks)))) where
  opens := by
    obtain ⟨t, rest, heq, ht⟩ := @head_items_append items (children ++ toks) hitems
    obtain ⟨u, others, heq', hu⟩ := @Name.head_tokens_append n t rest ht
    exact ⟨u, others, by rw [heq, heq'], hu⟩
  fails := by
    intro ts tail depth hts hlt
    cases depth with
    | zero => simp at hlt
    | succ depth =>
        obtain ⟨left, _, rfl, hts'⟩ := lexemes_cons hts
        obtain ⟨names, _, rfl, hnames, hts''⟩ := List.map_eq_append_iff.1 hts'
        obtain ⟨us, _, rfl, hus, hopen⟩ := List.map_eq_append_iff.1 hts''
        obtain ⟨right, _, rfl, hinside⟩ := lexemes_cons hopen
        obtain ⟨vs, ws, rfl, hvs, hws⟩ := List.map_eq_append_iff.1 hinside
        have hshorter : (vs ++ (ws ++ tail)).length < depth := by
          simp at hlt ⊢
          omega
        have hrefused : (elementTo depth).Fails (ws ++ tail) :=
          h.fails ws tail depth hws (by simp at hshorter ⊢; omega)
        -- the children before the refused list are read, and those are all
        obtain ⟨t, others, rfl, ht⟩ := h.opens
        obtain ⟨left', _, rfl, hws'⟩ := lexemes_cons hws
        obtain ⟨span, ws, rfl, -⟩ := lexemes_cons hws'
        obtain ⟨read, hread⟩ := hchildren.reads (fun _ => IsChild.ne_nil)
          (fun _ hpart us rest => hpart.reads us rest depth) hvs (child_fails_of_element hrefused)
          hshorter
        let rest := ⟨.greater, right⟩ :: (vs ++ ((⟨.less, left'⟩ :: ⟨t, span⟩ :: ws) ++ tail))
        obtain ⟨written, hwritten⟩ : ∃ written, (many (tagItem (exprTo depth))).Reads (us ++ rest)
            written rest := items_read (takes_to depth).2 hitems hus rfl rfl
        have hstart : next Token.continuesName (us ++ rest) = false :=
          next_items_append hitems hus continuesName_of_startsItem rfl
        have hword : n = .fragment → next Token.isWord (us ++ rest) = false := fun heq =>
          next_isWord_append (hfirst heq) hus rfl
        simp only [List.cons_append, List.append_assoc]
        exact elementWith_fails_unclosed hproper hnames hstart hword hwritten hread
          (Or.inl (closingTag_fails ht))

/-- A refused list after elements is no document. -/
theorem IsRefused.document_fails {toks : List Token} (h : IsRefused toks)
    {front ts tail : List Lexeme} (hfront : IsDocument (front.map Lexeme.token))
    (hts : ts.map Lexeme.token = toks) (d : Document) :
    ¬ document.Reads (front ++ (ts ++ tail)) d [] := by
  intro hread
  obtain ⟨-, hall⟩ := reads_document.1 hread
  have hlt : (ts ++ tail).length < (front ++ (ts ++ tail)).length + 1 := by
    simp only [List.length_append]
    omega
  obtain ⟨read, hstop⟩ := Repeated.reads hfront (fun _ => IsElement.ne_nil)
    (fun _ hpart us rest => hpart.reads us rest _) rfl (h.fails ts tail _ hts hlt)
    (Nat.lt_succ_self _)
  obtain ⟨-, hnil⟩ := hall.unique hstop
  obtain ⟨t, rest, rfl, -⟩ := h.opens
  obtain ⟨left, us, rfl, -⟩ := lexemes_cons hts
  cases hnil

/-! ### Through children -/

/-- Children are written one after the other, and those before one of them are children. -/
theorem Written.exists_child {skip : List Lexeme → Prop} {ts : List Lexeme} {children : List Child}
    (h : Written skip ts (.children children)) {c : Child} (hc : c ∈ children) :
    ∃ front us back, ts = front ++ (us ++ back) ∧ Written skip us (.child c) ∧
      Repeated IsChild (front.map Lexeme.token) := by
  induction children generalizing ts with
  | nil => cases hc
  | cons d others ih =>
      cases h with
      | @children us vs _ _ hfirst hothers =>
          rcases List.mem_cons.1 hc with rfl | hc
          · exact ⟨[], us, vs, rfl, hfirst, .nil⟩
          · obtain ⟨front, ws, back, rfl, hchild, hfront⟩ := ih hothers hc
            refine ⟨us ++ front, ws, back, by simp, hchild, ?_⟩
            rw [List.map_append]
            exact .cons hfirst.isForm hfront

/-- Elements are written one after the other, and those before one of them are a document. -/
theorem Written.exists_element {skip : List Lexeme → Prop} {ts : List Lexeme} {es : List Element}
    (h : Written skip ts (.elements es)) {e : Element} (he : e ∈ es) :
    ∃ front us back, ts = front ++ (us ++ back) ∧ Written skip us (.element e) ∧
      IsDocument (front.map Lexeme.token) := by
  induction es generalizing ts with
  | nil => cases he
  | cons f others ih =>
      cases h with
      | @elements us vs _ _ hfirst hothers =>
          rcases List.mem_cons.1 he with rfl | he
          · exact ⟨[], us, vs, rfl, hfirst, .nil⟩
          · obtain ⟨front, ws, back, rfl, helement, hfront⟩ := ih hothers he
            refine ⟨us ++ front, ws, back, by simp, helement, ?_⟩
            rw [List.map_append]
            exact .cons hfirst.isForm hfront

theorem Written.ne_word_of_not_startsPlain {skip : List Lexeme → Prop} {ts : List Lexeme}
    {items : List TagItem} (h : Written skip ts (.items items))
    (hplain : startsPlain items = false) (text : String) (others : List Token) :
    ts.map Lexeme.token ≠ .word text :: others := by
  intro hword
  have hnext := h.not_word_of_not_startsPlain hplain
  obtain ⟨span, us, rfl, -⟩ := lexemes_cons hword
  cases hnext

/-- A refused list in the place of a descendant makes the element refused. -/
theorem IsDescendant.refuses {skip : List Lexeme → Prop} {f e : Element} (h : IsDescendant f e)
    {ts : List Lexeme} (hts : Written skip ts (.element f)) :
    ∃ front us back, ts = front ++ (us ++ back) ∧ Written skip us (.element e) ∧
      ∀ toks, IsRefused toks → IsRefused (front.map Lexeme.token ++ toks) := by
  induction h generalizing ts with
  | self e => exact ⟨[], ts, [], by simp, hts, fun _ htoks => htoks⟩
  | child hmem _ ih =>
      cases hts with
      | @pair left right left' slash right' names us vs names' name items children hproper hplain
          hname hitems hchildren hclosing =>
          obtain ⟨before, ws, after, rfl, hchild, hbefore⟩ := hchildren.exists_child hmem
          cases hchild with
          | elementChild hchild =>
              obtain ⟨front, xs, back, rfl, helement, hrefuses⟩ := ih hchild
              refine ⟨⟨.less, left⟩ :: (names ++ (us ++ ⟨.greater, right⟩ :: (before ++ front))),
                xs, back ++ (after ++ ⟨.less, left'⟩ :: ⟨.slash, slash⟩ ::
                  (names' ++ [⟨.greater, right'⟩])), by simp, helement, fun toks htoks => ?_⟩
              simpa [hname] using (hrefuses toks htoks).pair hproper
                (fun heq => hitems.ne_word_of_not_startsPlain (hplain heq)) hitems.isForm hbefore

/-! ### Within braces -/

theorem prefix_append_cases {α : Type} {part xs ys : List α} (h : part <+: xs ++ ys) :
    part <+: xs ∨ ∃ inner, part = xs ++ inner ∧ inner <+: ys := by
  obtain ⟨behind, hbehind⟩ := h
  rcases List.append_eq_append_iff.1 hbehind with ⟨more, rfl, -⟩ | ⟨more, rfl, hmore⟩
  · exact Or.inl (List.prefix_append _ _)
  · exact Or.inr ⟨more, rfl, behind, hmore.symm⟩

/-- In a balanced list a balanced part may be exchanged for another. -/
theorem Balanced.exchange {front toks toks' back : List Token}
    (h : Balanced (front ++ (toks ++ back))) (htoks : Balanced toks) (htoks' : Balanced toks') :
    Balanced (front ++ (toks' ++ back)) := by
  have hcount := h.count_eq
  have hcount' := htoks.count_eq
  have hcount'' := htoks'.count_eq
  simp only [List.count_append] at hcount
  refine (staysInside_iff_count.2 fun part hpart => ?_).balanced_of_count ?_
  · rcases prefix_append_cases hpart with hpart | ⟨inner, rfl, hinner⟩
    · exact h.count_close_le (hpart.trans (List.prefix_append _ _))
    rcases prefix_append_cases hinner with hinner | ⟨outer, rfl, houter⟩
    · have hfront := h.count_close_le (List.prefix_append _ _)
      have hle := htoks'.count_close_le hinner
      simp only [List.count_append]
      omega
    · have hle := h.count_close_le
        (show front ++ (toks ++ outer) <+: front ++ (toks ++ back) by simpa using houter)
      simp only [List.count_append] at hle ⊢
      omega
  · simp only [List.count_append]
    omega

/-- The element is a descendant of an element that the phrase is or lists. -/
def Phrase.LeadsTo (e : Element) : Phrase → Prop
  | .child (.element f) => IsDescendant f e
  | .children cs => ∃ f, .element f ∈ cs ∧ IsDescendant f e
  | .element f => IsDescendant f e
  | .elements es => ∃ f ∈ es, IsDescendant f e
  | _ => False

/-- The lexemes of a phrase hold those of an element, and unless the phrase leads to the element,
any balanced list may stand in their place. -/
def Exchanges (ts : List Lexeme) (phrase : Phrase) (e : Element) : Prop :=
  ∃ front us back, ts = front ++ (us ++ back) ∧ Writes us e ∧
    (phrase.LeadsTo e ∨ ∀ toks, Balanced toks →
      phrase.IsForm (front.map Lexeme.token ++ (toks ++ back.map Lexeme.token)))

/-- What holds of a phrase holds of a larger one around it. -/
theorem Exchanges.within {ts : List Lexeme} {phrase : Phrase} {e : Element}
    (h : Exchanges ts phrase e) (phrase' : Phrase) (before after : List Lexeme)
    (hleads : phrase.LeadsTo e → phrase'.LeadsTo e)
    (hform : ∀ toks, phrase.IsForm toks →
      phrase'.IsForm (before.map Lexeme.token ++ (toks ++ after.map Lexeme.token))) :
    Exchanges (before ++ (ts ++ after)) phrase' e := by
  obtain ⟨front, us, back, rfl, hus, hcase⟩ := h
  refine ⟨before ++ front, us, back ++ after, by simp, hus, hcase.imp hleads fun hall => ?_⟩
  intro toks htoks
  simpa using hform _ (hall toks htoks)

theorem IsContainer.inside {inside : List Token}
    (h : IsContainer (.openBrace :: (inside ++ [.closeBrace]))) : Balanced inside := by
  generalize htoks : Token.openBrace :: (inside ++ [.closeBrace]) = toks at h
  obtain ⟨hinside⟩ := h
  exact List.append_cancel_right (List.cons.inj htoks).2 ▸ hinside

theorem Exchanges.self {ts : List Lexeme} {e : Element} (h : Writes ts e) :
    Exchanges ts (.element e) e :=
  ⟨[], ts, [], by simp, h, Or.inl (.self e)⟩

theorem Written.exchanges_container {ts : List Lexeme} {c : Container}
    (h : Derives ts (.container c)) {e : Element} (he : Among c.elements e) :
    Exchanges ts (.container c) e := by
  have hform : IsContainer (ts.map Lexeme.token) := h.isForm
  obtain ⟨left, inside, right, rfl, -, hscattered⟩ := h.container_ends
  obtain ⟨us, ⟨front, back, rfl⟩, hus⟩ := hscattered.exists_of_among he
  refine ⟨⟨.openBrace, left⟩ :: front, us, back ++ [⟨.closeBrace, right⟩], by simp, hus,
    Or.inr fun toks htoks => ?_⟩
  have hbalanced : Balanced (front.map Lexeme.token ++ (us.map Lexeme.token ++
      back.map Lexeme.token)) := IsContainer.inside (by simpa using hform)
  simpa [Phrase.IsForm] using IsContainer.braces (hbalanced.exchange hus.balanced htoks)

theorem among_append {es fs : List Element} {e : Element} :
    Among (es ++ fs) e ↔ Among es e ∨ Among fs e := by
  induction es with
  | nil => simp
  | cons f es ih => simp [ih, or_assoc]

theorem Written.exchanges_value {ts : List Lexeme} {v : Option AttributeValue}
    (h : Derives ts (.value v)) {e : Element} (he : Among (valueElements v) e) :
    Exchanges ts (.value v) e := by
  cases h with
  | noValue | quotedValue => simp [valueElements] at he
  | @bracedValue equals us c hc =>
      simpa using (hc.exchanges_container he).within (.value (some (.braced c)))
        [⟨.equals, equals⟩] [] False.elim fun toks htoks => by
          simpa [Phrase.IsForm] using IsValue.braced htoks

theorem Written.exchanges_item {ts : List Lexeme} {item : TagItem} (h : Derives ts (.item item))
    {e : Element} (he : Among item.elements e) : Exchanges ts (.item item) e := by
  cases h with
  | @plain span name us value hvalue =>
      simpa using (hvalue.exchanges_value he).within (.item _) [⟨.word name, span⟩] []
        False.elim fun toks htoks => by simpa [Phrase.IsForm] using IsItem.plain htoks
  | @spaced first colon second space name us value hvalue =>
      simpa using (hvalue.exchanges_value he).within (.item _)
        [⟨.word space, first⟩, ⟨.colon, colon⟩, ⟨.word name, second⟩] []
        False.elim fun toks htoks => by simpa [Phrase.IsForm] using IsItem.spaced htoks
  | spread _ => simp [TagItem.elements] at he

theorem Written.exchanges_items {ts : List Lexeme} {items : List TagItem}
    (h : Derives ts (.items items)) {e : Element}
    (he : Among (items.flatMap TagItem.elements) e) : Exchanges ts (.items items) e := by
  induction items generalizing ts with
  | nil => simp at he
  | cons item others ih =>
      rw [List.flatMap_cons, among_append] at he
      cases h with
      | @items us vs _ _ hfirst hothers =>
          rcases he with he | he
          · simpa using (hfirst.exchanges_item he).within (.items _) [] vs
              False.elim fun toks htoks => by
                simpa [Phrase.IsForm] using Repeated.cons htoks hothers.isForm
          · simpa using (ih hothers he).within (.items _) us []
              False.elim fun toks htoks => by
                simpa [Phrase.IsForm] using Repeated.cons hfirst.isForm htoks

/-- An element in a tag stands after the first lexeme of what stands there, so that this stays. -/
theorem Written.exchanged_ne_word {front us back : List Lexeme} {items : List TagItem}
    (h : Derives (front ++ (us ++ back)) (.items items)) {e : Element} (hus : Writes us e)
    (hplain : startsPlain items = false) (toks : List Token) (text : String)
    (others : List Token) :
    front.map Lexeme.token ++ (toks ++ back.map Lexeme.token) ≠ .word text :: others := by
  cases front with
  | nil =>
      obtain ⟨left, inside, right, rfl, -, -⟩ := hus.element_ends
      have hnone := @next_items_append _ h.isForm _ [] rfl (fun t => t = .less) (fun {t} ht => by
        cases t <;> first | rfl | cases ht) rfl
      simp at hnone
  | cons t front =>
      intro hword
      rw [List.map_cons, List.cons_append] at hword
      refine h.ne_word_of_not_startsPlain hplain text
        ((front ++ (us ++ back)).map Lexeme.token) ?_
      rw [← (List.cons.inj hword).1]
      rfl

theorem Written.exchanges_single {left slash right : Span} {names us : List Lexeme} {name : Name}
    {items : List TagItem} (hproper : name.IsProper) (hne : name ≠ .fragment)
    (hname : names.map Lexeme.token = name.tokens) (hitems : Derives us (.items items))
    {e : Element} (he : Among (items.flatMap TagItem.elements) e) :
    Exchanges (⟨.less, left⟩ :: (names ++ (us ++ [⟨.slash, slash⟩, ⟨.greater, right⟩])))
      (.element (.single ⟨name, items, ⟨left.start, right.stop⟩⟩)) e := by
  simpa using (hitems.exchanges_items he).within (.element _)
    (⟨.less, left⟩ :: names) [⟨.slash, slash⟩, ⟨.greater, right⟩] False.elim
    fun toks htoks => by simpa [Phrase.IsForm, hname] using IsElement.single hproper hne htoks

section Pair

variable {left right left' slash right' : Span} {names us vs names' : List Lexeme} {name : Name}
  {items : List TagItem} {children : List Child} (hproper : name.IsProper)
  (hplain : name = .fragment → startsPlain items = false)
  (hname : names.map Lexeme.token = name.tokens) (hclosing : names'.map Lexeme.token = name.tokens)
  (hitems : Derives us (.items items)) {e : Element}
include hproper hplain hname hclosing hitems

/-- An element in the opening tag of a pair. -/
theorem Written.exchanges_opening (hchildren : Derives vs (.children children))
    (he : Among (items.flatMap TagItem.elements) e) :
    Exchanges
      (⟨.less, left⟩ :: (names ++ (us ++ ⟨.greater, right⟩ :: (vs ++
        ⟨.less, left'⟩ :: ⟨.slash, slash⟩ :: (names' ++ [⟨.greater, right'⟩])))))
      (.element (.pair ⟨name, items, ⟨left.start, right.stop⟩⟩ children
        ⟨left'.start, right'.stop⟩)) e := by
  obtain ⟨front, ws, back, rfl, hws, hall⟩ := hitems.exchanges_items he
  refine ⟨⟨.less, left⟩ :: (names ++ front), ws, back ++ ⟨.greater, right⟩ :: (vs ++
    ⟨.less, left'⟩ :: ⟨.slash, slash⟩ :: (names' ++ [⟨.greater, right'⟩])), by simp, hws,
    Or.inr fun toks htoks => ?_⟩
  have hform := hall.resolve_left id toks htoks
  obtain ⟨parts, hparts, hflatten⟩ : Repeated IsChild (vs.map Lexeme.token) := hchildren.isForm
  simpa [Phrase.IsForm, hname, hclosing, hflatten] using IsElement.pair hproper
    (fun heq => hitems.exchanged_ne_word hws (hplain heq) toks) hform hparts

/-- An element among the children of a pair, or in one of them. -/
theorem Exchanges.between (h : Exchanges vs (.children children) e) :
    Exchanges
      (⟨.less, left⟩ :: (names ++ (us ++ ⟨.greater, right⟩ :: (vs ++
        ⟨.less, left'⟩ :: ⟨.slash, slash⟩ :: (names' ++ [⟨.greater, right'⟩])))))
      (.element (.pair ⟨name, items, ⟨left.start, right.stop⟩⟩ children
        ⟨left'.start, right'.stop⟩)) e := by
  have hleads : Phrase.LeadsTo e (.children children) →
      Phrase.LeadsTo e (.element (.pair ⟨name, items, ⟨left.start, right.stop⟩⟩ children
        ⟨left'.start, right'.stop⟩)) := by
    rintro ⟨f, hf, hdescendant⟩
    exact .child hf hdescendant
  have hwithin := h.within (.element _)
    (⟨.less, left⟩ :: (names ++ (us ++ [⟨.greater, right⟩])))
    (⟨.less, left'⟩ :: ⟨.slash, slash⟩ :: (names' ++ [⟨.greater, right'⟩])) hleads
    fun toks htoks => by
      obtain ⟨parts, hparts, rfl⟩ := htoks
      simpa [Phrase.IsForm, hname, hclosing] using IsElement.pair hproper
        (fun heq => hitems.ne_word_of_not_startsPlain (hplain heq)) hitems.isForm hparts
  simpa using hwithin

end Pair

/-- What holds of the elements in what is written, where children lead from element to element. -/
def Phrase.IsExchangeable (ts : List Lexeme) (e : Element) : Phrase → Prop
  | .child c => Among c.elements e → Exchanges ts (.child c) e
  | .children cs => Among (cs.flatMap Child.elements) e → Exchanges ts (.children cs) e
  | .element f => Among [f] e → Exchanges ts (.element f) e
  | .elements es => Among es e → Exchanges ts (.elements es) e
  | _ => True

/-- Wherever an element stands in what is written, it is reached through children alone, or any
balanced list may stand in its place. -/
theorem Written.exchanges {ts : List Lexeme} {phrase : Phrase} (h : Derives ts phrase)
    (e : Element) : phrase.IsExchangeable ts e := by
  induction h with
  | prose => simp [Phrase.IsExchangeable, Child.elements]
  | elementChild _ ih =>
      intro he
      simpa using (ih he).within (.child _) [] [] id
        fun toks htoks => by simpa [Phrase.IsForm] using IsChild.element htoks
  | bracedChild hc =>
      intro he
      simpa using (hc.exchanges_container he).within (.child _) [] [] False.elim
        fun toks htoks => by simpa [Phrase.IsForm] using IsChild.braced htoks
  | noChildren => simp [Phrase.IsExchangeable]
  | @children us vs first others hfirst hothers ih ih' =>
      intro he
      rw [List.flatMap_cons, among_append] at he
      rcases he with he | he
      · refine (ih he).within (.children (first :: others)) [] vs (fun hleads => ?_)
          fun toks htoks => by simpa [Phrase.IsForm] using Repeated.cons htoks hothers.isForm
        cases first with
        | element f => exact ⟨f, List.mem_cons_self, hleads⟩
        | prose | braced => exact hleads.elim
      · simpa using (ih' he).within (.children (first :: others)) us []
          (fun hleads => hleads.imp fun _ hf => ⟨List.mem_cons_of_mem _ hf.1, hf.2⟩)
          fun toks htoks => by simpa [Phrase.IsForm] using Repeated.cons hfirst.isForm htoks
  | single hproper hne hname hitems _ =>
      intro he
      rcases among_cons.1 he with rfl | he | he
      · exact .self (.single hproper hne hname hitems)
      · rw [Element.nested_single] at he
        exact Written.exchanges_single hproper hne hname hitems he
      · simp at he
  | pair hproper hplain hname hitems hchildren hclosing _ ih' =>
      intro he
      rcases among_cons.1 he with rfl | he | he
      · exact .self (.pair hproper hplain hname hitems hchildren hclosing)
      · rw [Element.nested_pair, among_append] at he
        rcases he with he | he
        · exact Written.exchanges_opening hproper hplain hname hclosing hitems hchildren he
        · exact (ih' he).between hproper hplain hname hclosing hitems
      · simp at he
  | noElements => simp [Phrase.IsExchangeable]
  | @elements us vs first others hfirst hothers ih ih' =>
      intro he
      have hcase : Among [first] e ∨ Among others e := by
        simpa [or_assoc] using among_cons.1 he
      rcases hcase with he | he
      · simpa using (ih he).within (.elements (first :: others)) [] vs
          (fun hleads => ⟨first, List.mem_cons_self, hleads⟩)
          fun toks htoks => by
            simpa [Phrase.IsForm, IsDocument] using Repeated.cons htoks hothers.isForm
      · simpa using (ih' he).within (.elements (first :: others)) us []
          (fun hleads => hleads.imp fun _ hf => ⟨List.mem_cons_of_mem _ hf.1, hf.2⟩)
          fun toks htoks => by
            simpa [Phrase.IsForm, IsDocument] using Repeated.cons hfirst.isForm htoks
  | _ => trivial

end RoleAudit.Markup
