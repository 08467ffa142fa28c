import RoleAudit.Proofs.OpenBraces
import RoleAudit.Proofs.Soundness

/-!
# The failures that readers meet

An attempt at reading tells the furthest failure that was met, whether it is met for good or passed
over.  This module says where it can lie and what it can be about, for every reader of the grammar
at once:

* it lies behind a front part of the list that closes no brace which it does not open;
* if it is about two names, a closing tag of the one ends there, and the other, which is a different
  one, is written before it.

`Keeps` is the invariant, with one lemma for each way of putting readers together; the readers that
go over a closing brace satisfy `Closes` up to their opening one.  Main statement: `keeps_to`, for
elements and expressions at every depth, with `meets_document`.
-/

namespace RoleAudit.Markup

open RoleAudit.Text (Span)

namespace Reader

variable {α β : Type}

/-- Whatever failure the reader meets lies behind a front part of the list with the property. -/
def Meets (p : Reader α) (F : List Lexeme → Failure → Prop) : Prop :=
  ∀ ⦃ts f⦄, (p ts).furthest = some f → ∃ front, ts = front ++ f.rest ∧ F front f

section Meets

variable {p : Reader α} {F G : List Lexeme → Failure → Prop}

theorem Meets.mono (h : p.Meets F) (himp : ∀ front f, F front f → G front f) : p.Meets G := by
  intro ts f hf
  obtain ⟨front, hfront, hF⟩ := h hf
  exact ⟨front, hfront, himp front f hF⟩

theorem meets_pure {a : α} : Meets (pure a : Reader α) F := by
  intro ts f hf
  cases hf

theorem meets_refuse {cause : Cause} (h : ∀ ts, F [] ⟨ts, cause⟩) :
    Meets (refuse cause : Reader α) F := by
  intro ts f hf
  obtain rfl := Option.some.inj hf
  exact ⟨[], rfl, h ts⟩

theorem meets_accept {kind : Token → Option α} (h : ∀ ts, F [] ⟨ts, .unexpected⟩) :
    (accept kind).Meets F := by
  intro ts f hf
  cases ts with
  | nil => exact meets_refuse (α := α) h hf
  | cons t ts =>
      simp only [accept] at hf
      split at hf
      · cases hf
      · exact meets_refuse (α := α) h hf

/-- What is met after a front part was taken lies behind both. -/
theorem Meets.bind {P : List Lexeme → α → Prop} {q : α → Reader β}
    {G : α → List Lexeme → Failure → Prop} (hp : p.Meets F) (htakes : p.Takes P)
    (hq : ∀ a, (q a).Meets (G a))
    (hG : ∀ us a vs f, P us a → G a vs f → F (us ++ vs) f) : Meets (p >>= q) F := by
  intro ts f hf
  change (Reader.bind p q ts).furthest = some f at hf
  unfold Reader.bind at hf
  rcases h : p ts with ⟨_ | ⟨a, mid⟩, missed⟩
  · rw [h] at hf
    exact hp (by rw [h]; exact hf)
  · rw [h] at hf
    rcases Failure.further_eq_some hf with hf | hf
    · exact hp (by rw [h]; exact hf)
    · obtain ⟨us, rfl, hus⟩ := htakes (show p.Reads ts a mid by simp [Reads, h])
      obtain ⟨vs, rfl, hvs⟩ := hq a hf
      exact ⟨us ++ vs, by simp, hG us a vs f hus hvs⟩

/-- Nothing is met once all is read. -/
theorem Meets.bind_pure {g : α → β} (hp : p.Meets F) :
    Meets (do
      let a ← p
      return g a) F := by
  intro ts f hf
  change (Reader.bind p _ ts).furthest = some f at hf
  unfold Reader.bind at hf
  rcases h : p ts with ⟨_ | ⟨a, mid⟩, missed⟩ <;> rw [h] at hf
  · exact hp (by rw [h]; exact hf)
  · rcases Failure.further_eq_some hf with hf | hf
    · exact hp (by rw [h]; exact hf)
    · cases hf

theorem Meets.orElse {q : Reader α} (hp : p.Meets F) (hq : q.Meets F) : Meets (p <|> q) F := by
  intro ts f hf
  change (Reader.orElse p q ts).furthest = some f at hf
  unfold Reader.orElse at hf
  rcases h : p ts with ⟨_ | read, missed⟩ <;> rw [h] at hf
  · rcases h' : q ts with ⟨_ | read', missed'⟩ <;> rw [h'] at hf
    · rcases Failure.further_eq_some hf with hf | hf
      · exact hp (by rw [h]; exact hf)
      · exact hq (by rw [h']; exact hf)
    · exact hq (by rw [h']; exact hf)
  · exact hp (by rw [h]; exact hf)

theorem furthest_optional (ts : List Lexeme) : (optional p ts).furthest = (p ts).furthest := by
  unfold optional
  rcases p ts with ⟨_ | ⟨a, mid⟩, missed⟩ <;> rfl

theorem furthest_ahead (ts : List Lexeme) : (ahead p ts).furthest = (p ts).furthest := by
  unfold ahead
  rcases p ts with ⟨_ | ⟨a, mid⟩, missed⟩ <;> rfl

theorem Meets.optional (hp : p.Meets F) : (optional p).Meets F := by
  intro ts f hf
  rw [furthest_optional] at hf
  exact hp hf

theorem Meets.ahead (hp : p.Meets F) : (ahead p).Meets F := by
  intro ts f hf
  rw [furthest_ahead] at hf
  exact hp hf

theorem Meets.many {P : List Lexeme → Prop} (hp : p.Meets F) (htakes : p.Takes fun us _ => P us)
    (hF : ∀ us vs f, P us → F vs f → F (us ++ vs) f) : (many p).Meets F := by
  intro ts f hf
  induction hn : ts.length using Nat.strongRecOn generalizing ts with
  | ind n ih =>
      rw [Reader.many] at hf
      rcases h : p ts with ⟨_ | ⟨a, mid⟩, missed⟩ <;> rw [h] at hf
      · exact hp (by rw [h]; exact hf)
      · obtain ⟨us, hts, hus⟩ := htakes (show p.Reads ts a mid by simp [Reads, h])
        dsimp only at hf
        split at hf
        · next hlt =>
            rcases Failure.further_eq_some hf with hf | hf
            · exact hp (by rw [h]; exact hf)
            · obtain ⟨vs, rfl, hvs⟩ := ih _ (hn ▸ hlt) hf rfl
              exact ⟨us ++ vs, by rw [hts, List.append_assoc], hF us vs f hus hvs⟩
        · exact hp (by rw [h]; exact hf)

end Meets

end Reader

open Reader Grammar

/-! ### The invariant -/

/-- A name is written somewhere among some lexemes. -/
def IsWrittenIn (name : Name) (front : List Lexeme) : Prop :=
  name.IsProper ∧ name.tokens <:+: front.map Lexeme.token

/-- A closing tag of a name ends some lexemes. -/
def EndsWithClosing (name : Name) (tag : Span) (front : List Lexeme) : Prop :=
  name.IsProper ∧ ∃ before left slash names right,
    front = before ++ ⟨.less, left⟩ :: ⟨.slash, slash⟩ :: (names ++ [⟨.greater, right⟩]) ∧
      names.map Lexeme.token = name.tokens ∧ tag = ⟨left.start, max left.start right.stop⟩

theorem IsWrittenIn.behind {name : Name} {front : List Lexeme} (h : IsWrittenIn name front)
    (us : List Lexeme) : IsWrittenIn name (us ++ front) := by
  refine ⟨h.1, ?_⟩
  rw [List.map_append]
  exact h.2.trans (List.suffix_append _ _).isInfix

theorem EndsWithClosing.behind {name : Name} {tag : Span} {front : List Lexeme}
    (h : EndsWithClosing name tag front) (us : List Lexeme) :
    EndsWithClosing name tag (us ++ front) := by
  obtain ⟨hproper, before, left, slash, names, right, rfl, hnames, htag⟩ := h
  exact ⟨hproper, us ++ before, left, slash, names, right, by simp, hnames, htag⟩

/-- A failure that is met behind some lexemes.  The names that are `known` were written before
these. -/
structure Missed (known : Name → Prop) (front : List Lexeme) (f : Failure) : Prop where
  staysInside : StaysInside (front.map Lexeme.token)
  mismatch : ∀ opened closed tag, f.cause = .mismatch opened closed tag →
    opened ≠ closed ∧ EndsWithClosing closed tag front ∧
      (known opened ∨ IsWrittenIn opened front)

namespace Missed

variable {known : Name → Prop} {front : List Lexeme} {f : Failure}

theorem here (ts : List Lexeme) : Missed known [] ⟨ts, .unexpected⟩ :=
  ⟨.nil, fun _ _ _ h => by cases h⟩

theorem mono {known' : Name → Prop} (h : Missed known front f)
    (himp : ∀ n, known n → known' n) : Missed known' front f := by
  refine ⟨h.staysInside, fun opened closed tag hcause => ?_⟩
  obtain ⟨hne, hends, hwritten⟩ := h.mismatch opened closed tag hcause
  exact ⟨hne, hends, hwritten.imp_left (himp opened)⟩

theorem behind {us : List Lexeme} (hus : StaysInside (us.map Lexeme.token))
    (h : Missed known front f) : Missed known (us ++ front) f := by
  refine ⟨by simpa using hus.append h.staysInside, fun opened closed tag hcause => ?_⟩
  obtain ⟨hne, hends, hwritten⟩ := h.mismatch opened closed tag hcause
  exact ⟨hne, hends.behind us, hwritten.imp_right fun h => h.behind us⟩

end Missed

theorem token_meets {known : Name → Prop} {expected : Token} :
    (token expected).Meets (Missed known) :=
  (meets_accept .here).bind_pure

/-- The reader takes lists that stay inside braces, and meets failures behind such lists. -/
structure Keeps (known : Name → Prop) {α : Type} (p : Reader α) : Prop where
  takes : p.Takes fun used _ => StaysInside (used.map Lexeme.token)
  meets : p.Meets (Missed known)

/-- The reader takes a closing brace after such a list, and nothing further. -/
structure Closes (known : Name → Prop) {α : Type} (p : Reader α) : Prop where
  takes : p.Takes fun used _ => ∃ inside, StaysInside inside ∧
    used.map Lexeme.token = inside ++ [.closeBrace]
  meets : p.Meets (Missed known)

section Keeps

variable {α β : Type} {known : Name → Prop} {p : Reader α}

namespace Keeps

theorem mono {known' : Name → Prop} (h : Keeps known p) (himp : ∀ n, known n → known' n) :
    Keeps known' p :=
  ⟨h.takes, h.meets.mono fun _ _ hmissed => hmissed.mono himp⟩

theorem pure {a : α} : Keeps known (Pure.pure a : Reader α) := by
  refine ⟨fun ts b rest h => ?_, meets_pure⟩
  obtain ⟨-, rfl⟩ := reads_pure.1 h
  exact ⟨[], rfl, .nil⟩

theorem refuse : Keeps known (Reader.refuse .unexpected : Reader α) := by
  refine ⟨fun ts b rest h => ?_, meets_refuse .here⟩
  simp at h

theorem accept {kind : Token → Option α} (h : kind .closeBrace = none) :
    Keeps known (Reader.accept kind) := by
  refine ⟨fun ts read rest hread => ?_, meets_accept .here⟩
  obtain ⟨t, ht, rfl⟩ := reads_accept.1 hread
  refine ⟨[⟨t, read.2⟩], rfl, .single ?_⟩
  rintro rfl
  rw [h] at ht
  cases ht

theorem bind {q : α → Reader β} (hp : Keeps known p) (hq : ∀ a, Keeps known (q a)) :
    Keeps known (p >>= q) := by
  refine ⟨fun ts b rest h => ?_, hp.meets.bind hp.takes (fun a => (hq a).meets) ?_⟩
  · obtain ⟨a, mid, ha, hb⟩ := reads_bind.1 h
    obtain ⟨us, rfl, hus⟩ := hp.takes ha
    obtain ⟨vs, rfl, hvs⟩ := (hq a).takes hb
    exact ⟨us ++ vs, by simp, by simpa using hus.append hvs⟩
  · exact fun us a vs f hus hmissed => hmissed.behind hus

theorem token {expected : Token} (h : expected ≠ .closeBrace) :
    Keeps known (Reader.token expected) :=
  (accept (by simp [h.symm])).bind fun _ => pure

theorem orElse {q : Reader α} (hp : Keeps known p) (hq : Keeps known q) :
    Keeps known (p <|> q) := by
  refine ⟨fun ts a rest h => ?_, hp.meets.orElse hq.meets⟩
  rcases reads_orElse.1 h with h | ⟨-, h⟩
  · exact hp.takes h
  · exact hq.takes h

theorem optional (hp : Keeps known p) : Keeps known (Reader.optional p) := by
  refine ⟨fun ts value rest h => ?_, hp.meets.optional⟩
  rcases reads_optional.1 h with ⟨a, -, ha⟩ | ⟨-, rfl, -⟩
  · exact hp.takes ha
  · exact ⟨[], rfl, .nil⟩

theorem ahead (hp : p.Meets (Missed known)) : Keeps known (Reader.ahead p) := by
  refine ⟨fun ts a rest h => ?_, hp.ahead⟩
  obtain ⟨rfl, -⟩ := reads_ahead.1 h
  exact ⟨[], rfl, .nil⟩

theorem many (hp : Keeps known p) : Keeps known (Reader.many p) :=
  ⟨hp.takes.many .nil fun us vs _ _ hus hvs => by simpa using hus.append hvs,
    hp.meets.many hp.takes fun _ _ _ hus hmissed => hmissed.behind hus⟩

theorem many1 (hp : Keeps known p) : Keeps known (Reader.many1 p) :=
  hp.bind fun _ => hp.many.bind fun _ => pure

end Keeps

namespace Closes

theorem close {f : Span → β} :
    Closes known (do
      let right ← token .closeBrace
      return f right) := by
  refine ⟨fun ts b rest h => ?_, ?_⟩
  · simp only [reads_bind, reads_token, reads_pure] at h
    obtain ⟨right, _, rfl, -, rfl⟩ := h
    exact ⟨[⟨.closeBrace, right⟩], rfl, [], .nil, rfl⟩
  · exact token_meets.bind_pure

theorem bind {q : α → Reader β} (hp : Keeps known p) (hq : ∀ a, Closes known (q a)) :
    Closes known (p >>= q) := by
  refine ⟨fun ts b rest h => ?_, hp.meets.bind hp.takes (fun a => (hq a).meets) ?_⟩
  · obtain ⟨a, mid, ha, hb⟩ := reads_bind.1 h
    obtain ⟨us, rfl, hus⟩ := hp.takes ha
    obtain ⟨vs, rfl, inside, hinside, hvs⟩ := (hq a).takes hb
    exact ⟨us ++ vs, by simp, us.map Lexeme.token ++ inside, hus.append hinside, by simp [hvs]⟩
  · exact fun us a vs f hus hmissed => hmissed.behind hus

/-- The opening brace makes up for the closing one. -/
theorem keeps {q : Span → Reader β} (hq : ∀ left, Closes known (q left)) :
    Keeps known (token .openBrace >>= q) := by
  have htoken : Keeps known (token .openBrace) := .token (by simp)
  refine ⟨fun ts b rest h => ?_,
    htoken.meets.bind htoken.takes (fun left => (hq left).meets) ?_⟩
  · simp only [reads_bind, reads_token] at h
    obtain ⟨left, _, rfl, hb⟩ := h
    obtain ⟨used, rfl, inside, hinside, hused⟩ := (hq left).takes hb
    exact ⟨⟨.openBrace, left⟩ :: used, rfl, by simpa [hused] using hinside.braced⟩
  · exact fun us left vs f hus hmissed => hmissed.behind hus

end Closes

end Keeps

/-! ### The readers of the grammar -/

section Readers

variable {known : Name → Prop}

theorem word_keeps : Keeps known word :=
  .accept rfl

theorem name_keeps : Keeps known name :=
  word_keeps.bind fun _ =>
    (Keeps.optional (.orElse
      ((Keeps.token (by simp)).bind fun _ => word_keeps.bind fun _ => .pure)
      ((Keeps.many1 ((Keeps.token (by simp)).bind fun _ => word_keeps)).bind fun _ => .pure))).bind
      fun _ => .pure

theorem balancedTo_keeps (depth : Nat) : Keeps known (balancedTo depth) := by
  induction depth with
  | zero => exact Keeps.refuse
  | succ depth ih =>
      rw [balancedTo_succ]
      exact .orElse (Closes.keeps fun _ => .bind ih.many fun _ => .close)
        ((Keeps.accept rfl).bind fun _ => .pure)

theorem balanced_keeps : Keeps known balanced := by
  have hkeeps (depth : Nat) : Keeps known (balancedTo depth) := balancedTo_keeps depth
  exact ⟨fun ts _ _ h => (hkeeps (ts.length + 1)).takes h,
    fun ts _ h => (hkeeps (ts.length + 1)).meets h⟩

/-- What is skipped in a group, up to the brace that closes it. -/
theorem skipped_closes {β : Type} {f : Span → β} : Closes known (do
    let _ ← many balanced
    let right ← token .closeBrace
    return f right) :=
  .bind (.many balanced_keeps) fun _ => .close

section Nested

variable {expr : Reader Expr} (hexpr : Keeps known expr)
include hexpr

theorem arguments_keeps : Keeps known (arguments expr) := by
  have hclose {all : List Expr} : Keeps known (do
      let _ ← token .closeParen
      return all) := (Keeps.token (by simp)).bind fun _ => .pure
  refine (Keeps.token (by simp)).bind fun _ => hexpr.optional.bind fun first => ?_
  cases first with
  | none => exact Keeps.pure.bind fun _ => hclose
  | some first =>
      exact (Keeps.many ((Keeps.token (by simp)).bind fun _ => hexpr)).bind fun _ =>
        (Keeps.optional (.token (by simp))).bind fun _ => Keeps.pure.bind fun _ => hclose

theorem suffix_keeps : Keeps known (suffix expr) :=
  .orElse ((Keeps.token (by simp)).bind fun _ => word_keeps.bind fun _ => .pure)
    ((arguments_keeps hexpr).bind fun _ => .pure)

/-- A container after its opening brace. -/
theorem container_closes (left : Span) : Closes known (do
    let inner ← content expr
    let right ← token .closeBrace
    return (⟨inner, ⟨left.start, right.stop⟩⟩ : Container)) := by
  have hcontent : Keeps known (content expr) :=
    .orElse (hexpr.bind fun _ =>
        (Keeps.ahead token_meets).bind fun _ => .pure)
      (.orElse ((Keeps.many1 balanced_keeps).bind fun _ => .pure) .pure)
  exact .bind hcontent fun _ => .close

theorem container_keeps : Keeps known (container expr) :=
  Closes.keeps (container_closes hexpr)

theorem attributeValue_keeps : Keeps known (attributeValue expr) :=
  .orElse ((Keeps.accept rfl).bind fun _ => .pure)
    ((container_keeps hexpr).bind fun _ => .pure)

theorem tagItem_keeps : Keeps known (tagItem expr) := by
  refine .orElse (.bind ?_ fun _ => .pure) (.bind ?_ fun _ => .pure)
  · refine word_keeps.bind fun first => .bind ?_ fun second => .bind ?_ fun value => ?_
    · exact .optional ((Keeps.token (by simp)).bind fun _ => word_keeps)
    · exact .optional ((Keeps.token (by simp)).bind fun _ => attributeValue_keeps hexpr)
    · cases second <;> exact .pure
  · exact Closes.keeps fun _ => .bind (.token (by simp)) fun _ => skipped_closes

theorem exprLevel_keeps {join? : Token → Option (Expr → Expr → Expr)}
    (hjoin : join? .closeBrace = none) : Keeps known (level expr join?) :=
  hexpr.bind fun _ => (Keeps.many ((Keeps.accept hjoin).bind fun _ => hexpr.bind fun _ =>
    .pure)).bind fun _ => .pure

end Nested

section Tied

variable {element : Reader Element} {expr : Reader Expr} (helement : Keeps known element)
  (hexpr : Keeps known expr)
include helement hexpr

theorem disjunction_keeps : Keeps known (disjunction element expr) := by
  have hatom : Keeps known (atom element expr) :=
    .orElse ((Keeps.accept rfl).bind fun _ => .pure)
      (.orElse ((Keeps.token (by simp)).bind fun _ => hexpr.bind fun _ =>
          (Keeps.token (by simp)).bind fun _ => .pure)
        (helement.bind fun _ => .pure))
  have hunary : Keeps known (unary element expr) :=
    (Keeps.many ((Keeps.accept rfl).bind fun _ => .pure)).bind fun _ =>
      (hatom.bind fun _ => (suffix_keeps hexpr).many.bind fun _ => .pure).bind fun _ => .pure
  exact exprLevel_keeps (exprLevel_keeps (exprLevel_keeps (exprLevel_keeps hunary rfl) rfl) rfl) rfl

theorem exprWith_keeps : Keeps known (exprWith element expr) :=
  (disjunction_keeps helement hexpr).bind fun _ =>
    (Keeps.optional ((Keeps.token (by simp)).bind fun _ => hexpr.bind fun _ =>
      (Keeps.token (by simp)).bind fun _ => hexpr.bind fun _ => .pure)).bind fun _ => .pure

theorem child_keeps : Keeps known (child element expr) :=
  .orElse (helement.bind fun _ => .pure)
    (.orElse ((container_keeps hexpr).bind fun _ => .pure)
      ((Keeps.accept rfl).bind fun _ => .pure))

end Tied

theorem closingTag_takes_closing : closingTag.Takes fun used closing =>
    EndsWithClosing closing.1 ⟨closing.2.start, max closing.2.start closing.2.stop⟩ used := by
  intro ts closing rest h
  simp only [closingTag, reads_bind, reads_token, reads_pure] at h
  obtain ⟨left, _, rfl, slash, _, rfl, written, _, hwritten, right, _, rfl, rfl, rfl⟩ := h
  obtain ⟨names, rfl, hproper, hnames, -, -⟩ := optional_name_takes hwritten
  exact ⟨⟨.less, left⟩ :: ⟨.slash, slash⟩ :: (names ++ [⟨.greater, right⟩]), by simp,
    hproper, [], left, slash, names, right, rfl, hnames, rfl⟩

theorem closingTag_keeps : Keeps known closingTag :=
  (Keeps.token (by simp)).bind fun _ => (Keeps.token (by simp)).bind fun _ =>
    name_keeps.optional.bind fun _ => (Keeps.token (by simp)).bind fun _ => .pure

end Readers

/-! ### Elements in parts -/

section Parts

variable (element : Reader Element) (expr : Reader Expr)

/-- The end of an element after its children. -/
def elementClosing (tag : Tag) (children : List Child) : Reader Element := do
  let (closed, closing) ← closingTag
  if tag.name = closed then
    return .pair tag children closing
  else
    refuse (.mismatch tag.name closed ⟨closing.start, max closing.start closing.stop⟩)

/-- The end of a tag that closes itself. -/
def tagSelfClosing (left : Span) (written : Option Name) (items : List TagItem) :
    Reader Element := do
  if written.isNone then refuse .unexpected
  let _ ← token .slash
  let right ← token .greater
  return .single ⟨written.getD .fragment, items, ⟨left.start, right.stop⟩⟩

/-- The end of an opening tag, with all that follows it in the element. -/
def tagOpening (left : Span) (written : Option Name) (items : List TagItem) :
    Reader Element := do
  let right ← token .greater
  let children ← many (child element expr)
  elementClosing ⟨written.getD .fragment, items, ⟨left.start, right.stop⟩⟩ children

/-- What follows the name of an element. -/
def elementAfterName (left : Span) (written : Option Name) : Reader Element := do
  let items ← many (tagItem expr)
  tagSelfClosing left written items <|> tagOpening element expr left written items

theorem elementWith_eq : elementWith element expr = (do
    let left ← token .less
    let written ← optional name
    elementAfterName element expr left written) :=
  rfl

end Parts

/-- The end of an element knows the name that its closing tag has to fit. -/
theorem elementClosing_keeps {tag : Tag} {children : List Child} :
    Keeps (· = tag.name) (elementClosing tag children) := by
  have hstays : Keeps (· = tag.name) closingTag := closingTag_keeps
  constructor
  · intro ts e rest h
    obtain ⟨closing, mid, hclosing, he⟩ := reads_bind.1 h
    obtain ⟨us, rfl, hus⟩ := hstays.takes hclosing
    dsimp only at he
    split at he
    · obtain ⟨-, rfl⟩ := reads_pure.1 he
      exact ⟨us, rfl, hus⟩
    · simp at he
  · have htakes : closingTag.Takes fun used closing =>
        StaysInside (used.map Lexeme.token) ∧
          EndsWithClosing closing.1 ⟨closing.2.start, max closing.2.start closing.2.stop⟩ used := by
      intro ts closing rest h
      obtain ⟨us, hts, hus⟩ := hstays.takes h
      obtain ⟨vs, hts', hvs⟩ := closingTag_takes_closing h
      obtain rfl := List.append_cancel_right (hts.symm.trans hts')
      exact ⟨us, hts, hus, hvs⟩
    refine hstays.meets.bind (G := fun closing front f => front = [] ∧
      tag.name ≠ closing.1 ∧ f.cause = .mismatch tag.name closing.1
        ⟨closing.2.start, max closing.2.start closing.2.stop⟩) htakes ?_ ?_
    · rintro ⟨closed, closing⟩
      dsimp only
      split
      · exact meets_pure
      · next hne => exact meets_refuse fun ts => ⟨rfl, hne, rfl⟩
    · rintro us ⟨closed, closing⟩ _ f ⟨hus, hends⟩ ⟨rfl, hne, hcause⟩
      refine ⟨by simpa using hus, fun opened closed' span hcause' => ?_⟩
      rw [hcause] at hcause'
      cases hcause'
      exact ⟨hne, by simpa using hends, Or.inl rfl⟩

section Elements

/-- Failures that know of no name. -/
abbrev KeepsAll {α : Type} (p : Reader α) : Prop :=
  Keeps (fun _ => False) p

theorem KeepsAll.keeps {α : Type} {p : Reader α} (h : KeepsAll p) (known : Name → Prop) :
    Keeps known p :=
  h.mono fun _ h => h.elim

variable {element : Reader Element} {expr : Reader Expr} (helement : KeepsAll element)
  (hexpr : KeepsAll expr)
include helement hexpr

theorem elementAfterName_keeps {left : Span} {written : Option Name} :
    Keeps (· = written.getD .fragment) (elementAfterName element expr left written) := by
  refine (tagItem_keeps (hexpr.keeps _)).many.bind fun items => .orElse ?_ ?_
  · have hend : Keeps (· = written.getD .fragment) (do
        let _ ← token .slash
        let right ← token .greater
        return Element.single ⟨written.getD .fragment, items, ⟨left.start, right.stop⟩⟩) :=
      (Keeps.token (by simp)).bind fun _ => (Keeps.token (by simp)).bind fun _ => .pure
    unfold tagSelfClosing
    split
    · exact Keeps.refuse.bind fun _ => hend
    · exact hend
  · refine (Keeps.token (by simp)).bind fun right =>
      (child_keeps (helement.keeps _) (hexpr.keeps _)).many.bind fun children => ?_
    exact @elementClosing_keeps ⟨written.getD .fragment, items, ⟨left.start, right.stop⟩⟩ children

theorem elementWith_keeps : KeepsAll (elementWith element expr) := by
  have hname : (optional name).Takes fun used written =>
      StaysInside (used.map Lexeme.token) ∧ IsWrittenIn (written.getD .fragment) used := by
    intro ts written rest h
    obtain ⟨used, rfl, hproper, htokens, -, -⟩ := optional_name_takes h
    have hinside : StaysInside (used.map Lexeme.token) :=
      htokens ▸ .balanced (Name.tokens_balanced _)
    exact ⟨used, rfl, hinside, hproper, htokens ▸ List.infix_rfl⟩
  have hafter (left : Span) (written : Option Name) :
      Keeps (· = written.getD .fragment) (elementAfterName element expr left written) :=
    elementAfterName_keeps helement hexpr
  rw [elementWith_eq]
  refine (Keeps.token (by simp)).bind fun left => ⟨fun ts e rest h => ?_, ?_⟩
  · obtain ⟨written, mid, hwritten, he⟩ := reads_bind.1 h
    obtain ⟨us, rfl, hus, -⟩ := hname hwritten
    obtain ⟨vs, rfl, hvs⟩ := (hafter left written).takes he
    exact ⟨us ++ vs, by simp, by simpa using hus.append hvs⟩
  · refine name_keeps.optional.meets.bind hname (fun written => (hafter left written).meets) ?_
    intro us written vs f ⟨hus, hwritten⟩ hmissed
    have hbehind := hmissed.behind hus
    refine ⟨hbehind.staysInside, fun opened closed tag hcause => ?_⟩
    -- the name that is known has been written in front
    obtain ⟨hne, hends, rfl | hopened⟩ := hbehind.mismatch opened closed tag hcause
    · exact ⟨hne, hends, Or.inr ⟨hwritten.1, hwritten.2.trans
        (by rw [List.map_append]; exact (List.prefix_append _ _).isInfix)⟩⟩
    · exact ⟨hne, hends, Or.inr hopened⟩

end Elements

/-- At every depth of nesting, failures are met behind lists that stay inside braces. -/
theorem keeps_to (depth : Nat) : KeepsAll (elementTo depth) ∧ KeepsAll (exprTo depth) := by
  induction depth with
  | zero => exact ⟨Keeps.refuse, Keeps.refuse⟩
  | succ depth ih =>
      have hnested := elementWith_keeps ih.1 ih.2
      exact ⟨hnested, exprWith_keeps hnested ih.2⟩

/-- Where the reader of documents meets a failure. -/
theorem meets_document : document.Meets (Missed fun _ => False) := by
  intro ts f hf
  have hdocument : (documentTo (ts.length + 1)).Meets (Missed fun _ => False) := by
    have helements := (keeps_to (ts.length + 1)).1.many
    refine helements.meets.bind (G := fun _ => Missed fun _ => False) helements.takes
      (fun elements => ?_) fun us elements vs f hus hmissed => hmissed.behind hus
    refine Meets.bind_pure fun ts f hf => ?_
    cases ts with
    | nil => cases hf
    | cons t ts => exact meets_refuse (α := Unit) Missed.here hf
  exact hdocument hf

end RoleAudit.Markup
