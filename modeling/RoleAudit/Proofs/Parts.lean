import RoleAudit.Markup.Walk
import RoleAudit.Proofs.Modes

/-!
# The parts of a document and the modes they are read in

Elements, containers and spreads are the parts of a document that the stack of modes has to follow.
`Part.Followed` says what it means that it does: the stack is the same after a part as before it,
and what stands in a tag or in braces is read in the mode for it, but for the parts nested in it.

A stretch of lexemes that is read under some stack `Tracks` the parts written in it; stretches that
do can be put together.
-/

namespace RoleAudit.Markup

open RoleAudit.Text

/-! ### Parts -/

/-- What the modes have to follow. -/
inductive Part where
  | element (element : Element)
  | container (container : Container)
  | spread (span : Span)

namespace Part

/-- The stretch of the source that a part takes up. -/
def span : Part → Span
  | element e => e.span
  | container c => c.span
  | spread span => span

/-- Whether a part is read as a balanced list only. -/
def isSkipped : Part → Bool
  | container ⟨.other, _⟩ | spread _ => true
  | _ => false

end Part

/-- The braces that the value of an attribute is. -/
def valueGroups : Option AttributeValue → List Part
  | some (.braced container) => [.container container]
  | _ => []

/-- The braces that an attribute or a spread holds itself. -/
def TagItem.groups : TagItem → List Part
  | .plain attr => valueGroups attr.value
  | .spread span => [.spread span]

/-- The braces that a child is. -/
def Child.groups : Child → List Part
  | .braced container => [.container container]
  | _ => []

/-- An element with the braces in its tag and among its children. -/
def Element.parts (element : Element) : List Part :=
  .element element ::
    (element.tag.items.flatMap TagItem.groups ++ element.children.flatMap Child.groups)

/-- The parts of the elements that are entered. -/
def partsOf (events : List Event) : List Part :=
  events.flatMap fun
    | .enter element => element.parts
    | .leave _ => []

/-- The elements that are entered. -/
def elementsOf (events : List Event) : List Part :=
  events.filterMap fun
    | .enter element => some (.element element)
    | .leave _ => none

/-- All parts of a document, at any depth. -/
def Document.parts (document : Document) : List Part :=
  partsOf document.events

@[simp] theorem partsOf_nil : partsOf [] = [] := rfl

@[simp] theorem partsOf_append (events others : List Event) :
    partsOf (events ++ others) = partsOf events ++ partsOf others :=
  List.flatMap_append

@[simp] theorem elementsOf_nil : elementsOf [] = [] := rfl

@[simp] theorem elementsOf_append (events others : List Event) :
    elementsOf (events ++ others) = elementsOf events ++ elementsOf others :=
  List.filterMap_append

/-! ### Following a part -/

/-- A stretch of a source lies in another. -/
def Within (inner outer : Span) : Prop :=
  outer.start ≤ inner.start ∧ inner.stop ≤ outer.stop

instance (inner outer : Span) : Decidable (Within inner outer) :=
  inferInstanceAs (Decidable (outer.start ≤ inner.start ∧ inner.stop ≤ outer.stop))

/-- A step is made under modes of some kind, unless it lies in one of the parts. -/
def MadeUnder (kind : Modes → Prop) (holes : List Part) (s : Step) : Prop :=
  kind s.before ∨ ∃ part ∈ holes, Within s.span part.span

/-- The modes of a stack, without what its tags have shown. -/
def Modes.kinds (modes : Modes) : Modes :=
  modes.map fun
    | .tag _ => .tag {}
    | mode => mode

theorem Modes.kinds_settled (modes : Modes) : modes.settled.kinds = modes.kinds := by
  match modes with
  | .tag _ :: _ | .code :: _ | .prose :: _ | [] => rfl

/-- A run of steps, from `first` to `last`, takes up a stretch of the source. -/
def Stretch (steps : List Step) (span : Span) (first : Step) (inside : List Step) (last : Step) :
    Prop :=
  first :: (inside ++ [last]) <:+: steps ∧ span = ⟨first.span.start, last.span.stop⟩

/-- The steps lead through a tag, from the stack `outer` to the stack `next`.  After its `<` the tag
is read as one, but for the braces in it. -/
def TagFollowed (steps : List Step) (span : Span) (groups : List Part) (outer next : Modes) :
    Prop :=
  ∃ first inside last, Stretch steps span first inside last ∧
    first.token = some .less ∧ first.before = outer ∧
    last.token = some .greater ∧ last.after = next ∧
    ∀ s ∈ inside ++ [last], MadeUnder Modes.InTag groups s

/-- The steps lead through a pair of braces, back to the stack before it, on which a tag has only
gone on.  What stands in the braces is read as code, but for the elements in it. -/
def BracesFollowed (steps : List Step) (span : Span) (elements : List Part) : Prop :=
  ∃ first inside last, Stretch steps span first inside last ∧
    first.token = some .openBrace ∧ last.token = some .closeBrace ∧
    last.after = first.before.settled ∧ last.after.kinds = first.before.kinds ∧
    ∀ s ∈ inside ++ [last], MadeUnder Modes.InCode elements s

/-- The modes follow a part.  An element leads back to the stack before it; between its tags, that
stack has prose on top. -/
def Part.Followed (steps : List Step) : Part → Prop
  | element (.single tag) => ∃ modes,
      TagFollowed steps tag.span (tag.items.flatMap TagItem.groups) modes modes
  | element (.pair tag _ closing) => ∃ modes,
      TagFollowed steps tag.span (tag.items.flatMap TagItem.groups) modes (.prose :: modes) ∧
        TagFollowed steps closing [] (.prose :: modes) modes
  | container c => BracesFollowed steps c.span (elementsOf c.events)
  | spread span => BracesFollowed steps span []

section Steps

variable {steps steps' : List Step} (hsteps : steps <:+: steps')
include hsteps

theorem TagFollowed.mono {span : Span} {groups : List Part} {outer next : Modes}
    (h : TagFollowed steps span groups outer next) : TagFollowed steps' span groups outer next := by
  obtain ⟨first, inside, last, ⟨hrun, hspan⟩, h⟩ := h
  exact ⟨first, inside, last, ⟨hrun.trans hsteps, hspan⟩, h⟩

theorem BracesFollowed.mono {span : Span} {elements : List Part}
    (h : BracesFollowed steps span elements) : BracesFollowed steps' span elements := by
  obtain ⟨first, inside, last, ⟨hrun, hspan⟩, h⟩ := h
  exact ⟨first, inside, last, ⟨hrun.trans hsteps, hspan⟩, h⟩

/-- A part that is followed is followed among more steps. -/
theorem Part.Followed.mono {part : Part} (h : part.Followed steps) : part.Followed steps' := by
  match part, h with
  | .element (.single _), ⟨modes, h⟩ => exact ⟨modes, h.mono hsteps⟩
  | .element (.pair _ _ _), ⟨modes, h, h'⟩ => exact ⟨modes, h.mono hsteps, h'.mono hsteps⟩
  | .container _, h => exact BracesFollowed.mono hsteps h
  | .spread _, h => exact BracesFollowed.mono hsteps h

end Steps

theorem MadeUnder.mono {kind kind' : Modes → Prop} (hkind : ∀ modes, kind modes → kind' modes)
    {holes holes' : List Part} (hholes : holes ⊆ holes') {s : Step} (h : MadeUnder kind holes s) :
    MadeUnder kind' holes' s := by
  rcases h with h | ⟨part, hpart, hwithin⟩
  · exact Or.inl (hkind _ h)
  · exact Or.inr ⟨part, hholes hpart, hwithin⟩

/-! ### Stretches of lexemes -/

/-- Reading `ts` leads from one stack to another and follows the parts, and every lexeme that does
not lie in one of `holes` is read under modes of some kind. -/
structure Tracks (kind : Modes → Prop) (before : Modes) (ts : List Lexeme) (after : Modes)
    (parts holes : List Part) : Prop where
  through : before.through ts = after
  followed : ∀ part ∈ parts, part.Followed (stepsUnder before ts)
  madeUnder : ∀ s ∈ stepsUnder before ts, MadeUnder kind holes s

namespace Tracks

variable {kind : Modes → Prop} {before mid after : Modes} {ts us : List Lexeme}
  {parts parts' holes holes' : List Part}

theorem nil : Tracks kind before [] before [] [] :=
  ⟨rfl, by simp, by simp⟩

theorem append (h : Tracks kind before ts mid parts holes)
    (h' : Tracks kind mid us after parts' holes') :
    Tracks kind before (ts ++ us) after (parts ++ parts') (holes ++ holes') := by
  obtain ⟨rfl, hfollowed, hunder⟩ := h
  obtain ⟨rfl, hfollowed', hunder'⟩ := h'
  refine ⟨Modes.through_append _ _ _, fun part hpart => ?_, fun s hs => ?_⟩
  · rcases List.mem_append.1 hpart with hpart | hpart
    · exact (hfollowed part hpart).mono (stepsUnder_left _ _ _)
    · exact (hfollowed' part hpart).mono (stepsUnder_right rfl _)
  · rw [stepsUnder_append] at hs
    rcases List.mem_append.1 hs with hs | hs
    · exact (hunder s hs).mono (fun _ => id) (List.subset_append_left _ _)
    · exact (hunder' s hs).mono (fun _ => id) (List.subset_append_right _ _)

theorem mono (h : Tracks kind before ts after parts holes) (hparts : parts' ⊆ parts)
    (hholes : holes ⊆ holes') : Tracks kind before ts after parts' holes' :=
  ⟨h.through, fun part hpart => h.followed part (hparts hpart),
    fun s hs => (h.madeUnder s hs).mono (fun _ => id) hholes⟩

/-- One more part is followed if all of the lexemes write it. -/
theorem cons_part (h : Tracks kind before ts after parts holes) {part : Part}
    (hpart : part.Followed (stepsUnder before ts)) :
    Tracks kind before ts after (part :: parts) holes :=
  ⟨h.through, by simpa using ⟨hpart, h.followed⟩, h.madeUnder⟩

/-- Lexemes that lie in a part may be read in any way if the part is left out. -/
theorem hide (h : Tracks kind before ts after parts holes) (part : Part)
    (hwithin : ∀ t ∈ ts, Within t.span part.span) {kind' : Modes → Prop} :
    Tracks kind' before ts after parts [part] := by
  refine ⟨h.through, h.followed, fun s hs => Or.inr ⟨part, List.mem_singleton_self part, ?_⟩⟩
  obtain ⟨t, ht, -, hspan⟩ := span_of_mem_stepsUnder hs
  rw [hspan]
  exact hwithin t ht

/-- One lexeme, by the kind of modes under which it is read. -/
theorem single {t : Lexeme} (hkind : kind before) (hafter : before.after t.token = after) :
    Tracks kind before [t] after [] [] := by
  refine ⟨hafter, by simp, fun s hs => ?_⟩
  obtain rfl := List.mem_singleton.1 hs
  exact Or.inl hkind

/-- Lexemes between a first and a last one, which open and close the stack they are read under. -/
theorem surround {opened closed next : Modes} (h : Tracks kind opened ts closed parts holes)
    (first last : Lexeme) {outer : Modes} (hfirst : outer.after first.token = opened)
    (hlast : closed.after last.token = next) (hkind : kind closed) :
    Tracks (fun _ => True) outer (first :: (ts ++ [last])) next parts [] ∧
      ∃ inside, Stretch (stepsUnder outer (first :: (ts ++ [last])))
          ⟨first.span.start, last.span.stop⟩ ⟨outer, some first.token, first.span, opened⟩ inside
          ⟨closed, some last.token, last.span, next⟩ ∧
        ∀ s ∈ inside ++ [⟨closed, some last.token, last.span, next⟩], MadeUnder kind holes s := by
  obtain ⟨hthrough, hfollowed, hunder⟩ := h
  refine ⟨⟨by simp [hfirst, hthrough, hlast], fun part hpart => ?_, fun _ _ => Or.inl trivial⟩,
    stepsUnder opened ts, ⟨by simp [hfirst, hthrough, hlast], rfl⟩, fun s hs => ?_⟩
  · refine (hfollowed part hpart).mono ?_
    rw [stepsUnder_cons, hfirst]
    exact (stepsUnder_left _ _ _).trans (List.suffix_cons _ _).isInfix
  · rcases List.mem_append.1 hs with hs | hs
    · exact hunder s hs
    · obtain rfl := List.mem_singleton.1 hs
      exact Or.inl hkind

/-- A lexeme that goes on with code. -/
theorem code {t : Lexeme} (h : before.InCode) (hless : t.token ≠ .less)
    (hbrace : t.token.isBrace = false) : Tracks Modes.InCode before [t] before [] [] :=
  single h (h.after hless hbrace)

/-- Code after a lexeme that goes on with it. -/
theorem code_cons {t : Lexeme} (h : before.InCode) (hless : t.token ≠ .less)
    (hbrace : t.token.isBrace = false) (hrest : Tracks Modes.InCode before ts after parts holes) :
    Tracks Modes.InCode before (t :: ts) after parts holes :=
  (code h hless hbrace).append hrest

/-- Code in parentheses. -/
theorem parens (left right : Span) (h : before.InCode)
    (hinside : Tracks Modes.InCode before ts before parts holes) :
    Tracks Modes.InCode before (⟨.openParen, left⟩ :: (ts ++ [⟨.closeParen, right⟩])) before
      parts holes := by
  have hclosed := hinside.append (code (t := ⟨.closeParen, right⟩) h (by simp) rfl)
  rw [List.append_nil, List.append_nil] at hclosed
  exact code_cons h (by simp) rfl hclosed

/-- A lexeme that goes on with a tag. -/
theorem tag {t : Lexeme} (h : before.InTag) (ht : t.token.goesOnTag = true) :
    Tracks Modes.InTag before [t] before.settled [] [] :=
  single h (h.after ht)

/-- A tag after a lexeme that goes on with it. -/
theorem tag_cons {t : Lexeme} (h : before.InTag) (ht : t.token.goesOnTag = true)
    (hrest : Tracks Modes.InTag before.settled ts after parts holes) :
    Tracks Modes.InTag before (t :: ts) after parts holes :=
  (tag h ht).append hrest

end Tracks

end RoleAudit.Markup
