import RoleAudit.Markup.Walk

/-!
# Elements in elements

An element holds other elements: in the braces of its attributes, among its children, and in the
braces among its children.  `Element.nested` lists those with no other element between, from left
to right.  A document is then a forest, whose trees are its elements, and `Among` says which elements
stand in a forest at any depth.

A walk goes through this forest.  Main statements: `Element.events_eq`, for one step down,
`forest_induction`, and `mem_walk`, which says that a walk enters and leaves what stands in the
forest and nothing else.
-/

namespace RoleAudit.Markup

/-! ### Outermost elements -/

mutual

/-- The elements in an expression that lie in no other element of it, from left to right. -/
def Expr.elements : Expr → List Element
  | .element e => [e]
  | .member object _ => object.elements
  | .call callee arguments => callee.elements ++ exprsElements arguments
  | .unary _ operand => operand.elements
  | .binary _ left right => left.elements ++ right.elements
  | .logical _ left right => left.elements ++ right.elements
  | .conditional test yes no => test.elements ++ (yes.elements ++ no.elements)
  | .quoted _ | .template _ | .number _ | .boolean _ | .null | .name _ => []

/-- The outermost elements of expressions, one expression after the other. -/
def exprsElements : List Expr → List Element
  | [] => []
  | expr :: others => expr.elements ++ exprsElements others

end

/-- The outermost elements in a pair of braces. -/
def Container.elements (container : Container) : List Element :=
  match container.content with
  | .expr expr => expr.elements
  | .empty | .other => []

/-- The outermost elements in the value of an attribute, if it has one. -/
def valueElements : Option AttributeValue → List Element
  | some (.braced container) => container.elements
  | _ => []

/-- The outermost elements in an attribute.  What is spread is not looked into. -/
def TagItem.elements : TagItem → List Element
  | .plain attr => valueElements attr.value
  | .spread _ => []

/-- The outermost elements that a child is or holds. -/
def Child.elements : Child → List Element
  | .prose _ => []
  | .element e => [e]
  | .braced container => container.elements

/-- The elements that lie in an element and in no other element in it: first those in its tag, then
those after it. -/
def Element.nested (element : Element) : List Element :=
  element.tag.items.flatMap TagItem.elements ++ element.children.flatMap Child.elements

@[simp] theorem Element.nested_single (tag : Tag) :
    (Element.single tag).nested = tag.items.flatMap TagItem.elements :=
  List.append_nil _

@[simp] theorem Element.nested_pair (tag : Tag) (children : List Child) (closing : Text.Span) :
    (Element.pair tag children closing).nested =
      tag.items.flatMap TagItem.elements ++ children.flatMap Child.elements :=
  rfl

/-- An element is one of the elements, or lies in one of them at any depth. -/
inductive Among : List Element → Element → Prop
  | here {es : List Element} {e : Element} (h : e ∈ es) : Among es e
  | inside {es : List Element} {e f : Element} (h : f ∈ es) (h' : Among f.nested e) : Among es e

@[simp] theorem not_among_nil (e : Element) : ¬ Among [] e := by
  rintro (h | ⟨h, -⟩) <;> cases h

@[simp] theorem among_cons {e f : Element} {es : List Element} :
    Among (e :: es) f ↔ f = e ∨ Among e.nested f ∨ Among es f := by
  constructor
  · rintro (h | ⟨h, h'⟩)
    · rcases List.mem_cons.1 h with rfl | h
      · exact Or.inl rfl
      · exact Or.inr (Or.inr (.here h))
    · rcases List.mem_cons.1 h with rfl | h
      · exact Or.inr (Or.inl h')
      · exact Or.inr (Or.inr (.inside h h'))
  · rintro (rfl | h | h | ⟨h, h'⟩)
    · exact .here List.mem_cons_self
    · exact .inside List.mem_cons_self h
    · exact .here (List.mem_cons_of_mem _ h)
    · exact .inside (List.mem_cons_of_mem _ h) h'

/-! ### Walking a forest -/

/-- The events of walking elements one after the other. -/
def walk (es : List Element) : List Event :=
  es.flatMap Element.events

@[simp] theorem walk_nil : walk [] = [] := rfl

@[simp] theorem walk_cons (e : Element) (es : List Element) :
    walk (e :: es) = e.events ++ walk es :=
  List.flatMap_cons

@[simp] theorem walk_append (es fs : List Element) : walk (es ++ fs) = walk es ++ walk fs :=
  List.flatMap_append

theorem Document.events_eq (d : Document) : d.events = walk d.elements := rfl

mutual

theorem Expr.events_eq : ∀ e : Expr, e.events = walk e.elements
  | .element e => by simp [Expr.events, Expr.elements]
  | .member object _ => by simp [Expr.events, Expr.elements, Expr.events_eq object]
  | .call callee arguments => by
      simp [Expr.events, Expr.elements, Expr.events_eq callee, exprsEvents_eq arguments]
  | .unary _ operand => by simp [Expr.events, Expr.elements, Expr.events_eq operand]
  | .binary _ left right | .logical _ left right => by
      simp [Expr.events, Expr.elements, Expr.events_eq left, Expr.events_eq right]
  | .conditional test yes no => by
      simp [Expr.events, Expr.elements, Expr.events_eq test, Expr.events_eq yes, Expr.events_eq no]
  | .quoted _ | .template _ | .number _ | .boolean _ | .null | .name _ => rfl

theorem exprsEvents_eq : ∀ es : List Expr, exprsEvents es = walk (exprsElements es)
  | [] => rfl
  | e :: es => by simp [exprsEvents, exprsElements, Expr.events_eq e, exprsEvents_eq es]

end

theorem Container.events_eq (c : Container) : c.events = walk c.elements := by
  obtain ⟨_ | e | _, span⟩ := c
  · rfl
  · exact e.events_eq
  · rfl

theorem TagItem.events_eq (item : TagItem) : item.events = walk item.elements := by
  match item with
  | .plain ⟨_, _, some (.braced c), _⟩ => exact c.events_eq
  | .plain ⟨_, _, some (.quoted _ _), _⟩ | .plain ⟨_, _, none, _⟩ | .spread _ => rfl

theorem Child.events_eq (child : Child) : child.events = walk child.elements := by
  match child with
  | .prose _ => rfl
  | .element e => simp [events, elements]
  | .braced c => exact c.events_eq

theorem itemsEvents_eq (items : List TagItem) :
    itemsEvents items = walk (items.flatMap TagItem.elements) := by
  induction items with
  | nil => rfl
  | cons item others ih => simp [itemsEvents, item.events_eq, ih]

theorem childrenEvents_eq (children : List Child) :
    childrenEvents children = walk (children.flatMap Child.elements) := by
  induction children with
  | nil => rfl
  | cons child others ih => simp [childrenEvents, child.events_eq, ih]

/-- Between entering an element and leaving it, a walk goes through what is nested in it. -/
theorem Element.events_eq (e : Element) :
    e.events = .enter e :: (walk e.nested ++ [.leave e]) := by
  cases e with
  | single tag =>
      obtain ⟨name, items, span⟩ := tag
      simp [events, Tag.events, itemsEvents_eq]
  | pair tag children closing =>
      obtain ⟨name, items, span⟩ := tag
      simp [events, Tag.events, itemsEvents_eq, childrenEvents_eq]

theorem walk_eq (e : Element) (es : List Element) :
    walk (e :: es) = .enter e :: (walk e.nested ++ .leave e :: walk es) := by
  rw [walk_cons, e.events_eq]
  simp

/-- What holds of a forest whenever it holds of what is nested in its first element and of its
other elements, holds of every forest. -/
@[elab_as_elim]
theorem forest_induction {P : List Element → Prop} (nil : P [])
    (cons : ∀ e es, P e.nested → P es → P (e :: es)) (es : List Element) : P es := by
  induction hn : (walk es).length using Nat.strongRecOn generalizing es with
  | ind n ih =>
      cases es with
      | nil => exact nil
      | cons e es =>
          have hlength :
              (walk (e :: es)).length = (walk e.nested).length + (walk es).length + 2 := by
            rw [walk_eq]
            simp only [List.length_cons, List.length_append]
            omega
          exact cons e es (ih _ (by omega) _ rfl) (ih _ (by omega) _ rfl)

/-- A walk enters and leaves the elements of the forest. -/
theorem mem_walk {es : List Element} {e : Element} :
    (.enter e ∈ walk es ↔ Among es e) ∧ (.leave e ∈ walk es ↔ Among es e) := by
  induction es using forest_induction with
  | nil => simp
  | cons f es ih ih' => simp [f.events_eq, ih, ih', or_left_comm]

/-- The element that an event is about. -/
def Event.element : Event → Element
  | enter e | leave e => e

theorem among_of_mem_walk {es : List Element} {event : Event} (h : event ∈ walk es) :
    Among es event.element := by
  cases event with
  | enter e => exact mem_walk.1.1 h
  | leave e => exact mem_walk.2.1 h

end RoleAudit.Markup
