import RoleAudit.Markup.Tree

/-!
# Walking a document

A walk enters and leaves every element of a document, in the order in which
their tags open.  After an element is entered come the elements in the values of
its attributes, then those among its children, then it is left.
-/

namespace RoleAudit.Markup

/-- What happens on a walk. -/
inductive Event where
  | enter (element : Element)
  | leave (element : Element)

mutual

/-- The events of walking an element. -/
def Element.events : Element → List Event
  | .single tag => .enter (.single tag) :: (tag.events ++ [.leave (.single tag)])
  | .pair tag children closing =>
      .enter (.pair tag children closing) ::
        (tag.events ++ childrenEvents children ++ [.leave (.pair tag children closing)])

/-- The events of walking the values of the attributes of a tag. -/
def Tag.events : Tag → List Event
  | ⟨_, items, _⟩ => itemsEvents items

/-- The events of walking the values of attributes. -/
def itemsEvents : List TagItem → List Event
  | [] => []
  | item :: others => item.events ++ itemsEvents others

/-- The events of walking the value of an attribute. -/
def TagItem.events : TagItem → List Event
  | .plain attr => attr.events
  | .spread _ => []

/-- The events of walking the value of an attribute that is written out. -/
def Attribute.events : Attribute → List Event
  | ⟨_, _, some value, _⟩ => value.events
  | ⟨_, _, none, _⟩ => []

/-- The events of walking a value. -/
def AttributeValue.events : AttributeValue → List Event
  | .quoted _ _ => []
  | .braced container => container.events

/-- The events of walking what stands in a pair of braces. -/
def Container.events : Container → List Event
  | ⟨content, _⟩ => content.events

/-- The events of walking what stands in a pair of braces. -/
def Content.events : Content → List Event
  | .expr expr => expr.events
  | .empty => []
  | .other => []

/-- The events of walking children. -/
def childrenEvents : List Child → List Event
  | [] => []
  | child :: others => child.events ++ childrenEvents others

/-- The events of walking a child. -/
def Child.events : Child → List Event
  | .prose _ => []
  | .element element => element.events
  | .braced container => container.events

/-- The events of walking the elements in an expression, from left to right. -/
def Expr.events : Expr → List Event
  | .element element => element.events
  | .member object _ => object.events
  | .call callee arguments => callee.events ++ exprsEvents arguments
  | .unary _ operand => operand.events
  | .binary _ left right => left.events ++ right.events
  | .logical _ left right => left.events ++ right.events
  | .conditional test yes no => test.events ++ yes.events ++ no.events
  | .quoted _ | .template _ | .number _ | .boolean _ | .null | .name _ => []

/-- The events of walking expressions one after the other. -/
def exprsEvents : List Expr → List Event
  | [] => []
  | expr :: others => expr.events ++ exprsEvents others

end

/-- The events of walking a document. -/
def Document.events (document : Document) : List Event :=
  document.elements.flatMap Element.events

/-- The elements of a document, in the order in which a walk enters them. -/
def Document.entered (document : Document) : List Element :=
  document.events.filterMap fun
    | .enter element => some element
    | .leave _ => none

end RoleAudit.Markup
