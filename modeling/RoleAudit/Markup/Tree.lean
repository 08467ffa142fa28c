import RoleAudit.Text.Position

/-!
# Document trees

A document is a list of elements.  An element is a tag that closes itself, or an
opening tag, children and a closing tag.  A tag holds attributes, whose values
are quoted texts or groups in braces; a group in braces holds nothing, an
expression, or something that the expressions here do not cover.  Expressions
hold elements in turn.

Expressions cover what the value of an attribute can be told from: literals,
names, members, calls, operators, conditionals and elements.
-/

namespace RoleAudit.Markup

open RoleAudit.Text (Span)

/-- The name of an element. -/
inductive Name where
  | plain (name : String)
  /-- Two names with a colon between. -/
  | namespaced (space name : String)
  /-- Names with dots between. -/
  | member (parts : List String)
  /-- No name at all. -/
  | fragment
  deriving DecidableEq, Repr, Inhabited

namespace Name

/-- The name as it is written. -/
def render : Name → String
  | plain name => name
  | namespaced space name => space ++ ":" ++ name
  | member parts => ".".intercalate parts
  | fragment => ""

/-- Whether an element of this name stands for a node of the page: its name starts with a small
letter, or lies in a namespace.  Other names belong to components. -/
def isNode : Name → Bool
  | plain name => name.toList.head?.any Char.isLower
  | namespaced _ _ => true
  | member _ => false
  | fragment => false

end Name

/-- Operators before an operand. -/
inductive UnaryOp where
  | not
  | negate
  | plus
  deriving DecidableEq, Repr

/-- Operators between two operands that compute a value from both. -/
inductive BinaryOp where
  | add
  | subtract
  /-- A comparison, a product or a remainder, by its spelling. -/
  | other (text : String)
  deriving DecidableEq, Repr

/-- Operators between two operands that choose one of them. -/
inductive LogicalOp where
  | and
  | or
  | coalesce
  deriving DecidableEq, Repr

def UnaryOp.spelling : UnaryOp → String
  | not => "!"
  | negate => "-"
  | plus => "+"

def BinaryOp.spelling : BinaryOp → String
  | add => "+"
  | subtract => "-"
  | other text => text

def LogicalOp.spelling : LogicalOp → String
  | and => "&&"
  | or => "||"
  | coalesce => "??"

mutual

/-- Expressions. -/
inductive Expr where
  | quoted (value : String)
  | template (value : String)
  | number (text : String)
  | boolean (value : Bool)
  | null
  | name (name : String)
  | member (object : Expr) (property : String)
  | call (callee : Expr) (arguments : List Expr)
  | unary (op : UnaryOp) (operand : Expr)
  | binary (op : BinaryOp) (left right : Expr)
  | logical (op : LogicalOp) (left right : Expr)
  | conditional (test yes no : Expr)
  | element (element : Element)

/-- What stands in a pair of braces. -/
inductive Content where
  | empty
  | expr (expr : Expr)
  /-- Something that no expression covers. -/
  | other

/-- A pair of braces; the span holds them both. -/
structure Container where
  content : Content
  span : Span

/-- The value of an attribute. -/
inductive AttributeValue where
  /-- A text in quotes; the span holds the quotes. -/
  | quoted (value : String) (span : Span)
  | braced (container : Container)

/-- An attribute of a tag.  Without a value only its presence counts. -/
structure Attribute where
  space : Option String
  name : String
  value : Option AttributeValue
  span : Span

/-- What a tag holds after its name. -/
inductive TagItem where
  | plain (attr : Attribute)
  /-- Attributes spread from a value, in braces. -/
  | spread (span : Span)

/-- An opening tag, or a tag that closes itself; the span goes from its `<` to its `>`. -/
structure Tag where
  name : Name
  items : List TagItem
  span : Span

/-- What stands between an opening and a closing tag. -/
inductive Child where
  | prose (span : Span)
  | element (element : Element)
  | braced (container : Container)

/-- An element with its children. -/
inductive Element where
  /-- A tag that closes itself. -/
  | single (tag : Tag)
  /-- An opening tag, children, and a closing tag that takes up `closing`. -/
  | pair (tag : Tag) (children : List Child) (closing : Span)

end

/-- The tag that an element opens with, and whether it closes itself. -/
structure Opening extends Tag where
  selfClosing : Bool

/-- A parsed source: its elements at the top level, in order. -/
structure Document where
  elements : List Element

namespace AttributeValue

/-- The stretch of the source that a value takes up. -/
def span : AttributeValue → Span
  | quoted _ span => span
  | braced container => container.span

end AttributeValue

namespace Tag

/-- The attributes of a tag that are written out, in order. -/
def attributes (tag : Tag) : List Attribute :=
  tag.items.filterMap fun
    | .plain attr => some attr
    | .spread _ => none

/-- The first attribute of a name, in no namespace. -/
def attribute? (tag : Tag) (name : String) : Option Attribute :=
  tag.attributes.find? fun attr => attr.space.isNone && attr.name == name

/-- The first attribute of a name, in no namespace, where small and capital ASCII letters count
as the same. -/
def attributeIgnoringCase? (tag : Tag) (name : String) : Option Attribute :=
  tag.attributes.find? fun attr => attr.space.isNone && attr.name.toLower == name.toLower

end Tag

namespace Element

/-- The opening tag, or the only one. -/
def tag : Element → Tag
  | single tag => tag
  | pair tag _ _ => tag

/-- What stands between the two tags of an element. -/
def children : Element → List Child
  | single _ => []
  | pair _ children _ => children

/-- Where the closing tag stands, if there is one. -/
def closing? : Element → Option Span
  | single _ => none
  | pair _ _ closing => some closing

/-- How an element opens.  Its tag closes itself if there is no other. -/
def opening (e : Element) : Opening :=
  ⟨e.tag, e.closing?.isNone⟩

/-- An element takes up its source from its first tag to the end of its last. -/
def span : Element → Span
  | single tag => tag.span
  | pair tag _ closing => ⟨tag.span.start, closing.stop⟩

end Element

end RoleAudit.Markup
