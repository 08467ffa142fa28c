import RoleAudit.Markup.Tree

/-!
# Values of role attributes

What can be told about the value of an attribute without running the program
around it.  A text in quotes is known, and so are a template without a
substitution and a sum of known texts.  Numbers and truth values stand for their
spelling.  Of any other expression nothing is known.
-/

namespace RoleAudit.Audit

open RoleAudit.Markup

/-- What is known about the value of an attribute. -/
inductive RoleValue where
  /-- There is no such attribute. -/
  | absent
  /-- The attribute has no value. -/
  | noValue
  | null
  | text (value : String)
  /-- Only a run of the program tells the value. -/
  | unresolvable
  deriving DecidableEq, Repr

/-- Whether a template holds a substitution, which starts with a dollar sign and a brace. -/
def hasSubstitution : List Char → Bool
  | '$' :: '\x7b' :: _ => true
  | _ :: rest => hasSubstitution rest
  | [] => false

/-- Whether an expression is a template with a substitution. -/
def isInterpolated : Expr → Bool
  | .template value => hasSubstitution value.toList
  | _ => false

/-- The text that an expression of literals computes. -/
def staticText? : Expr → Option String
  | .quoted value => some value
  | .template value => if hasSubstitution value.toList then none else some value
  | .binary .add left right =>
      (staticText? left).bind fun first => (staticText? right).map fun second => first ++ second
  | _ => none

namespace RoleValue

/-- What is known about the value of an expression. -/
def ofExpr : Expr → RoleValue
  | .null => .null
  | .number digits => .text digits
  | .boolean value => .text (if value then "true" else "false")
  | expr => match staticText? expr with
      | some value => .text value
      | none => .unresolvable

/-- What is known about what stands in a pair of braces. -/
def ofContent : Content → RoleValue
  | .expr expr => ofExpr expr
  | .empty | .other => .unresolvable

/-- What is known about the value of an attribute that may be missing. -/
def ofAttribute : Option Attribute → RoleValue
  | none => .absent
  | some ⟨_, _, none, _⟩ => .noValue
  | some ⟨_, _, some (.quoted value _), _⟩ => .text value
  | some ⟨_, _, some (.braced container), _⟩ => ofContent container.content

end RoleValue

end RoleAudit.Audit
