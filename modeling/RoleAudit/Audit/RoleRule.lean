import RoleAudit.Audit.Rule
import RoleAudit.Audit.RoleValue
import RoleAudit.Role.Standard

/-!
# The rule on roles

An element with a `role` attribute must name roles that a document may use: its
value holds one word or more, and every word is a concrete role of the registry
or is allowed by the options.  Words are matched exactly.  A value that is not
known without running the program is never reported.
-/

namespace RoleAudit.Audit

open RoleAudit.Markup
open RoleAudit.Role (Registry)

/-- What a user can change about the rule. -/
structure RoleOptions where
  /-- Whether components are left alone. -/
  ignoreComponents : Bool := false
  /-- Words to accept though they are abstract or no roles at all. -/
  allowed : List String := []
  deriving DecidableEq, Repr, Inhabited

/-- The rule on roles, with its registry and options. -/
structure RoleRule where
  registry : Registry
  options : RoleOptions := {}

namespace RoleRule

/-- Whether a word may stand in a role attribute. -/
def isAllowed (r : RoleRule) (word : String) : Bool :=
  r.registry.isConcrete word || r.options.allowed.contains word

/-- Whether a known value is acceptable. -/
def isValid (r : RoleRule) : RoleValue → Bool
  | .absent | .unresolvable => true
  | .noValue | .null => false
  | .text value =>
      let words := Text.words value.toList
      !words.isEmpty && words.all fun word => r.isAllowed (String.ofList word)

/-- The attribute of a tag that breaks the rule. -/
def offending? (r : RoleRule) (tag : Tag) : Option Attribute :=
  if r.options.ignoreComponents && !tag.name.isNode then none
  else (tag.attributeIgnoringCase? "role").filter fun attr =>
    !r.isValid (RoleValue.ofAttribute (some attr))

/-- The message of the rule. -/
def message : String :=
  "Elements with ARIA roles must use a valid, non-abstract ARIA role."

/-- The rule as an audit takes it. -/
def rule (r : RoleRule) : Rule where
  name := "aria-role"
  description := "Elements with ARIA roles must use a valid, non-abstract ARIA role"
  findings opening _ := (r.offending? opening.toTag).toList.map fun attr => ⟨message, attr.span⟩

end RoleRule

end RoleAudit.Audit
