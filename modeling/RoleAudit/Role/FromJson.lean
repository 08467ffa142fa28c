import RoleAudit.Json.Reading
import RoleAudit.Role.Registry

/-!
# Registries from JSON

A registry is written as one object.  Its members are the roles, each an object
with a truth value `abstract` and, if wanted, a list of texts `superClass`; other
members are left alone.  The two values may also stand in a list, in that order.

Members are converted in the order of their names, so the least bad name is the
one that is reported.
-/

namespace RoleAudit.Role

open RoleAudit.Json (Value member?)
open RoleAudit.Text (Dictionary)

/-- What is wrong with the entry of a role. -/
inductive EntryProblem where
  | noAbstract
  | wrongKind (found : Value) (expected : String)
  /-- The entry is a list of no items. -/
  | emptyList
  /-- The entry is a list of more than two items. -/
  | longList (length : Nat)

/-- The wording of a problem with an entry. -/
def EntryProblem.message : EntryProblem → String
  | noAbstract => "missing field `abstract`"
  | wrongKind found expected => "invalid type: " ++ found.describe ++ ", expected " ++ expected
  | emptyList => "invalid length 0, expected struct RawEntry with 2 elements"
  | longList length =>
      "invalid length " ++ toString length ++ ", expected fewer elements in array"

/-- Why a text is no registry. -/
inductive RegistryError where
  /-- The text is not one JSON object. -/
  | invalidJson (message : String)
  | invalidEntry (name : String) (problem : EntryProblem)

/-- The wording of an error. -/
def RegistryError.message : RegistryError → String
  | invalidJson message => "Invalid role table: " ++ message
  | invalidEntry name problem => "Invalid entry for role '" ++ name ++ "': " ++ problem.message

/-- A truth value. -/
def readBoolean : Value → Except EntryProblem Bool
  | .boolean value => .ok value
  | found => .error (.wrongKind found "a boolean")

/-- A text. -/
def readText : Value → Except EntryProblem String
  | .string value => .ok value
  | found => .error (.wrongKind found "a string")

/-- A list of texts. -/
def readTexts : Value → Except EntryProblem (List String)
  | .array items => items.mapM readText
  | found => .error (.wrongKind found "a sequence")

/-- The entry of a role. -/
def readTraits : Value → Except EntryProblem Traits
  | .object members => do
      let isAbstract ← (member? "abstract" members).mapM readBoolean
      let superclasses ← (member? "superClass" members).mapM readTexts
      match isAbstract with
      | none => throw .noAbstract
      | some isAbstract => return ⟨isAbstract, superclasses.getD []⟩
  | .array items => match items with
      | [] => .error .emptyList
      | first :: others => do
          let isAbstract ← readBoolean first
          let superclasses ← others.head?.mapM readTexts
          if 2 < items.length then throw (.longList items.length)
          return ⟨isAbstract, superclasses.getD []⟩
  | found => .error (.wrongKind found "struct RawEntry")

/-- The entry of one member. -/
def readEntry (member : String × Value) : Except RegistryError Entry :=
  match readTraits member.2 with
  | .ok traits => .ok ⟨member.1, traits⟩
  | .error problem => .error (.invalidEntry member.1 problem)

/-- The registry of the members of an object, of which the last of each name counts. -/
def Registry.ofMembers (members : List (String × Value)) : Except RegistryError Registry :=
  ((Dictionary.ofList members).entries.mapM readEntry).map Registry.ofEntries

/-- The registry that a text writes. -/
def Registry.ofJson (source : String) : Except RegistryError Registry :=
  match Json.parseObject source with
  | .error fault => .error (.invalidJson (fault.message source))
  | .ok members => Registry.ofMembers members

end RoleAudit.Role
