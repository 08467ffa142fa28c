import RoleAudit.Text.Dictionary

/-!
# Registries of roles

A registry says which names are roles, which of them are abstract, and which
roles each one specialises.  Only a concrete role may stand in a document.
Entries come in the order of their names, and of several entries of one name the
last counts.
-/

namespace RoleAudit.Role

open RoleAudit.Text (Dictionary)

/-- What a registry knows about a role besides its name. -/
structure Traits where
  isAbstract : Bool
  superclasses : List String
  deriving DecidableEq, Repr, Inhabited

/-- A role of a registry. -/
structure Entry where
  name : String
  traits : Traits
  deriving DecidableEq, Repr, Inhabited

/-- The known roles, by name. -/
structure Registry where
  roles : Dictionary Traits

namespace Registry

/-- The registry of some entries.  Of several entries of one name the last counts. -/
def ofEntries (entries : List Entry) : Registry :=
  ⟨.ofList (entries.map fun e => (e.name, e.traits))⟩

/-- The entry of a name, which is matched exactly. -/
def lookup (r : Registry) (name : String) : Option Entry :=
  (r.roles.get? name).map fun traits => ⟨name, traits⟩

/-- Whether a name is a role that is not abstract. -/
def isConcrete (r : Registry) (name : String) : Bool :=
  (r.roles.get? name).any fun traits => !traits.isAbstract

/-- All entries, in the order of their names. -/
def entries (r : Registry) : List Entry :=
  r.roles.entries.map fun role => ⟨role.1, role.2⟩

/-- The names of the roles that are not abstract, ascending. -/
def concreteRoles (r : Registry) : List String :=
  (r.entries.filter fun e => !e.traits.isAbstract).map Entry.name

/-- The names of the abstract roles, ascending. -/
def abstractRoles (r : Registry) : List String :=
  (r.entries.filter fun e => e.traits.isAbstract).map Entry.name

/-- The number of roles. -/
def size (r : Registry) : Nat :=
  r.roles.size

end Registry

end RoleAudit.Role
