import RoleAudit.Settings.Path
import RoleAudit.Settings.Value

/-!
# Tables without an order

The members of a table have no order.  Whoever goes through the table meets them in
some order, which may be another for each table and each time.  An `Order` says in
which order members are met wherever settings are put together: in the files, in the
values by path, among these values, and at the end where the options are read.

Tables in lists are not gone through: nothing but single members is looked up in
them.
-/

namespace RoleAudit.Settings

/-- An order for the members of every table in a value, given the names that lead to the table. -/
structure Arrangement where
  arrange : List String → List (String × Value) → List (String × Value)
  perm : ∀ names members, (arrange names members).Perm members

namespace Arrangement

/-- Members in the order in which they are written. -/
def written : Arrangement where
  arrange _ members := members
  perm _ _ := .rfl

mutual

/-- The value at the end of some names, with the members of its tables in order. -/
def value (a : Arrangement) (names : List String) : Value → Value
  | .scalar value origin => .scalar value origin
  | .list items origin => .list items origin
  | .table members origin => .table (a.arrange names (a.eachMember names members)) origin

/-- The members of the table at the end of some names, with those of their own tables in order. -/
def eachMember (a : Arrangement) (names : List String) :
    List (String × Value) → List (String × Value)
  | [] => []
  | (name, value) :: others =>
      (name, a.value (names ++ [name]) value) :: a.eachMember names others

end

/-- The members of the table at the top in order, and those of all tables in them. -/
def members (a : Arrangement) (members : List (String × Value)) : List (String × Value) :=
  a.arrange [] (a.eachMember [] members)

end Arrangement

/-- The orders in which settings are put together. -/
structure Order where
  /-- The order in the file at an index. -/
  file : Nat → Arrangement
  /-- The order in the value at a path. -/
  override : Path → Arrangement
  /-- The order of the values by path. -/
  overrides : List (Path × Value) → List (Path × Value)
  /-- Whether the truth value is read before the list of words. -/
  flagFirst : Bool
  overrides_perm : ∀ values, (overrides values).Perm values

namespace Order

/-- Everything in the order in which it is written. -/
def written : Order where
  file _ := .written
  override _ := .written
  overrides values := values
  flagFirst := true
  overrides_perm _ := .rfl

/-- What files say, in order. -/
def inFiles (order : Order) (contents : List (List (String × Value))) :
    List (List (String × Value)) :=
  contents.mapIdx fun i members => (order.file i).members members

/-- A value by path, with its tables in order. -/
def inOverride (order : Order) (o : Path × Value) : Path × Value :=
  (o.1, (order.override o.1).value [] o.2)

/-- Values by path, in order. -/
def inOverrides (order : Order) (values : List (Path × Value)) : List (Path × Value) :=
  order.overrides (values.map order.inOverride)

end Order

end RoleAudit.Settings
