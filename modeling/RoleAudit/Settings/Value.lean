import RoleAudit.Decimal.FloatText
import RoleAudit.Settings.Path
import RoleAudit.Text.Dictionary
import RoleAudit.Text.Lowercase
import RoleAudit.Text.Shown

/-!
# Settings as values

Settings before it is known what they are for: nested tables and lists with simple
values at the ends.  A value that comes from a file remembers which.

Tables are merged member by member, and any other value takes the place of an
older one.  What stands in the way of a path gives way to the table or list that
the path needs.
-/

namespace RoleAudit.Settings

open RoleAudit.Text (Dictionary)

/-- A simple value. -/
inductive Scalar where
  | nothing
  | boolean (value : Bool)
  | integer (value : Int)
  | float (value : Float)
  | text (value : String)

/-- A value, with the file it comes from. -/
inductive Value where
  | scalar (value : Scalar) (origin : Option String)
  | list (items : List Value) (origin : Option String)
  | table (members : List (String × Value)) (origin : Option String)
  deriving Inhabited

/-- Doubles in messages have all their places and a point. -/
def messageFloat : Decimal.FloatStyle := ⟨true, none⟩

/-- How a message names a simple value that it did not expect. -/
def Scalar.describe : Scalar → String
  | nothing => "unit value"
  | boolean value => "boolean `" ++ toString value ++ "`"
  | integer value => "integer `" ++ toString value ++ "`"
  | float value => "floating point `" ++ Decimal.floatText messageFloat value ++ "`"
  | text value => "string " ++ Text.shown value

namespace Value

/-- No value, which fills places that something else needs. -/
def nothing : Value := scalar .nothing none

/-- A table of no members. -/
def emptyTable : Value := table [] none

/-- How a message names a value that it did not expect. -/
def describe : Value → String
  | scalar value _ => value.describe
  | list _ _ => "sequence"
  | table _ _ => "map"

/-- The file that a value comes from. -/
def origin : Value → Option String
  | scalar _ origin => origin
  | list _ origin => origin
  | table _ origin => origin

/-- The member of a name in a table.  Nothing else has members. -/
def member? (name : String) : Value → Option Value
  | table members _ => (members.find? fun m => m.1 = name).map Prod.snd
  | _ => none

/-- Change the member of a name.  What is no table becomes one. -/
def withMember (name : String) (change : Option Value → Value) (target : Value) : Value :=
  match target with
  | table members origin =>
      table (Dictionary.insertAmong name (change (target.member? name)) members) origin
  | _ => table [(name, change none)] none

/-- Change the item at an index of some items.  Items that are missing before or after are made
of nothing. -/
def changeItem (index : Int) (change : Value → Value) (items : List Value) : List Value :=
  let place := if index < 0 then items.length + index else index
  let before := List.replicate (-place).toNat nothing
  let after := List.replicate (place + 1 - items.length).toNat nothing
  (before ++ items ++ after).modify place.toNat change

/-- Change the item at an index.  What is no list becomes one. -/
def withItem (index : Int) (change : Value → Value) : Value → Value
  | list items origin => list (changeItem index change items) origin
  | _ => list (changeItem index change []) none

mutual

/-- Put a value under a name in lower case.  A table is merged into what is there. -/
def place (name : String) (target : Value) : Value → Value
  | table members _ =>
      target.withMember (Text.lowercase name) fun old? =>
        merge (old?.getD emptyTable) members
  | value => target.withMember (Text.lowercase name) fun _ => value

/-- Put several values under their names. -/
def merge (target : Value) : List (String × Value) → Value
  | [] => target
  | (name, value) :: others => merge (place name target value) others

end

/-- Put a value at the end of some steps. -/
def store (value : Value) : List Step → Value → Value
  | [], _ => value
  | [.member name], target => place name target value
  | .member name :: steps, target =>
      target.withMember name fun old? => store value steps (old?.getD nothing)
  | .item index :: steps, target => target.withItem index (store value steps)

/-- Put a value at a path. -/
def storeAt (path : Path) (value target : Value) : Value :=
  store value (.member path.first :: path.steps) target

end Value

end RoleAudit.Settings
