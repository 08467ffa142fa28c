import RoleAudit.Decimal.FloatText
import RoleAudit.Text.Shown

/-!
# JSON values

Values of JSON as they are written: the members of an object stay in their order
and may repeat a name, in which case the last member counts.
-/

namespace RoleAudit.Json

/-- A number.  A whole number that 64 bits hold is kept as it is; any other is a double. -/
inductive Number where
  | natural (value : Nat)
  /-- A whole number below zero, without its sign. -/
  | negative (magnitude : Nat)
  | float (value : Float)

/-- A value. -/
inductive Value where
  | null
  | boolean (value : Bool)
  | number (value : Number)
  | string (value : String)
  | array (items : List Value)
  | object (members : List (String × Value))

/-- How a message names a number that it did not expect. -/
def Number.describe : Number → String
  | natural value => "integer `" ++ toString value ++ "`"
  | negative magnitude => "integer `-" ++ toString magnitude ++ "`"
  | float value => "floating point `" ++ Decimal.floatText .compact value ++ "`"

/-- How a message names a value that it did not expect. -/
def Value.describe : Value → String
  | null => "null"
  | boolean value => "boolean `" ++ (if value then "true" else "false") ++ "`"
  | number value => value.describe
  | string value => "string " ++ Text.shown value
  | array _ => "sequence"
  | object _ => "map"

/-- The member of a name.  Of several the last counts. -/
def member? (name : String) (members : List (String × Value)) : Option Value :=
  (members.reverse.find? fun m => m.1 = name).map Prod.snd

end RoleAudit.Json
