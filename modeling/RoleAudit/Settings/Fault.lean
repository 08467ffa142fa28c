import RoleAudit.Files.Node
import RoleAudit.Settings.Value

/-!
# Faults in settings

Why there are no settings: a key that is no path, a file that cannot be used, or
a value that does not fit.

What is said of a key that is no path and of a text that is no TOML is up to those
who read them.  A `Wording` stands for what they say, and a message takes it as it
is.
-/

namespace RoleAudit.Settings

open RoleAudit.Files (ReadFault)

/-- A text of settings, and how messages name the file that holds it. -/
structure SettingsText where
  text : String
  origin : String

/-- Why there are no settings. -/
inductive Fault where
  /-- A key is no path. -/
  | notPath (key : String)
  | noFile (path : String)
  | unreadable (fault : ReadFault)
  | notToml (file : SettingsText)
  /-- A value at some place cannot be taken for a value of the kind that is expected. -/
  | unfit (found : Value) (expected : String) (place : List Step)
  /-- A value has another shape than is expected. -/
  | misshapen (found : Value) (expected : String)
  | missingMember (name : String)
  /-- A list that stands for a table has too few items. -/
  | tooFewItems (count : Nat) (expected : String)

/-- What is said of a key that is no path, and of a text that is no TOML. -/
structure Wording where
  notPath : String → String
  notToml : String → String

/-- A wording that says no more than what is wrong. -/
def Wording.plain : Wording where
  notPath key := "invalid key " ++ Text.shown key
  notToml _ := "TOML parse error"

/-- The text of a fault. -/
def Fault.message (fault : Fault) (wording : Wording := .plain) : String :=
  match fault with
  | notPath key => wording.notPath key
  | noFile path => "configuration file \"" ++ path ++ "\" not found"
  | unreadable fault => fault.message
  | notToml file => wording.notToml file.text ++ " in " ++ file.origin
  | unfit found expected place =>
      "invalid type: " ++ found.describe ++ ", expected " ++ expected ++
        " for key `" ++ renderSteps place ++ "`" ++
        match found.origin with
        | none => ""
        | some origin => " in " ++ origin
  | misshapen found expected => "invalid type: " ++ found.describe ++ ", expected " ++ expected
  | missingMember name => "missing field `" ++ name ++ "`"
  | tooFewItems count expected =>
      "invalid length " ++ toString count ++ ", expected " ++ expected

end RoleAudit.Settings
