import RoleAudit.Settings.Options
import RoleAudit.Settings.Order
import RoleAudit.Toml.Document

/-!
# Layers of settings

Settings are made of layers over the defaults: files, in the order in which they
are given, and single values by path, which win over all files.  A file has the
form of TOML, whatever it is called, and its name may leave out the extension
`.toml`.  The tables of a layer are gone through in the order that an `Order` says,
which is the order of the text unless another is given.
-/

namespace RoleAudit.Settings

open RoleAudit.Audit (RoleOptions)
open RoleAudit.Files (Disk)

/-! ## Files -/

mutual

/-- A value of TOML that comes from a file. -/
def Value.ofToml (origin : String) : Toml.Value → Value
  | .text value => .scalar (.text value) (some origin)
  | .integer value => .scalar (.integer value) (some origin)
  | .float value => .scalar (.float value) (some origin)
  | .boolean value => .scalar (.boolean value) (some origin)
  | .list items => .list (itemsOfToml origin items) (some origin)
  | .table members => .table (membersOfToml origin members) (some origin)

/-- Items of a list of TOML. -/
def itemsOfToml (origin : String) : List Toml.Value → List Value
  | [] => []
  | value :: others => Value.ofToml origin value :: itemsOfToml origin others

/-- Members of a table of TOML. -/
def membersOfToml (origin : String) : List (String × Toml.Value) → List (String × Value)
  | [] => []
  | (name, value) :: others =>
      (name, Value.ofToml origin value) :: membersOfToml origin others

end

/-- The components of a path that lead on. -/
def leading (path : String) : List String :=
  (Files.components path).filter fun name => name ≠ "" ∧ name ≠ "."

/-- How messages name a file: its path without what leads nowhere. -/
def displayed (path : String) : String :=
  (if path.toList.head? = some '/' then "/" else "") ++ "/".intercalate (leading path)

/-- A path with the extension of TOML added to its last name. -/
def withExtension? (path : String) : Option String :=
  match (leading path).getLast? with
  | none => none
  | some name => if name = ".." then none else some (displayed path ++ ".toml")

/-- The path at which a file is found. -/
def locate? (disk : Disk) (path : String) : Option String :=
  if disk.isFile path then some path
  else (withExtension? path).filter fun other => disk.isFile other

/-- The text of a file, and how messages name it. -/
def readFile (disk : Disk) (path : String) : Except Fault SettingsText :=
  match locate? disk path with
  | none => .error (.noFile path)
  | some found =>
      match disk.text found with
      | .error fault => .error (.unreadable fault)
      | .ok text => .ok ⟨text, displayed found⟩

/-- What a file says.  A file that is not required may fail to be read. -/
def fileMembers (disk : Disk) (required : Bool) (path : String) :
    Except Fault (List (String × Value)) :=
  match readFile disk path with
  | .error fault => if required then .error fault else .ok []
  | .ok file =>
      match Toml.members? file.text with
      | none => .error (.notToml file)
      | some members => .ok (membersOfToml file.origin members)

/-! ## Layers -/

/-- Put a member at the top of settings, at the path that its name writes, if it writes one. -/
def addMember (settings : Value) (m : String × Value) : Value :=
  match Path.parse? m.1 with
  | some path => Value.storeAt path m.2 settings
  | none => Value.place m.1 settings m.2

/-- The settings that everything else is layered over. -/
def defaults : Value :=
  .table
    [("rules", .table
      [("aria_role", .table
        [("allowed_invalid_roles", .list [] none),
          ("ignore_non_dom", .scalar (.boolean false) none)] none)] none)] none

/-- A layer of settings. -/
inductive Layer where
  | file (path : String) (required : Bool)
  /-- A value under a key, which should be a path. -/
  | override (key : String) (value : Value)

/-- Layers in the order in which they count. -/
structure Plan where
  /-- The paths of the files, and whether each is required. -/
  files : List (String × Bool) := []
  /-- The values over the files.  No path is given twice. -/
  overrides : List (Path × Value) := []

/-- Take one more layer into a plan.  Of two values for one path the later counts. -/
def Plan.add (plan : Plan) : Layer → Except Fault Plan
  | .file path required => .ok { plan with files := plan.files ++ [(path, required)] }
  | .override key value =>
      match Path.parse? key with
      | none => .error (.notPath key)
      | some path =>
          let others := plan.overrides.filter fun o => o.1 ≠ path
          .ok { plan with overrides := others ++ [(path, value)] }

/-- The plan of some layers. -/
def Plan.ofLayers (layers : List Layer) : Except Fault Plan :=
  layers.foldlM Plan.add {}

/-- What the files of a plan say, one after the other. -/
def Plan.contents (disk : Disk) (plan : Plan) : Except Fault (List (List (String × Value))) :=
  plan.files.mapM fun file => fileMembers disk file.2 file.1

/-- Put members at the top of settings, one after the other. -/
def addMembers (settings : Value) (members : List (String × Value)) : Value :=
  members.foldl addMember settings

/-- Put a value by path into settings. -/
def addOverride (settings : Value) (o : Path × Value) : Value :=
  Value.storeAt o.1 o.2 settings

/-- The settings that a plan gives, put together in some order. -/
def Plan.settings (order : Order) (disk : Disk) (plan : Plan) : Except Fault Value :=
  (plan.contents disk).map fun contents =>
    (order.inOverrides plan.overrides).foldl addOverride
      ((order.inFiles contents).foldl addMembers defaults)

/-- The options that some layers give. -/
def load (disk : Disk) (layers : List Layer) (order : Order := .written) :
    Except Fault RoleOptions :=
  (Plan.ofLayers layers).bind fun plan =>
    (plan.settings order disk).bind (readSettings order.flagFirst)

end RoleAudit.Settings
