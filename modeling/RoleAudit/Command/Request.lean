import RoleAudit.Files.Path

/-!
# Requests

What a command line asks for.  A line starts with the name of a command, and its
arguments follow in any order.  An option has a long name after two hyphens and
may have a short one after one; its value stands in the same argument, with or
without an equals sign after a short name, or is the next argument, which must
not look like an option.  Two hyphens end the options.

`Request.parse?` has no answer for a line that asks for nothing.
-/

namespace RoleAudit.Command

/-- What to audit, and how. -/
structure CheckRequest where
  paths : List String := []
  format? : Option String := none
  /-- A file of settings. -/
  config? : Option String := none
  ignoreComponents : Bool := false
  /-- Words to accept beside those that the settings allow. -/
  allowed : List String := []
  deriving DecidableEq, Repr

/-- What a command line asks for. -/
inductive Request where
  | help
  | version
  | check (request : CheckRequest)
  | roles (isAbstract : Bool)
  | formats
  deriving DecidableEq, Repr

/-- How an argument is to be understood. -/
inductive Argument where
  | plain (text : String)
  | endOfOptions
  | long (name : String) (value? : Option String)
  /-- A short name, and the rest of its argument. -/
  | short (name : Char) (rest : List Char)
  deriving DecidableEq, Repr

/-- The text before the first equals sign, and the text after it if there is one. -/
def splitAtEquals (text : List Char) : List Char × Option (List Char) :=
  match text.dropWhile (· ≠ '=') with
  | [] => (text, none)
  | _ :: value => (text.takeWhile (· ≠ '='), some value)

/-- How an argument is to be understood.  A single hyphen is plain. -/
def Argument.ofText (text : String) : Argument :=
  match text.toList with
  | ['-', '-'] => endOfOptions
  | '-' :: '-' :: rest =>
      let (name, value?) := splitAtEquals rest
      long (String.ofList name) (value?.map String.ofList)
  | '-' :: c :: rest => short c rest
  | _ => plain text

/-- The value in the argument of a short name. -/
def attachedValue? : List Char → Option String
  | [] => none
  | '=' :: rest => some (String.ofList rest)
  | rest => some (String.ofList rest)

/-- An option of a check that takes a value. -/
inductive ValueOption where
  | format
  | config
  | allowRole
  deriving DecidableEq, Repr

/-- The option of a long name. -/
def ValueOption.ofLong? (name : String) : Option ValueOption :=
  if name = "format" then some format
  else if name = "config" then some config
  else if name = "allow-role" then some allowRole
  else none

/-- The option of a short name. -/
def ValueOption.ofShort? (name : Char) : Option ValueOption :=
  if name = 'f' then some format
  else if name = 'c' then some config
  else none

namespace CheckRequest

/-- Add a path, which must not be empty. -/
def addPath (r : CheckRequest) (path : String) : Option CheckRequest :=
  if path = "" then none else some { r with paths := r.paths ++ [path] }

/-- Give a value to an option.  Only words to allow may be given more than once, and the path of
a file must not be empty. -/
def give (r : CheckRequest) (value : String) : ValueOption → Option CheckRequest
  | .format => if r.format?.isSome then none else some { r with format? := some value }
  | .config =>
      if r.config?.isSome ∨ value = "" then none else some { r with config? := some value }
  | .allowRole => some { r with allowed := r.allowed ++ [value] }

/-- Leave components alone, which may be asked for once. -/
def leaveComponents (r : CheckRequest) : Option CheckRequest :=
  if r.ignoreComponents then none else some { r with ignoreComponents := true }

/-- A complete request has a path. -/
def complete (r : CheckRequest) : Option Request :=
  if r.paths = [] then none else some (.check r)

/-- Read the arguments of a check, after those read so far.  An option that waits for its value
takes the next argument. -/
def parse? (r : CheckRequest) (waiting : Option ValueOption) : List String → Option Request
  | [] => if waiting.isSome then none else r.complete
  | text :: rest =>
      match waiting, Argument.ofText text with
      | some option, .plain value => (r.give value option).bind fun r => parse? r none rest
      | some _, _ => none
      | none, .plain path => (r.addPath path).bind fun r => parse? r none rest
      | none, .endOfOptions => (rest.foldlM addPath r).bind complete
      | none, .long name (some value) =>
          (ValueOption.ofLong? name).bind fun option =>
            (r.give value option).bind fun r => parse? r none rest
      | none, .long name none =>
          if name = "help" then some .help
          else if name = "ignore-non-dom" then
            r.leaveComponents.bind fun r => parse? r none rest
          else (ValueOption.ofLong? name).bind fun option => parse? r (some option) rest
      | none, .short name more =>
          if name = 'h' then some .help
          else (ValueOption.ofShort? name).bind fun option =>
            match attachedValue? more with
            | some value => (r.give value option).bind fun r => parse? r none rest
            | none => parse? r (some option) rest

end CheckRequest

/-- Read the arguments of a command that takes no more than one switch. -/
def switchOnly (switch? : Option String) (isOn : Bool) (make : Bool → Request) :
    List String → Option Request
  | [] => some (make isOn)
  | text :: rest =>
      match Argument.ofText text with
      | .endOfOptions => if rest = [] then some (make isOn) else none
      | .short 'h' _ => some .help
      | .long name none =>
          if name = "help" then some .help
          else if switch? = some name ∧ !isOn then switchOnly switch? true make rest
          else none
      | _ => none

/-- The names of the commands. -/
def commandNames : List String := ["check", "roles", "formats", "help"]

/-- What the arguments of a command line ask for. -/
def Request.parse? : List String → Option Request
  | [] => none
  | text :: rest =>
      if text = "check" then CheckRequest.parse? {} none rest
      else if text = "roles" then switchOnly (some "abstract") false roles rest
      else if text = "formats" then switchOnly none false (fun _ => formats) rest
      else if text = "help" then
        if rest.length ≤ 1 ∧ rest.all commandNames.contains then some help else none
      else match Argument.ofText text with
        | .short 'h' _ => some help
        | .short 'V' _ => some version
        | .long "help" none => some help
        | .long "version" none => some version
        | _ => none

end RoleAudit.Command
