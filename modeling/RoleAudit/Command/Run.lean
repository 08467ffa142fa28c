import RoleAudit.Audit.FileAudit
import RoleAudit.Command.Request
import RoleAudit.Report.Format
import RoleAudit.Settings.Layers

/-!
# Running a request

What a request writes and the number it ends with, given what stands on the disk:
zero if all is well, one if a check found something, two if a file, the settings
or the format could not be used.  What is said of settings that are no TOML is left
to a wording.
-/

namespace RoleAudit.Command

open RoleAudit.Audit
open RoleAudit.Files (Disk SourceFile)
open RoleAudit.Report (FormatTable)
open RoleAudit.Role (Registry)
open RoleAudit.Settings (Layer Wording)

/-- What a run writes, to standard output and to standard error, and the number it ends with. -/
structure Outcome where
  exit : UInt8 := 0
  stdout : String := ""
  stderr : String := ""
  deriving DecidableEq, Repr

/-- The number of a run whose check found something. -/
def exitFound : UInt8 := 1

/-- The number of a run that could not do all it was asked for. -/
def exitFailed : UInt8 := 2

/-- A run that ends early, with a line that says why. -/
def Outcome.failed (message : String) : Outcome :=
  { exit := exitFailed, stderr := message ++ "\n" }

/-- The file of settings that a check reads if it is there. -/
def projectFile : String := "aria-role-lint.toml"

/-- How to use the program. -/
def usage : String :=
  "Usage: aria-role-lint check <PATHS>... [--format <FORMAT>] [--config <FILE>]\n" ++
  "                            [--ignore-non-dom] [--allow-role <ROLE>]...\n" ++
  "       aria-role-lint roles [--abstract]\n" ++
  "       aria-role-lint formats\n"

/-- The name and the number of this version. -/
def versionLine : String := "aria-role-lint 0.1.0\n"

namespace CheckRequest

/-- The layers of settings of a check. -/
def layers (r : CheckRequest) : List Layer :=
  .file projectFile false :: r.config?.toList.map (.file · true) ++
    if r.ignoreComponents then
      [.override "rules.aria_role.ignore_non_dom" (.scalar (.boolean true) none)]
    else []

/-- The options of a check: those of the settings, and the words allowed beside. -/
def options (r : CheckRequest) (disk : Disk) : Except Settings.Fault RoleOptions :=
  (Settings.load disk r.layers).map fun o => { o with allowed := o.allowed ++ r.allowed }

/-- The format of a check. -/
def format (r : CheckRequest) : String := r.format?.getD "simple"

/-- The line about a file that has no report. -/
def errorLine (e : FileError) : String :=
  "Error: " ++ e.message ++ "\n"

/-- The line about a file, if it has no report. -/
def errorLine? : Except FileError FileReport → Option String
  | .error e => some (errorLine e)
  | .ok _ => none

/-- Audit some files and write the reports in a format. -/
def audit (options : RoleOptions) (format : String) (files : List SourceFile) : Outcome :=
  let rules := [(⟨Registry.standard, options⟩ : RoleRule).rule]
  let results := files.map (auditFile rules)
  let reports := results.filterMap Except.toOption
  let errors := results.filterMap errorLine?
  match FormatTable.standard.render format reports with
  | .error e =>
      { exit := exitFailed, stderr := String.join errors ++ "Error: " ++ e.message ++ "\n" }
  | .ok output =>
      { exit :=
          if !errors.isEmpty then exitFailed
          else if reports.all FileReport.isClean then 0
          else exitFound
        stdout := output
        stderr := String.join errors }

/-- Run a check.  The settings are looked at before the format, and the format before the paths. -/
def run (wording : Wording) (disk : Disk) (r : CheckRequest) : Outcome :=
  match r.options disk with
  | .error fault => .failed ("Configuration error: " ++ fault.message wording)
  | .ok options =>
      let table := FormatTable.standard
      if (table.get? r.format).isNone then
        .failed ("Unknown format '" ++ r.format ++ "'. Available formats: " ++
          ", ".intercalate table.names)
      else match Files.expand disk r.paths with
        | .error folder =>
            { exit := exitFailed, stderr := errorLine (.unreadable folder.path folder.fault) }
        | .ok files => audit options r.format files

/-- The paths that a check looks at. -/
def lookedAt (r : CheckRequest) : List String :=
  let settings := projectFile :: r.config?.toList
  settings ++ settings.filterMap Settings.withExtension? ++ r.paths

end CheckRequest

/-- The names of roles, one a line. -/
def rolesText (isAbstract : Bool) : String :=
  let registry := Registry.standard
  let names := if isAbstract then registry.abstractRoles else registry.concreteRoles
  String.join (names.map (· ++ "\n"))

/-- The names of the formats with their descriptions. -/
def formatsText : String :=
  "Available formats:\n\n" ++
    String.join (FormatTable.standard.all.map fun f =>
      "  " ++ f.name ++ "\n    " ++ f.description ++ "\n")

/-- Run a request. -/
def Request.run (wording : Wording) (disk : Disk) : Request → Outcome
  | help => { stdout := usage }
  | version => { stdout := versionLine }
  | check request => request.run wording disk
  | roles isAbstract => { stdout := rolesText isAbstract }
  | formats => { stdout := formatsText }

/-- Run a command line.  One that asks for nothing is told how to use the program. -/
def run (disk : Disk) (arguments : List String) (wording : Wording := .plain) : Outcome :=
  match Request.parse? arguments with
  | none => { exit := exitFailed, stderr := usage }
  | some request => request.run wording disk

end RoleAudit.Command
