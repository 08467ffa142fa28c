import RoleAudit.Report.JsonText
import RoleAudit.Report.YamlText
import RoleAudit.Text.Dictionary

/-!
# Formats

A format turns the reports of a run into one text.  Formats are kept by name; of
several of one name the last counts.
-/

namespace RoleAudit.Report

open RoleAudit.Audit (Diagnostic FileReport)
open RoleAudit.Text (Dictionary)

/-- Why reports could not be rendered. -/
inductive FormatError where
  | unknownFormat (name : String)
  /-- The format itself failed. -/
  | failed (message : String)
  deriving DecidableEq, Repr

/-- The wording of an error. -/
def FormatError.message : FormatError → String
  | unknownFormat name => "unknown format '" ++ name ++ "'"
  | failed message => "could not serialize reports: " ++ message

/-- A way to render reports. -/
structure Format where
  name : String
  description : String := ""
  render : List FileReport → Except FormatError String

/-- One line for a diagnostic, after its place counted from one. -/
def simpleLine (path : String) (d : Diagnostic) : String :=
  path ++ ":" ++ d.location.start.renderFromOne ++ ": " ++ d.message ++ " [" ++ d.rule ++ "]\n"

/-- One line for each diagnostic and, if there are any, their number. -/
def simpleText (reports : List FileReport) : String :=
  let lines := reports.flatMap fun r => r.diagnostics.map (simpleLine r.path)
  let count := lines.length
  let summary :=
    if count = 0 then ""
    else "\n" ++ toString count ++ (if count = 1 then " problem\n" else " problems\n")
  String.join lines ++ summary

namespace Format

/-- One line for each diagnostic, for people. -/
def simple : Format where
  name := "simple"
  description := "One line per diagnostic: path:line:column: message [rule]"
  render reports := .ok (simpleText reports)

/-- All that the reports hold, as JSON. -/
def json : Format where
  name := "json"
  description := "Pretty-printed JSON array of file reports"
  render reports := .ok (Outline.ofReports reports).json

/-- All that the reports hold, as YAML. -/
def yaml : Format where
  name := "yaml"
  description := "YAML sequence of file reports"
  render reports := .ok (Outline.ofReports reports).yaml

end Format

/-- Formats by name. -/
structure FormatTable where
  formats : Dictionary Format

namespace FormatTable

/-- No formats. -/
def empty : FormatTable := ⟨.empty⟩

/-- Add a format, in place of an older one of its name. -/
def register (t : FormatTable) (f : Format) : FormatTable :=
  ⟨t.formats.insert f.name f⟩

/-- The formats that are always known. -/
def standard : FormatTable :=
  ((empty.register .simple).register .json).register .yaml

/-- The format of a name. -/
def get? (t : FormatTable) (name : String) : Option Format :=
  t.formats.get? name

/-- The names of all formats, ascending. -/
def names (t : FormatTable) : List String :=
  t.formats.keys

/-- All formats, in the order of their names. -/
def all (t : FormatTable) : List Format :=
  t.formats.values

/-- Render reports in the format of a name. -/
def render (t : FormatTable) (name : String) (reports : List FileReport) :
    Except FormatError String :=
  match t.get? name with
  | none => .error (.unknownFormat name)
  | some f => f.render reports

end FormatTable

end RoleAudit.Report
