import RoleAudit.Audit.Rule

/-!
# Outlines

What a report holds, laid out for the formats that write all of it: texts,
numbers, lists, and records of named fields in a fixed order.
-/

namespace RoleAudit.Report

open RoleAudit.Audit (Diagnostic FileReport)
open RoleAudit.Text (Span Position Location)

/-- Nested data of texts and numbers. -/
inductive Outline where
  | text (value : String)
  | number (value : Nat)
  | list (items : List Outline)
  | record (fields : List (String × Outline))
  deriving Repr

namespace Outline

def ofSpan (s : Span) : Outline :=
  .record [("start", .number s.start), ("end", .number s.stop)]

def ofPosition (p : Position) : Outline :=
  .record [("line", .number p.line), ("column", .number p.column)]

def ofLocation (l : Location) : Outline :=
  .record [("start", ofPosition l.start), ("end", ofPosition l.stop)]

def ofDiagnostic (d : Diagnostic) : Outline :=
  .record
    [("rule", .text d.rule), ("message", .text d.message), ("span", ofSpan d.span),
      ("location", ofLocation d.location)]

def ofReport (r : FileReport) : Outline :=
  .record [("path", .text r.path), ("diagnostics", .list (r.diagnostics.map ofDiagnostic))]

/-- All that the reports of a run hold. -/
def ofReports (reports : List FileReport) : Outline :=
  .list (reports.map ofReport)

end Outline

end RoleAudit.Report
