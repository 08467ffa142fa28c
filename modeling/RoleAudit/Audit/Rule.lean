import RoleAudit.Markup.SyntaxError
import RoleAudit.Markup.Walk

/-!
# Rules and audits

A rule looks at one element at a time, as it opens, and reports what it finds: it
sees the tag and whether this closes itself, and what the audit has reported so
far.  An audit takes a document from its first tag to its last and gives each to
all rules, in the order in which they are registered.
-/

namespace RoleAudit.Audit

open RoleAudit.Markup
open RoleAudit.Text (Span Location Lines)

/-- What a rule reports: a message and the place it is about. -/
structure Finding where
  message : String
  span : Span
  deriving DecidableEq, Repr

/-- A finding with the rule that made it and with its place as lines and columns. -/
structure Diagnostic where
  rule : String
  message : String
  span : Span
  location : Location
  deriving DecidableEq, Repr

/-- The diagnostics of one source, under its path. -/
structure FileReport where
  path : String
  diagnostics : List Diagnostic
  deriving DecidableEq, Repr

/-- Whether a report holds no diagnostic. -/
def FileReport.isClean (r : FileReport) : Bool :=
  r.diagnostics.isEmpty

/-- A rule, which finds things where an element opens, given all diagnostics so far. -/
structure Rule where
  name : String
  description : String := ""
  findings : Opening → List Diagnostic → List Finding

/-- The diagnostic of a finding that a rule makes in a source. -/
def Rule.diagnostic (rule : Rule) (lines : Lines) (finding : Finding) : Diagnostic :=
  ⟨rule.name, finding.message, finding.span, lines.location finding.span⟩

/-- The diagnostics after one more opening has been given to all rules in turn. -/
def auditOpening (rules : List Rule) (lines : Lines) (soFar : List Diagnostic)
    (opening : Opening) : List Diagnostic :=
  rules.foldl (fun found rule =>
    found ++ (rule.findings opening found).map (rule.diagnostic lines)) soFar

/-- The diagnostics of a document, in the order in which they are made. -/
def auditDocument (rules : List Rule) (document : Document) (source : String) : List Diagnostic :=
  let lines := Lines.ofText source
  document.entered.foldl (fun found element => auditOpening rules lines found element.opening) []

/-- The diagnostics of a source, unless it is no document. -/
def auditSource (rules : List Rule) (source : String) : Except SyntaxError (List Diagnostic) :=
  (Document.parse source).map fun document => auditDocument rules document source

end RoleAudit.Audit
