import RoleAudit.Audit.Rule
import RoleAudit.Files.Sources

/-!
# Audits of files

A file is read, parsed and audited, which gives a report under its path or the
reason why there is none.
-/

namespace RoleAudit.Audit

open RoleAudit.Files (ReadFault SourceFile)
open RoleAudit.Markup (SyntaxError)

/-- Why a file has no report. -/
inductive FileError where
  | unreadable (path : String) (fault : ReadFault)
  | notMarkup (path : String) (error : SyntaxError)

/-- The wording of an error. -/
def FileError.message : FileError → String
  | unreadable path fault => path ++ ": " ++ fault.message
  | notMarkup path error => path ++ ":" ++ error.render

/-- The report of a file. -/
def auditFile (rules : List Rule) (file : SourceFile) : Except FileError FileReport :=
  match file.contents.bind Files.Disk.decode with
  | .error fault => .error (.unreadable file.path fault)
  | .ok source =>
      match auditSource rules source with
      | .error e => .error (.notMarkup file.path e)
      | .ok diagnostics => .ok ⟨file.path, diagnostics⟩

end RoleAudit.Audit
