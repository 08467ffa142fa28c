import RoleAudit.Markup.Grammar
import RoleAudit.Markup.Mode

/-!
# Parsing and its errors

A source is parsed into a document or refused with one error, which says what
stands in the way at the furthest place that a reading reached, and where that
is.
-/

namespace RoleAudit.Markup

open RoleAudit.Text (Span Location Lines)

/-- Why a list of lexemes is no document. -/
inductive Complaint where
  | unexpected (token : Token)
  | unexpectedEnd
  | mismatch (opened closed : Name)
  deriving DecidableEq, Repr

/-- The wording of a complaint. -/
def Complaint.message : Complaint → String
  | unexpected token => "unexpected `" ++ token.spelling ++ "`"
  | unexpectedEnd => "unexpected end of input"
  | mismatch opened closed =>
      "expected closing tag for <" ++ opened.render ++ ">, found </" ++ closed.render ++ ">"

/-- A syntax error with its place in the source. -/
structure SyntaxError where
  complaint : Complaint
  span : Span
  location : Location
  deriving DecidableEq, Repr

/-- The wording of a syntax error, after its line and column counted from one. -/
def SyntaxError.render (e : SyntaxError) : String :=
  e.location.start.renderFromOne ++ ": " ++ e.complaint.message

/-- What a failure complains about, and where.  The end of the input lies at the end of the
source, or reaches to the end of the last lexeme if that is further. -/
def Failure.complaint (all : List Lexeme) (sourceLength : Nat) (f : Failure) : Complaint × Span :=
  match f.cause, f.rest with
  | .mismatch opened closed tag, _ => (.mismatch opened closed, tag)
  | .unexpected, t :: _ => (.unexpected t.token, t.span)
  | .unexpected, [] =>
      (.unexpectedEnd,
        ⟨sourceLength, max sourceLength ((all.getLast?.map (·.span.stop)).getD sourceLength)⟩)

/-- The document that lexemes make up.  The source serves to locate an error only. -/
def Document.ofLexemes (ts : List Lexeme) (source : String) : Except SyntaxError Document :=
  match Grammar.document ts with
  | ⟨some (document, _), _⟩ => .ok document
  | ⟨none, failure⟩ =>
      let (complaint, span) :=
        (failure.getD ⟨ts, .unexpected⟩).complaint ts source.utf8ByteSize
      .error ⟨complaint, span, (Lines.ofText source).location span⟩

/-- The document that a source writes. -/
def Document.parse (source : String) : Except SyntaxError Document :=
  Document.ofLexemes (lexemes source) source

end RoleAudit.Markup
