import RoleAudit.Json.Value
import RoleAudit.Text.Position

/-!
# Faults in JSON texts

What can be wrong with a text that should be JSON, and where.  A place is given
by the text that was not read before it; the message names a line from one and
the number of bytes of that line up to the place.
-/

namespace RoleAudit.Json

open RoleAudit.Text (Lines)

/-- What is wrong with a text that should be JSON. -/
inductive Problem where
  | endInValue
  | endInList
  | endInObject
  | endInString
  | expectedColon
  | expectedListEnd
  | expectedObjectEnd
  | expectedWord
  | expectedValue
  | invalidEscape
  | invalidNumber
  | outOfRange
  | controlCharacter
  | keyNotString
  | loneSurrogate
  | tooDeep
  | trailingComma
  | trailingText
  | endOfSurrogate
  /-- The text is JSON, but of another kind than asked for. -/
  | wrongKind (found : Value) (expected : String)

/-- The wording of a problem. -/
def Problem.message : Problem → String
  | endInValue => "EOF while parsing a value"
  | endInList => "EOF while parsing a list"
  | endInObject => "EOF while parsing an object"
  | endInString => "EOF while parsing a string"
  | expectedColon => "expected `:`"
  | expectedListEnd => "expected `,` or `]`"
  | expectedObjectEnd => "expected `,` or `\x7d`"
  | expectedWord => "expected ident"
  | expectedValue => "expected value"
  | invalidEscape => "invalid escape"
  | invalidNumber => "invalid number"
  | outOfRange => "number out of range"
  | controlCharacter => "control character (\\u0000-\\u001F) found while parsing a string"
  | keyNotString => "key must be a string"
  | loneSurrogate => "lone leading surrogate in hex escape"
  | tooDeep => "recursion limit exceeded"
  | trailingComma => "trailing comma"
  | trailingText => "trailing characters"
  | endOfSurrogate => "unexpected end of hex escape"
  | wrongKind found expected => "invalid type: " ++ found.describe ++ ", expected " ++ expected

/-- A problem and its place: `ahead` bytes into the text `rest`, but not past its end. -/
structure Fault where
  problem : Problem
  rest : List Char
  ahead : Nat

/-- The wording of a fault in a text. -/
def Fault.message (f : Fault) (source : String) : String :=
  let total := source.utf8ByteSize
  let place := min total (total - Text.byteLength f.rest + f.ahead)
  let position := (Lines.ofText source).position place
  f.problem.message ++ " at line " ++ toString (position.line + 1) ++
    " column " ++ toString position.column

end RoleAudit.Json
