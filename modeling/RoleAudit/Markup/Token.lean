import RoleAudit.Text.Position

/-!
# Tokens of markup

Markup mixes two kinds of text.  Inside tags and braces a source is code, split
into punctuation, literals and names; between an opening tag and the next `<` or
`{` it is prose.  One type holds the tokens of both.

A quoted literal keeps its value without the quotes.  `Token.spelling` is how a
message names a token.
-/

namespace RoleAudit.Markup

open RoleAudit.Text (Span)

/-- The smallest meaningful parts of a source. -/
inductive Token where
  | less
  | greater
  | slash
  | equals
  | openBrace
  | closeBrace
  | openParen
  | closeParen
  | openBracket
  | closeBracket
  | dot
  | comma
  | colon
  | semicolon
  | question
  /-- Three dots. -/
  | spread
  /-- An equal sign with a greater-than sign. -/
  | arrow
  /-- Two vertical bars. -/
  | or
  /-- Two ampersands. -/
  | and
  /-- Two question marks. -/
  | coalesce
  | plus
  | minus
  | bang
  /-- A comparison, a product or a remainder. -/
  | operator (text : String)
  /-- A block comment.  Lexing skips comments, so only hand-made token lists hold one. -/
  | comment
  | null
  | boolean (value : Bool)
  /-- A number as it is written. -/
  | number (text : String)
  /-- The value of a text in single or double quotes. -/
  | quoted (value : String)
  /-- The value of a text in backticks. -/
  | template (value : String)
  /-- A name, which may hold single dashes between its parts. -/
  | word (text : String)
  /-- A run of text between tags. -/
  | prose (text : String)
  /-- Text that belongs to no other token, such as a quote that is never closed. -/
  | stray (text : String)
  deriving DecidableEq, Repr, Inhabited

namespace Token

/-- Whether a token opens or closes a group in braces. -/
def isBrace : Token → Bool
  | openBrace | closeBrace => true
  | _ => false

/-- How a message names a token. -/
def spelling : Token → String
  | less => "<"
  | greater => ">"
  | slash => "/"
  | equals => "="
  | openBrace => "\x7b"
  | closeBrace => "\x7d"
  | openParen => "("
  | closeParen => ")"
  | openBracket => "["
  | closeBracket => "]"
  | dot => "."
  | comma => ","
  | colon => ":"
  | semicolon => ";"
  | question => "?"
  | spread => "..."
  | arrow => "=>"
  | or => "||"
  | and => "&&"
  | coalesce => "??"
  | plus => "+"
  | minus => "-"
  | bang => "!"
  | operator text => text
  | comment => "comment"
  | null => "null"
  | boolean value => if value then "true" else "false"
  | number text => text
  | quoted value => "\"" ++ value ++ "\""
  | template value => "`" ++ value ++ "`"
  | word text => text
  | prose text => "text `" ++ String.ofList (Text.trim text.toList) ++ "`"
  | stray text => text

end Token

/-- A token with the stretch of the source that it was read from. -/
structure Lexeme where
  token : Token
  span : Span
  deriving DecidableEq, Repr, Inhabited

end RoleAudit.Markup
