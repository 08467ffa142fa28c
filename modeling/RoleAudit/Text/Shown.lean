import RoleAudit.Text.Visible

/-!
# Texts shown in messages

A message shows a text in double quotes.  Quotes, backslashes and the common
controls have an escape of one letter; every other character that does not show
by itself is written by its number in hexadecimal, in braces.
-/

namespace RoleAudit.Text

/-- The escape of a character of a shown text. -/
def shownChar (c : Char) : List Char :=
  match c with
  | '\x00' => ['\\', '0']
  | '\t' => ['\\', 't']
  | '\r' => ['\\', 'r']
  | '\n' => ['\\', 'n']
  | '\\' => ['\\', '\\']
  | '"' => ['\\', '"']
  | _ =>
      if isVisible c then [c]
      else ['\\', 'u', '\x7b'] ++ Nat.toDigits 16 c.toNat ++ ['\x7d']

/-- A text in quotes, as a message shows it. -/
def shown (text : String) : String :=
  "\"" ++ String.ofList (text.toList.flatMap shownChar) ++ "\""

end RoleAudit.Text
