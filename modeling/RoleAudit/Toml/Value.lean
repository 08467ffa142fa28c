/-!
# TOML values

What a TOML text says: a table of values by key.  A date or a time counts as its
text.
-/

namespace RoleAudit.Toml

/-- A value. -/
inductive Value where
  | text (value : String)
  | integer (value : Int)
  | float (value : Float)
  | boolean (value : Bool)
  | list (items : List Value)
  | table (members : List (String × Value))

/-- A way to read a value off the front of a text. -/
abbrev Reader (α : Type) := List Char → Option (α × List Char)

/-- Whether a character is a space within a line. -/
def isSpace (c : Char) : Bool :=
  c = ' ' || c = '\t'

/-- The text after the spaces at its front. -/
def skipSpace (text : List Char) : List Char :=
  text.dropWhile isSpace

/-- Whether a character may stand in a line: all but the controls other than the tab. -/
def isPlain (c : Char) : Bool :=
  c = '\t' || (0x20 ≤ c.toNat && c.toNat ≠ 0x7F)

/-- The text after a line break at its front. -/
def lineBreak? : List Char → Option (List Char)
  | '\n' :: rest => some rest
  | '\r' :: '\n' :: rest => some rest
  | _ => none

/-- The text after the spaces, line breaks and comments at its front. -/
def skipBlank (inComment : Bool) : List Char → List Char
  | [] => []
  | '\n' :: rest => skipBlank false rest
  | '\r' :: '\n' :: rest => skipBlank false rest
  | c :: rest =>
      if inComment then (if isPlain c then skipBlank true rest else c :: rest)
      else if isSpace c then skipBlank false rest
      else if c = '#' then skipBlank true rest
      else c :: rest

/-- The text after the end of a line, which may hold spaces and a comment. -/
def endOfLine (text : List Char) : Option (List Char) :=
  let rest := match skipSpace text with
    | '#' :: comment => comment.dropWhile isPlain
    | rest => rest
  match rest with
  | [] => some []
  | rest => lineBreak? rest

/-- Read one item or more with a mark between any two. -/
def separated {α : Type} (item : Reader α) (mark : Char) (text : List Char) :
    Option (List α × List Char) :=
  match item text with
  | none => none
  | some (first, []) => some ([first], [])
  | some (first, c :: rest) =>
      if c ≠ mark then some ([first], c :: rest)
      else if rest.length < text.length then
        (separated item mark rest).map fun read => (first :: read.1, read.2)
      else none
termination_by text.length

end RoleAudit.Toml
