import RoleAudit.Markup.Quoted
import RoleAudit.Toml.Value

/-!
# Texts in TOML

A text stands in one or in three quotes, double or single.  Escapes count in
double quotes only.  Three quotes hold line breaks, which count as a line feed
however they are written; the first of all does not count, and neither do two
quotes or fewer.
-/

namespace RoleAudit.Toml

/-- The value of some hexadecimal digits. -/
def hexNumber (count : Nat) (text : List Char) : Option (Nat × List Char) :=
  let digits := text.take count
  if digits.length < count then none
  else (digits.mapM Markup.Quoted.hexDigit?).map fun values =>
    (values.foldl (fun n digit => 16 * n + digit) 0, text.drop count)

/-- Read the number of a character. -/
def numbered (count : Nat) (text : List Char) : Option (Char × List Char) :=
  (hexNumber count text).bind fun read =>
    if read.1.isValidChar then some (Char.ofNat read.1, read.2) else none

/-- Read what follows a backslash. -/
def escape : List Char → Option (Char × List Char)
  | 'b' :: rest => some ('\x08', rest)
  | 't' :: rest => some ('\t', rest)
  | 'n' :: rest => some ('\n', rest)
  | 'f' :: rest => some ('\x0c', rest)
  | 'r' :: rest => some ('\r', rest)
  | '"' :: rest => some ('"', rest)
  | '\\' :: rest => some ('\\', rest)
  | 'u' :: rest => numbered 4 rest
  | 'U' :: rest => numbered 8 rest
  | _ => none

/-- The text after the spaces and line breaks at its front. -/
def skipBreaks : List Char → List Char
  | [] => []
  | '\n' :: rest => skipBreaks rest
  | '\r' :: '\n' :: rest => skipBreaks rest
  | c :: rest => if isSpace c then skipBreaks rest else c :: rest

/-- The text after a line break that a backslash hides, and after all blanks that follow it. -/
def hiddenBreak? (text : List Char) : Option (List Char) :=
  (lineBreak? (skipSpace text)).map skipBreaks

/-- Read what follows a backslash where line breaks may be hidden. -/
def escapeInLines (text : List Char) : Option (List Char × List Char) :=
  match hiddenBreak? text with
  | some rest => some ([], rest)
  | none => (escape text).map fun read => ([read.1], read.2)

/-- Read a text in one quote, after its opening quote. -/
def inLine (quote : Char) (text : List Char) : Option (List Char × List Char) :=
  match text with
  | [] => none
  | c :: rest =>
      if c = quote then some ([], rest)
      else if c = '\\' ∧ quote = '"' then
        match escape rest with
        | none => none
        | some (d, after) =>
            if after.length ≤ rest.length then
              (inLine quote after).map fun read => (d :: read.1, read.2)
            else none
      else if isPlain c then (inLine quote rest).map fun read => (c :: read.1, read.2)
      else none
termination_by text.length

/-- Read a text in three quotes, after its opening quotes.  Of the quotes at its end the last
three close it, unless there are more than five. -/
def inLines (quote : Char) (text : List Char) : Option (List Char × List Char) :=
  match text with
  | [] => none
  | c :: rest =>
      let quotes := (text.takeWhile (· = quote)).length
      if 3 ≤ quotes then
        let inside := min (quotes - 3) 2
        some (List.replicate inside quote, text.drop (inside + 3))
      else if c = '\\' ∧ quote = '"' then
        match escapeInLines rest with
        | none => none
        | some (ds, after) =>
            if after.length ≤ rest.length then
              (inLines quote after).map fun read => (ds ++ read.1, read.2)
            else none
      else match lineBreak? text with
        | some after =>
            if after.length ≤ rest.length then
              (inLines quote after).map fun read => ('\n' :: read.1, read.2)
            else none
        | none =>
            if isPlain c then (inLines quote rest).map fun read => (c :: read.1, read.2)
            else none
termination_by text.length
decreasing_by
  all_goals
    simp only [List.length_cons]
    omega

/-- Read a text after its first quote, which may be one of three. -/
def quoted (quote : Char) : List Char → Option (List Char × List Char)
  | c :: d :: rest =>
      if c = quote ∧ d = quote then inLines quote ((lineBreak? rest).getD rest)
      else inLine quote (c :: d :: rest)
  | text => inLine quote text

end RoleAudit.Toml
