import RoleAudit.Markup.Quoted

/-!
# Texts in YAML

A text stands as it is where nothing else could be read from it.  A text that
could be read as another kind of value, or that starts or ends in a way that
means something, is put in single quotes; one with characters that do not print
in double quotes, with escapes; and one of several lines is written out line by
line after a bar.
-/

namespace RoleAudit.Report.Yaml

/-! ## Texts that look like other values -/

/-- The number that digits of a base write, if they are digits of that base. -/
def digitsFrom (base value : Nat) : List Char → Option Nat
  | [] => some value
  | c :: rest =>
      (Markup.Quoted.hexDigit? c).bind fun digit =>
        if digit < base then digitsFrom base (base * value + digit) rest else none

/-- A number in digits of a base, one at least. -/
def natural? (base : Nat) : List Char → Option Nat
  | [] => none
  | c :: rest => digitsFrom base 0 (c :: rest)

/-- Whether a text is one digit or more, which write a number below a bound. -/
def isBelow (bound base : Nat) (digits : List Char) : Bool :=
  (natural? base digits).any (· < bound)

/-- Whether a zero and further digits follow an optional sign. -/
def hasLeadingZero (text : List Char) : Bool :=
  let unsigned := match text with
    | '+' :: rest => rest
    | '-' :: rest => rest
    | _ => text
  match unsigned with
  | '0' :: c :: rest => (c :: rest).all Char.isDigit
  | _ => false

/-- The digits after a mark for a base, and the base. -/
def based? : List Char → Option (Nat × List Char)
  | '0' :: 'x' :: rest => some (16, rest)
  | '0' :: 'o' :: rest => some (8, rest)
  | '0' :: 'b' :: rest => some (2, rest)
  | _ => none

/-- Whether a text without its sign is a whole number below a bound. -/
def isMagnitude (bound : Nat) (text : List Char) : Bool :=
  ((based? text).any fun marked => isBelow bound marked.1 marked.2) || isBelow bound 10 text

/-- Whether a text is a whole number that 128 bits hold. -/
def isInteger (text : List Char) : Bool :=
  !hasLeadingZero text && match text with
    | '+' :: rest => isMagnitude (Nat.pow 2 128) rest
    | '-' :: rest => isMagnitude (Nat.pow 2 127 + 1) rest
    | _ => isMagnitude (Nat.pow 2 128) text

/-- A decimal: its digits with the point left out, and the power of ten of the last. -/
structure Decimal where
  digits : List Char
  exponent : Int

/-- An exponent after its letter: an optional sign and one digit or more. -/
def exponent? : List Char → Option Int
  | '+' :: rest => (natural? 10 rest).map fun n => (n : Int)
  | '-' :: rest => (natural? 10 rest).map fun n => -(n : Int)
  | rest => (natural? 10 rest).map fun n => (n : Int)

/-- A decimal without a sign: digits with at most one point among them, and maybe an exponent. -/
def decimal? (text : List Char) : Option Decimal :=
  let whole := text.takeWhile Char.isDigit
  let afterWhole := text.dropWhile Char.isDigit
  let (fraction, afterFraction) := match afterWhole with
    | '.' :: rest => (rest.takeWhile Char.isDigit, rest.dropWhile Char.isDigit)
    | rest => ([], rest)
  let digits := whole ++ fraction
  if digits.isEmpty then none
  else
    let point : Int := -(fraction.length : Int)
    match afterFraction with
    | [] => some ⟨digits, point⟩
    | c :: rest =>
        if c = 'e' || c = 'E' then (exponent? rest).map fun n => ⟨digits, point + n⟩ else none

/-- Whether a decimal rounds to a finite double, that is, lies below the middle between the
greatest double and the next power of two. -/
def Decimal.isFinite (d : Decimal) : Bool :=
  let significant := d.digits.dropWhile (· = '0')
  let place := (significant.length : Int) + d.exponent
  if significant.isEmpty || place < 300 then true
  else if 310 < place then false
  else
    let value := (natural? 10 significant).getD 0
    let bound := Nat.pow 2 1024 - Nat.pow 2 970
    if 0 ≤ d.exponent then value * Nat.pow 10 d.exponent.toNat < bound
    else value < bound * Nat.pow 10 (-d.exponent).toNat

/-- Whether a text is a number with a point or an exponent, or one of the special numbers. -/
def isFloat (text : List Char) : Bool :=
  let infinities := [".inf", ".Inf", ".INF"]
  let special := infinities ++ infinities.map ("+" ++ ·) ++ infinities.map ("-" ++ ·) ++
    [".nan", ".NaN", ".NAN"]
  let unsigned := match text with
    | '+' :: rest => rest
    | '-' :: rest => rest
    | _ => text
  special.contains (String.ofList text) ||
    (!hasLeadingZero text && (decimal? unsigned).any Decimal.isFinite)

/-- Whether a text could be read as no value, a truth value or a number, or is made of digits. -/
def isAmbiguous (text : List Char) : Bool :=
  ["", "~", "null", "Null", "NULL", "true", "True", "TRUE", "false", "False", "FALSE"].contains
      (String.ofList text) ||
    isInteger text || isFloat text || hasLeadingZero text

/-! ## Characters -/

/-- Whether a character ends a line. -/
def isBreak (c : Char) : Bool :=
  c = '\r' || c = '\n' || c = '\x85' || c = '\u2028' || c = '\u2029'

/-- Whether a character separates words, or the text has ended. -/
def isBlankOrEnd : Option Char → Bool
  | none => true
  | some c => c = ' ' || c = '\t' || c = '\x00' || isBreak c

/-- Whether a character prints. -/
def isPrintable (c : Char) : Bool :=
  c = '\n' || (0x20 ≤ c.toNat && c.toNat ≤ 0x7E) ||
    (0xA0 ≤ c.toNat && c.toNat ≠ 0xFEFF && c.toNat ≠ 0xFFFE && c.toNat ≠ 0xFFFF)

/-- Whether a text starts in a way that means something: with an indicator, with a mark that a
blank follows, or like the start or the end of a document. -/
def startsIndicated (text : List Char) : Bool :=
  match text with
  | '-' :: '-' :: '-' :: _ => true
  | '.' :: '.' :: '.' :: _ => true
  | c :: rest =>
      [',', '[', ']', '\x7b', '\x7d', '#', '&', '*', '!', '|', '>', '\x27', '"', '%', '@',
        '\x60'].contains c ||
        ((c = '?' || c = ':' || c = '-') && isBlankOrEnd rest.head?)
  | [] => false

/-- Whether a text holds, after its first character, a colon that a blank follows or a hash that
a blank precedes. -/
def holdsIndicator : List Char → Bool
  | c :: d :: rest =>
      (d = ':' && isBlankOrEnd rest.head?) || (d = '#' && isBlankOrEnd (some c)) ||
        holdsIndicator (d :: rest)
  | _ => false

/-- Whether a character of one kind stands right before one of another. -/
def holdsPair (first second : Char → Bool) : List Char → Bool
  | c :: d :: rest => (first c && second d) || holdsPair first second (d :: rest)
  | _ => false

/-! ## Styles -/

/-- The ways to write a text. -/
inductive Style where
  | plain
  | single
  | double
  | literal
  deriving DecidableEq, Repr

/-- Whether a text may stand as it is. -/
def allowsPlain (text : List Char) : Bool :=
  !(startsIndicated text || holdsIndicator text || text.any isBreak ||
    text.head? = some ' ' || text.getLast? = some ' ' || text.any fun c => !isPrintable c)

/-- Whether a text may stand in single quotes. -/
def allowsSingle (text : List Char) : Bool :=
  !((text.any fun c => !isPrintable c) || holdsPair isBreak (· = ' ') text ||
    holdsPair (· = ' ') isBreak text)

/-- Whether a text may be written out line by line. -/
def allowsLiteral (text : List Char) : Bool :=
  !((text.any fun c => !isPrintable c) || holdsPair (· = ' ') isBreak text ||
    text.getLast? = some ' ')

/-- How a text is written. -/
def styleOf (text : List Char) : Style :=
  if text.contains '\n' then if allowsLiteral text then .literal else .double
  else if !isAmbiguous text && allowsPlain text then .plain
  else if allowsSingle text then .single
  else .double

/-! ## Writing -/

/-- A number in hexadecimal, with at least `width` digits. -/
def hexDigits (width n : Nat) : List Char :=
  let digits := (Nat.toDigits 16 n).map Char.toUpper
  List.replicate (width - digits.length) '0' ++ digits

/-- The escape of a character in double quotes. -/
def escaped (c : Char) : List Char :=
  match c with
  | '\x00' => ['\\', '0']
  | '\x07' => ['\\', 'a']
  | '\x08' => ['\\', 'b']
  | '\t' => ['\\', 't']
  | '\n' => ['\\', 'n']
  | '\x0b' => ['\\', 'v']
  | '\x0c' => ['\\', 'f']
  | '\r' => ['\\', 'r']
  | '\x1b' => ['\\', 'e']
  | '"' => ['\\', '"']
  | '\\' => ['\\', '\\']
  | '\x85' => ['\\', 'N']
  | '\u2028' => ['\\', 'L']
  | '\u2029' => ['\\', 'P']
  | _ =>
      if c.toNat ≤ 0xFF then '\\' :: 'x' :: hexDigits 2 c.toNat
      else if c.toNat ≤ 0xFFFF then '\\' :: 'u' :: hexDigits 4 c.toNat
      else '\\' :: 'U' :: hexDigits 8 c.toNat

/-- A character in double quotes. -/
def doubleChar (c : Char) : List Char :=
  if !isPrintable c || isBreak c || c = '"' || c = '\\' then escaped c else [c]

/-- The lines of a text, each but the empty ones behind an indentation; `fresh` says whether the
text is at the start of a line. -/
def indented (indent : Nat) (fresh : Bool) : List Char → List Char
  | [] => []
  | c :: rest =>
      if isBreak c then c :: indented indent true rest
      else (if fresh then List.replicate indent ' ' else []) ++ c :: indented indent false rest

/-- The marks after the bar: the indentation if the text starts with a blank, and what becomes of
the line ends after the last line. -/
def literalMarks (text : List Char) : List Char :=
  let startsBlank := text.head?.any fun c => c = ' ' || isBreak c
  let ends := match text.reverse with
    | [] => ['-']
    | c :: before =>
        if !isBreak c then ['-']
        else match before with
          | [] => ['+']
          | d :: _ => if isBreak d then ['+'] else []
  (if startsBlank then ['2'] else []) ++ ends

/-- The text in single quotes.  A line end in it is followed by an indentation. -/
def singleQuoted (indent : Nat) (text : List Char) : List Char :=
  let body := indented indent false (text.flatMap fun c => if c = '\x27' then [c, c] else [c])
  let gap := if text.getLast?.any isBreak then List.replicate indent ' ' else []
  '\x27' :: body ++ gap ++ ['\x27']

/-- A text as a value whose further lines have an indentation. -/
def scalar (indent : Nat) (text : String) : List Char :=
  let cs := text.toList
  match styleOf cs with
  | .plain => cs
  | .single => singleQuoted indent cs
  | .double => '"' :: cs.flatMap doubleChar ++ ['"']
  | .literal => '|' :: literalMarks cs ++ '\n' :: indented indent true cs

end RoleAudit.Report.Yaml
