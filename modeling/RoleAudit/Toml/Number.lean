import RoleAudit.Markup.Quoted
import RoleAudit.Toml.DateTime

/-!
# Numbers in TOML

Whole numbers have 64 bits, and are written with ten digits or, after a mark,
with sixteen, eight or two.  Numbers with a point or an exponent are doubles, the
nearest to what is written.  Between two digits there may be an underscore.
-/

namespace RoleAudit.Toml

/-- Read digits with single underscores between, and leave the underscores out. -/
def digitRun (isDigit : Char → Bool) : List Char → List Char × List Char
  | [] => ([], [])
  | '_' :: c :: rest =>
      if isDigit c then
        let (digits, after) := digitRun isDigit rest
        (c :: digits, after)
      else ([], '_' :: c :: rest)
  | c :: rest =>
      if isDigit c then
        let (digits, after) := digitRun isDigit rest
        (c :: digits, after)
      else ([], c :: rest)

/-- Read one digit or more, the first of them without an underscore before it. -/
def digits (isDigit : Char → Bool) : List Char → Option (List Char × List Char)
  | [] => none
  | c :: rest => if isDigit c then some (digitRun isDigit (c :: rest)) else none

/-- The value of some digits. -/
def digitsValue (base : Nat) (ds : List Char) : Nat :=
  ds.foldl (fun n c => base * n + (Markup.Quoted.hexDigit? c).getD 0) 0

/-- Read a sign, if there is one: whether it is a minus. -/
def sign : List Char → Bool × List Char
  | '-' :: rest => (true, rest)
  | '+' :: rest => (false, rest)
  | rest => (false, rest)

/-- Read a whole number without its sign.  A zero stands alone. -/
def wholeDigits : List Char → Option (List Char × List Char)
  | '0' :: rest => some (['0'], rest)
  | text => digits Char.isDigit text

/-- A whole number that 64 bits hold. -/
def integer? (value : Int) : Option Value :=
  if -(Nat.pow 2 63 : Int) ≤ value ∧ value < Nat.pow 2 63 then some (.integer value) else none

/-- Whether a character is a hexadecimal digit. -/
def isHexDigit (c : Char) : Bool := (Markup.Quoted.hexDigit? c).isSome

/-- Read the digits of a whole number in another base. -/
def integerIn (base : Nat) (isDigit : Char → Bool) (text : List Char) :
    Option (Value × List Char) :=
  (digits isDigit text).bind fun read =>
    (integer? (digitsValue base read.1)).map fun value => (value, read.2)

/-- Read a whole number. -/
def integer : List Char → Option (Value × List Char)
  | '0' :: 'x' :: rest => integerIn 16 isHexDigit rest
  | '0' :: 'o' :: rest => integerIn 8 (fun c => '0' ≤ c && c ≤ '7') rest
  | '0' :: 'b' :: rest => integerIn 2 (fun c => c = '0' || c = '1') rest
  | text =>
      let (negative, rest) := sign text
      (wholeDigits rest).bind fun read =>
        let magnitude : Int := digitsValue 10 read.1
        (integer? (if negative then -magnitude else magnitude)).map fun value => (value, read.2)

/-- The double nearest to a decimal.  Decimals of too many places before the point are infinite,
and those of too many zeros after it are zero. -/
def decimal (ds : List Char) (exponent : Int) : Float :=
  let value := digitsValue 10 ds
  let place := (Nat.toDigits 10 value).length + exponent
  if value = 0 ∨ place < -330 then 0.0
  else if 310 < place then 1.0 / 0.0
  else if exponent < 0 then Float.ofScientific value true exponent.natAbs
  else Float.ofScientific value false exponent.natAbs

/-- Read a fraction after its point, if there is one. -/
def places : List Char → Option (Option (List Char) × List Char)
  | '.' :: rest => (digits Char.isDigit rest).map fun read => (some read.1, read.2)
  | rest => some (none, rest)

/-- Read an exponent after its letter, if there is one. -/
def exponent : List Char → Option (Option Int × List Char)
  | [] => some (none, [])
  | c :: rest =>
      if c = 'e' ∨ c = 'E' then
        let (negative, rest) := sign rest
        (digits Char.isDigit rest).map fun read =>
          let magnitude : Int := digitsValue 10 read.1
          (some (if negative then -magnitude else magnitude), read.2)
      else some (none, c :: rest)

/-- Read the number that a word stands for: infinity, or none. -/
def namedFloat : List Char → Option (Float × List Char)
  | 'i' :: 'n' :: 'f' :: rest => some (1.0 / 0.0, rest)
  | 'n' :: 'a' :: 'n' :: rest => some (0.0 / 0.0, rest)
  | _ => none

/-- Read a number with a point or an exponent, without its sign. -/
def decimalFloat (text : List Char) : Option (Float × List Char) := do
  let (whole, rest) ← wholeDigits text
  let (fraction, rest) ← places rest
  let (power, rest) ← exponent rest
  if fraction.isNone ∧ power.isNone then none
  else
    let fraction := fraction.getD []
    return (decimal (whole ++ fraction) (power.getD 0 - fraction.length), rest)

/-- Read a double.  What is written must not be too great for one, unless it is below zero. -/
def float (text : List Char) : Option (Value × List Char) :=
  let (negative, rest) := sign text
  match decimalFloat rest with
  | some (magnitude, rest) =>
      if magnitude.isInf ∧ !negative then none
      else some (.float (if negative then -magnitude else magnitude), rest)
  | none =>
      (namedFloat rest).map fun read => (.float (if negative then -read.1 else read.1), read.2)

/-- Read a number, a date or a time. -/
def numeral (text : List Char) : Option (Value × List Char) :=
  match dateTime text with
  | some (moment, rest) => some (.text (String.ofList moment.render), rest)
  | none =>
      match float text with
      | some read => some read
      | none => integer text

end RoleAudit.Toml
