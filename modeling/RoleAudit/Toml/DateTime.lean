import RoleAudit.Toml.Value

/-!
# Dates and times in TOML

A date, a time, or both with an offset that may follow.  `DateTime.render` writes
them in one fixed way: the letter `T` between date and time, no zeros at the end
of a fraction of a second, and no more than nine places of it.
-/

namespace RoleAudit.Toml

/-- A day of the calendar. -/
structure Date where
  year : Nat
  month : Nat
  day : Nat
  deriving DecidableEq, Repr

/-- A time of the day, with the digits of a fraction of a second. -/
structure Time where
  hour : Nat
  minute : Nat
  second : Nat
  fraction : List Char
  deriving DecidableEq, Repr

/-- How far the time of a place is ahead of the universal time. -/
inductive Offset where
  | none
  | universal
  /-- A number of minutes. -/
  | ahead (minutes : Int)
  deriving DecidableEq, Repr

/-- A date, a time, or both. -/
inductive DateTime where
  | date (date : Date)
  | time (time : Time)
  | both (date : Date) (time : Time) (offset : Offset)
  deriving DecidableEq, Repr

/-- The number of days in a month. -/
def daysIn (year month : Nat) : Nat :=
  if month = 2 then
    if year % 4 = 0 ∧ (year % 100 ≠ 0 ∨ year % 400 = 0) then 29 else 28
  else if month = 4 ∨ month = 6 ∨ month = 9 ∨ month = 11 then 30
  else 31

/-! ## Reading -/

/-- Read a number of so many digits that lies between two bounds. -/
def fixedDigits (count least greatest : Nat) (text : List Char) : Option (Nat × List Char) :=
  let digits := text.take count
  let value := digits.foldl (fun n c => 10 * n + (c.toNat - '0'.toNat)) 0
  if digits.length = count ∧ digits.all Char.isDigit ∧ least ≤ value ∧ value ≤ greatest then
    some (value, text.drop count)
  else none

/-- The text after a mark at its front. -/
def expect (mark : Char) : List Char → Option (List Char)
  | [] => none
  | c :: rest => if c = mark then some rest else none

/-- Read a date. -/
def date (text : List Char) : Option (Date × List Char) := do
  let (year, rest) ← fixedDigits 4 0 9999 text
  let rest ← expect '-' rest
  let (month, rest) ← fixedDigits 2 1 12 rest
  let rest ← expect '-' rest
  let (day, rest) ← fixedDigits 2 1 (daysIn year month) rest
  return (⟨year, month, day⟩, rest)

/-- The places of a fraction of a second that count. -/
def maxPlaces : Nat := 9

/-- Read a fraction of a second, if there is one. -/
def fraction (text : List Char) : Option (List Char × List Char) :=
  match text with
  | '.' :: rest =>
      let digits := rest.takeWhile Char.isDigit
      if digits = [] then none
      else
        let kept := ((digits.take maxPlaces).reverse.dropWhile (· = '0')).reverse
        some (kept, rest.dropWhile Char.isDigit)
  | _ => some ([], text)

/-- Read a time. -/
def time (text : List Char) : Option (Time × List Char) := do
  let (hour, rest) ← fixedDigits 2 0 23 text
  let rest ← expect ':' rest
  let (minute, rest) ← fixedDigits 2 0 59 rest
  let rest ← expect ':' rest
  let (second, rest) ← fixedDigits 2 0 60 rest
  let (places, rest) ← fraction rest
  return (⟨hour, minute, second, places⟩, rest)

/-- Read the hours and minutes of an offset. -/
def offsetMinutes (text : List Char) : Option (Nat × List Char) := do
  let (hours, rest) ← fixedDigits 2 0 23 text
  let rest ← expect ':' rest
  let (minutes, rest) ← fixedDigits 2 0 59 rest
  return (60 * hours + minutes, rest)

/-- Read an offset, if there is one. -/
def offset : List Char → Option (Offset × List Char)
  | 'Z' :: rest => some (.universal, rest)
  | 'z' :: rest => some (.universal, rest)
  | '+' :: rest => (offsetMinutes rest).map fun read => (.ahead read.1, read.2)
  | '-' :: rest => (offsetMinutes rest).map fun read => (.ahead (-(read.1 : Int)), read.2)
  | rest => some (.none, rest)

/-- Read what follows a date. -/
def afterDate (day : Date) : List Char → Option (DateTime × List Char)
  | [] => some (.date day, [])
  | c :: rest =>
      if c = 'T' ∨ c = 't' ∨ c = ' ' then
        match time rest with
        | none => some (.date day, c :: rest)
        | some (moment, rest) =>
            (offset rest).map fun read => (.both day moment read.1, read.2)
      else some (.date day, c :: rest)

/-- Read a date, a time, or both. -/
def dateTime (text : List Char) : Option (DateTime × List Char) :=
  match date text with
  | some (day, rest) => afterDate day rest
  | none => (time text).map fun read => (.time read.1, read.2)

/-! ## Writing -/

/-- A number with zeros before it, to so many digits. -/
def padded (count value : Nat) : List Char :=
  let digits := Nat.toDigits 10 value
  List.replicate (count - digits.length) '0' ++ digits

/-- The text of a date. -/
def Date.render (d : Date) : List Char :=
  padded 4 d.year ++ '-' :: padded 2 d.month ++ '-' :: padded 2 d.day

/-- The text of a time. -/
def Time.render (t : Time) : List Char :=
  padded 2 t.hour ++ ':' :: padded 2 t.minute ++ ':' :: padded 2 t.second ++
    (if t.fraction = [] then [] else '.' :: t.fraction)

/-- The text of an offset. -/
def Offset.render : Offset → List Char
  | none => []
  | universal => ['Z']
  | ahead minutes =>
      (if minutes < 0 then '-' else '+') :: padded 2 (minutes.natAbs / 60) ++
        ':' :: padded 2 (minutes.natAbs % 60)

/-- The text of a date, a time, or both. -/
def DateTime.render : DateTime → List Char
  | date day => day.render
  | time moment => moment.render
  | both day moment offset => day.render ++ 'T' :: moment.render ++ offset.render

end RoleAudit.Toml
