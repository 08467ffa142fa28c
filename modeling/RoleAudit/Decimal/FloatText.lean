import RoleAudit.Decimal.Shortest

/-!
# Floating-point numbers as text

How the shortest decimal of a double is laid out: with all its places written,
or with a power of ten after its first digit.
-/

namespace RoleAudit.Decimal

/-- A layout for doubles. -/
structure FloatStyle where
  /-- Whether a whole number ends in a point and a zero. -/
  wholeWithPoint : Bool
  /-- The least and the greatest place of the first digit, counted from one before the point, for
  which all places are written.  Without bounds they always are. -/
  positional : Option (Int × Int)

/-- All places are written, and a whole number has no point. -/
def FloatStyle.plain : FloatStyle := ⟨false, none⟩

/-- A whole number keeps its point, and numbers that take more than sixteen places before the
point or more than four zeros after it have a power of ten. -/
def FloatStyle.compact : FloatStyle := ⟨true, some (-4, 16)⟩

/-- A number of zeros. -/
def zeros (count : Nat) : List Char :=
  List.replicate count '0'

/-- The text of a positive decimal, with every place written. -/
def positionalText (wholeWithPoint : Bool) (digits : List Char) (exponent : Int) : List Char :=
  let place := (digits.length : Int) + exponent
  if 0 ≤ exponent then
    digits ++ zeros exponent.toNat ++ (if wholeWithPoint then ['.', '0'] else [])
  else if 0 < place then digits.take place.toNat ++ '.' :: digits.drop place.toNat
  else '0' :: '.' :: zeros (-place).toNat ++ digits

/-- The text of a positive decimal, with a power of ten. -/
def scientificText (digits : List Char) (exponent : Int) : List Char :=
  let power := (toString ((digits.length : Int) + exponent - 1)).toList
  match digits with
  | [] => []
  | [first] => first :: 'e' :: power
  | first :: others => first :: '.' :: others ++ 'e' :: power

/-- The text of a positive decimal. -/
def Scientific.render (style : FloatStyle) (d : Scientific) : List Char :=
  let digits := Nat.toDigits 10 d.digits
  let place := (digits.length : Int) + d.exponent
  let inBounds := match style.positional with
    | none => true
    | some (least, greatest) => least ≤ place && place ≤ greatest
  if inBounds then positionalText style.wholeWithPoint digits d.exponent
  else scientificText digits d.exponent

/-- The text of a double taken apart. -/
def Parts.render (style : FloatStyle) : Parts → List Char
  | .notANumber => ['N', 'a', 'N']
  | .infinite negative => (if negative then ['-'] else []) ++ ['i', 'n', 'f']
  | .finite negative mantissa exponent =>
      (if negative then ['-'] else []) ++
        if mantissa = 0 then '0' :: (if style.wholeWithPoint then ['.', '0'] else [])
        else (shortest mantissa exponent).render style

/-- The text of a double. -/
def floatText (style : FloatStyle) (value : Float) : String :=
  String.ofList ((Parts.ofBits value.toBits).render style)

end RoleAudit.Decimal
