/-!
# Shortest decimals

A binary floating-point number stands for the interval of reals that round to
it.  Its shortest decimal is the number in that interval with the fewest digits,
and among those the one nearest to it.

All arithmetic is exact.  A finite double is `mantissa · 2 ^ exponent`; on the
grid of the multiples of a power of ten, only the two neighbours of the number
need to be tried, because if any point of the grid lies in the interval, one of
them does.
-/

namespace RoleAudit.Decimal

/-- A double taken apart: the finite ones are `mantissa · 2 ^ exponent`, with a sign. -/
inductive Parts where
  | finite (negative : Bool) (mantissa : Nat) (exponent : Int)
  | infinite (negative : Bool)
  | notANumber
  deriving DecidableEq, Repr

/-- Take the bits of a double apart. -/
def Parts.ofBits (bits : UInt64) : Parts :=
  let n := bits.toNat
  let negative := n / Nat.pow 2 63 = 1
  let biased : Nat := n / Nat.pow 2 52 % Nat.pow 2 11
  let fraction : Nat := n % Nat.pow 2 52
  if biased = 2047 then
    if fraction = 0 then .infinite negative else .notANumber
  else if biased = 0 then .finite negative fraction (-1074)
  else .finite negative (Nat.pow 2 52 + fraction) ((biased : Int) - 1075)

/-- A positive decimal: `digits · 10 ^ exponent`. -/
structure Scientific where
  digits : Nat
  exponent : Int
  deriving DecidableEq, Repr

/-- The power of a base with an exponent of either sign, as a fraction. -/
def power (base : Nat) (exponent : Int) : Nat × Nat :=
  if 0 ≤ exponent then (base.pow exponent.toNat, 1) else (1, base.pow (-exponent).toNat)

/-- The reals that round to a number, as multiples of one fraction: the number, the two ends, and
whether the ends belong to it. -/
structure Interval where
  value : Nat
  low : Nat
  high : Nat
  closed : Bool
  /-- The unit, as a fraction. -/
  unit : Nat × Nat

/-- The interval of a finite double.  Below a power of two the next double is half as far. -/
def Interval.ofParts (mantissa : Nat) (exponent : Int) : Interval :=
  let narrow := mantissa = Nat.pow 2 52 ∧ -1074 < exponent
  { value := 4 * mantissa
    low := if narrow then 4 * mantissa - 1 else 4 * mantissa - 2
    high := 4 * mantissa + 2
    closed := mantissa % 2 = 0
    unit := power 2 (exponent - 2) }

/-- Whether `digits · step` lies in an interval. -/
def Interval.holds (i : Interval) (step : Nat × Nat) (digits : Nat) : Bool :=
  let point := digits * step.1 * i.unit.2
  let low := i.low * i.unit.1 * step.2
  let high := i.high * i.unit.1 * step.2
  if i.closed then low ≤ point && point ≤ high else low < point && point < high

/-- The point of a grid that lies in an interval and nearest to its number.  Of two equally near
points the one with an even last digit counts. -/
def Interval.nearest? (i : Interval) (step : Nat × Nat) : Option Nat :=
  let numerator := i.value * i.unit.1 * step.2
  let denominator := i.unit.2 * step.1
  let below := numerator / denominator
  let rest := 2 * (numerator % denominator)
  let preferAbove := denominator < rest || (rest = denominator && below % 2 = 1)
  let first := if preferAbove then below + 1 else below
  let second := if preferAbove then below else below + 1
  if i.holds step first && first ≠ 0 then some first
  else if i.holds step second && second ≠ 0 then some second
  else none

/-- The place of the first digit of a fraction: the greatest `e` for which `10 ^ e` does not
exceed it. -/
def leading (numerator denominator : Nat) : Int :=
  let guess : Int := (Nat.toDigits 10 numerator).length - (Nat.toDigits 10 denominator).length
  let step := power 10 guess
  if step.1 * denominator ≤ numerator * step.2 then guess else guess - 1

/-- The decimal of an interval with the fewest digits from `count` on, trying `fuel` counts. -/
def Interval.search (i : Interval) (lead : Int) (count : Nat) : Nat → Scientific
  | 0 => ⟨i.value, 0⟩
  | fuel + 1 =>
      let exponent := lead - count + 1
      match i.nearest? (power 10 exponent) with
      | some digits => ⟨digits, exponent⟩
      | none => i.search lead (count + 1) fuel

/-- A decimal without zeros at its end.  At most `fuel` zeros go. -/
def Scientific.stripZeros (d : Scientific) : Nat → Scientific
  | 0 => d
  | fuel + 1 =>
      if d.digits % 10 = 0 then stripZeros ⟨d.digits / 10, d.exponent + 1⟩ fuel else d

/-- The shortest decimal of a positive finite double. -/
def shortest (mantissa : Nat) (exponent : Int) : Scientific :=
  let i := Interval.ofParts mantissa exponent
  let lead := leading (i.value * i.unit.1) i.unit.2
  (i.search lead 1 17).stripZeros 17

end RoleAudit.Decimal
