/-!
Doubles as exact fractions. A finite double is a whole number of units of `2⁻¹⁰⁷⁴`, the gap between
the smallest ones; `units` counts them, and `nearest` goes the other way, rounding a fraction to the
closest double with a half going to the even significand.
-/
namespace Lox.Double

/-- How many units of the smallest positive double make one. -/
def unitsPerOne : Nat := Nat.pow 2 1074

/-- The bits of positive infinity: the finite magnitudes are the patterns below. -/
def infinityBits : Nat := 0x7FF0000000000000

def magnitude (x : Float) : Nat := x.toBits.toNat % Nat.pow 2 63

/-- The sign bit, which negative zero carries too. -/
def isNegative (x : Float) : Bool := Nat.pow 2 63 ≤ x.toBits.toNat

/-- The units in a finite magnitude of a binary format with `width` fraction bits: below the first
power of two the fraction alone, above it a hidden bit and a shift as well. -/
def units (width bits : Nat) : Nat :=
  let hidden := Nat.pow 2 width
  if bits < hidden then bits else (bits % hidden + hidden) * Nat.pow 2 (bits / hidden - 1)

/-- The quotient rounded to the nearest natural number, a half to the even neighbour. -/
def roundQuotient (num den : Nat) : Nat :=
  let quotient := num / den
  let twice := 2 * (num % den)
  if twice < den ∨ twice = den ∧ quotient % 2 = 0 then quotient else quotient + 1

/-- The magnitude nearest to a fraction. The shift leaves 53 bits of the count of units; a count that
rounds up to a power of two carries into the exponent, since patterns are ordered as their values. -/
def nearestBits (num den : Nat) : Nat :=
  let scaled := num * unitsPerOne
  let shift := (scaled / den).log2 - 52
  min infinityBits (shift * Nat.pow 2 52 + roundQuotient scaled (den * Nat.pow 2 shift))

def nearest (num den : Nat) : Float := Float.ofBits (nearestBits num den).toUInt64

def withSign (negative : Bool) (x : Float) : Float := if negative then -x else x

def ofInt (n : Int) : Float := withSign (n < 0) (nearest n.natAbs 1)

/-- A number in single precision, given by its bits, as a double; every finite one is exact. -/
def ofSingleBits (bits : UInt32) : Float :=
  let magnitude := bits.toNat % Nat.pow 2 31
  withSign (Nat.pow 2 31 ≤ bits.toNat) <|
    if magnitude < 0x7F800000 then nearest (units 23 magnitude) (Nat.pow 2 149)
    else if magnitude = 0x7F800000 then Float.ofBits infinityBits.toUInt64
    else 0 / 0

end Lox.Double
