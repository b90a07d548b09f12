import Lox.Number.Double

/-!
Numbers as decimal text. `read` rounds a numeral to the nearest double. `text` writes a double in
positional notation with the fewest digits that read back to it; of two such numerals it takes the
nearer, and of two equally near the larger.
-/
namespace Lox

/-- The decimal `coefficient / 10 ^ places`. -/
structure Decimal where
  coefficient : Nat
  places : Nat
deriving DecidableEq, Repr

namespace Decimal

def nearestBits (d : Decimal) : Nat := Double.nearestBits d.coefficient (Nat.pow 10 d.places)

/-- `coefficient * 10 ^ (scale - base)`. -/
def scaled (coefficient scale base : Nat) : Decimal :=
  ⟨coefficient * Nat.pow 10 (scale - base), base - scale⟩

def trimmed : Nat → Nat → Decimal
  | c, 0 => ⟨c, 0⟩
  | c, k + 1 => if c % 10 = 0 then trimmed (c / 10) k else ⟨c, k + 1⟩

def trim (d : Decimal) : Decimal := trimmed d.coefficient d.places

def ofDigits (digits : List Char) : Nat :=
  digits.foldl (fun n c => 10 * n + (c.toNat - '0'.toNat)) 0

def ofNumeral (numeral : List Char) : Decimal :=
  let fraction := (numeral.dropWhile (· != '.')).drop 1
  ⟨ofDigits (numeral.takeWhile (· != '.') ++ fraction), fraction.length⟩

def read (numeral : List Char) : Float := Float.ofBits (ofNumeral numeral).nearestBits.toUInt64

/-- A decimal in positional notation, with at least one digit before the point. -/
def numeral (d : Decimal) : List Char :=
  let digits := Nat.toDigits 10 d.coefficient
  if d.places = 0 then digits
  else
    let padded := List.replicate (d.places + 1 - digits.length) '0' ++ digits
    padded.take (padded.length - d.places) ++ '.' :: padded.drop (padded.length - d.places)

/-- A scale at which the smallest positive double has 18 digits before the point. -/
def finestPlaces : Nat := 341

/-- The decimal of `digits` significant digits that reads back to a magnitude, if there is one: the
one just below or the one just above the exact value, and when both do, the nearer. -/
def withDigits? (bits digits : Nat) : Option Decimal :=
  let exact := Double.units 52 bits * Nat.pow 10 finestPlaces
  let floor := exact / Double.unitsPerOne
  let scale := (Nat.toDigits 10 floor).length - digits
  let coefficient := floor / Nat.pow 10 scale
  let below := scaled coefficient scale finestPlaces
  let above := scaled (coefficient + 1) scale finestPlaces
  let belowIsNearer := 2 * exact < (2 * coefficient + 1) * Nat.pow 10 scale * Double.unitsPerOne
  match decide (below.nearestBits = bits), decide (above.nearestBits = bits) with
  | true, true => some (if belowIsNearer then below else above)
  | true, false => some below
  | false, true => some above
  | false, false => none

def exactly (bits : Nat) : Decimal := ⟨Double.units 52 bits * Nat.pow 5 1074, 1074⟩

/-- The shortest decimal that reads back to a finite magnitude. Seventeen digits tell all doubles
apart, so the search ends before its last resort, the exact value. -/
def shortest (bits : Nat) : Decimal :=
  (((List.range' 1 17).findSome? (withDigits? bits)).getD (exactly bits)).trim

/-- The text of a double: no exponent, and no point in a whole number. -/
def text (x : Float) : String :=
  if x.isNaN then "NaN"
  else
    let bits := Double.magnitude x
    let digits := if bits = Double.infinityBits then "inf" else String.ofList (shortest bits).numeral
    if Double.isNegative x then "-" ++ digits else digits

end Decimal

end Lox
