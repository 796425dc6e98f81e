/-!
# Doubles as exact numbers

A double is not a number, an infinity, or a sign with a magnitude `significand * 2 ^ exponent`. All
texts of numbers are computed from this exact form, in natural numbers.
-/

namespace Lox.Decimal

/-- The size of a finite double, `significand * 2 ^ exponent`. -/
structure Magnitude where
  significand : Nat
  exponent : Int
  /-- The gap to the double below is half the gap to the double above. -/
  narrowBelow : Bool
  deriving DecidableEq, Repr

/-- A double taken apart. -/
inductive Parts
  | nan
  | infinite (negative : Bool)
  | finite (negative : Bool) (size : Magnitude)

/-- Take apart the 64 bits of a double. -/
def Parts.ofBits (bits : UInt64) : Parts :=
  let negative := bits >>> 63 == 1
  let biased := ((bits >>> 52) &&& 0x7FF).toNat
  let fraction := (bits &&& 0xFFFFFFFFFFFFF).toNat
  if biased = 0x7FF then
    if fraction = 0 then .infinite negative else .nan
  else if biased = 0 then
    .finite negative ⟨fraction, -1074, false⟩
  else
    .finite negative ⟨Nat.pow 2 52 + fraction, (biased : Int) - 1075, fraction == 0 && 1 < biased⟩

/-- Take apart a double. -/
def Parts.ofFloat (x : Float) : Parts :=
  .ofBits x.toBits

namespace Magnitude

/-- The numerator of the magnitude over `denominator`. -/
def numerator (m : Magnitude) : Nat :=
  m.significand * Nat.pow 2 m.exponent.toNat

/-- A power of two that makes the magnitude a quotient of naturals. -/
def denominator (m : Magnitude) : Nat :=
  Nat.pow 2 (-m.exponent).toNat

/-- The magnitude as a natural number, if it is one. -/
def toNat? (m : Magnitude) : Option Nat :=
  if m.numerator % m.denominator = 0 then some (m.numerator / m.denominator) else none

end Magnitude

end Lox.Decimal
