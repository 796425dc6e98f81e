import Lox.Decimal.Binary

/-!
# Shortest decimals

The decimal with the fewest digits that reads back as a given double, and among those the nearest
to it. The reals that read back form an interval around the double, which includes its ends exactly
when the significand is even. On each decimal grid only the two neighbours of the double matter.
-/

namespace Lox.Decimal

/-- The number `digits * 10 ^ exponent`. -/
structure Scaled where
  digits : Nat
  exponent : Int
  deriving DecidableEq, Repr

/-- Which of two shortest decimals at the same distance is taken. -/
inductive Tie
  | up
  | toEven
  deriving DecidableEq, Repr

/-- `a * 10 ^ e` compared with `b * 2 ^ q`, exactly. -/
def compareScaled (a : Nat) (e : Int) (b : Nat) (q : Int) : Ordering :=
  compare (a * Nat.pow 10 e.toNat * Nat.pow 2 (-q).toNat)
    (b * Nat.pow 2 q.toNat * Nat.pow 10 (-e).toNat)

/-- The number without the zeros that end its digits. -/
def Scaled.trim (d : Scaled) : Scaled :=
  if d.digits ≠ 0 ∧ d.digits % 10 = 0 then Scaled.trim ⟨d.digits / 10, d.exponent + 1⟩ else d
termination_by d.digits
decreasing_by omega

namespace Magnitude

/-- The least `k` such that a positive magnitude is below `10 ^ k`. Below one it is no power of
ten, being an odd number over a power of two or that power's reciprocal, so the length of the
rounded-down reciprocal decides. -/
def place (m : Magnitude) : Int :=
  if m.denominator ≤ m.numerator then
    (Nat.toDigits 10 (m.numerator / m.denominator)).length
  else
    1 - (Nat.toDigits 10 (m.denominator / m.numerator)).length

/-- The decimal is one of the reals that round to the magnitude. -/
def readsBack (m : Magnitude) (d : Scaled) : Bool :=
  let low := 4 * m.significand - (if m.narrowBelow then 1 else 2)
  let high := 4 * m.significand + 2
  let closed := m.significand % 2 == 0
  let fromLow := compareScaled d.digits d.exponent low (m.exponent - 2)
  let fromHigh := compareScaled d.digits d.exponent high (m.exponent - 2)
  (fromLow == .gt || closed && fromLow == .eq) && (fromHigh == .lt || closed && fromHigh == .eq)

/-- The largest multiple of `10 ^ e` that is not above the magnitude, as a count of that grid. -/
def floorAt (m : Magnitude) (e : Int) : Nat :=
  m.numerator * Nat.pow 10 (-e).toNat / (m.denominator * Nat.pow 10 e.toNat)

/-- Of the grid points `d` and `d + 1` on either side of the magnitude, the one that is nearer. -/
def nearer (m : Magnitude) (tie : Tie) (d : Nat) (e : Int) : Nat :=
  match compareScaled (2 * d + 1) e (2 * m.significand) m.exponent, tie with
  | .gt, _ => d
  | .lt, _ => d + 1
  | .eq, .up => d + 1
  | .eq, .toEven => if d % 2 = 0 then d else d + 1

/-- The decimal on the grid of `10 ^ e` that reads back as the magnitude, if there is one. -/
def onGrid? (m : Magnitude) (tie : Tie) (e : Int) : Option Scaled :=
  let d := m.floorAt e
  match m.readsBack ⟨d, e⟩, m.readsBack ⟨d + 1, e⟩ with
  | true, true => some ⟨m.nearer tie d e, e⟩
  | true, false => some ⟨d, e⟩
  | false, true => some ⟨d + 1, e⟩
  | false, false => none

/-- All digits of the magnitude. -/
def exact (m : Magnitude) : Scaled :=
  ⟨m.numerator * Nat.pow 5 (-m.exponent).toNat, min m.exponent 0⟩

/-- The shortest decimal that reads back as the magnitude. Seventeen digits are enough for every
double; all digits would be the answer if they were not. -/
def shortest (m : Magnitude) (tie : Tie) : Scaled :=
  if m.significand = 0 then ⟨0, 0⟩
  else
    let k := m.place
    (((List.range 17).findSome? fun (n : Nat) => m.onGrid? tie (k - (n + 1))).getD m.exact).trim

end Magnitude

end Lox.Decimal
