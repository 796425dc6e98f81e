import Lox.Decimal.Shortest

/-!
# Texts of numbers

A number is written in several places, each with its own layout: when it is printed, in the text of
a syntax tree, behind a number token, and in JSON. Whole numbers are mostly written with all their
digits; every other number is written as its shortest decimal.
-/

namespace Lox

namespace Decimal.Scaled

/-- The number without an exponent, padded with zeros on either side as needed. -/
def positional (d : Scaled) : String :=
  let text := Nat.repr d.digits
  let places := (-d.exponent).toNat
  if places = 0 then
    text ++ "".pushn '0' d.exponent.toNat
  else if places < text.length then
    let (whole, fraction) := text.toList.splitAt (text.length - places)
    String.ofList whole ++ "." ++ String.ofList fraction
  else
    "0." ++ "".pushn '0' (places - text.length) ++ text

/-- The number as one digit before the point and an exponent that always has a sign. -/
def scientific (d : Scaled) : String :=
  let text := Nat.repr d.digits
  let exponent := d.exponent + text.length - 1
  let mark := if exponent < 0 then "e-" else "e+"
  let power := mark ++ Nat.repr exponent.natAbs
  match text.toList with
  | lead :: next :: more => String.ofList (lead :: '.' :: next :: more) ++ power
  | _ => text ++ power

/-- The decimal point stands this many digits to the right of the first digit's left side. -/
def pointAfter (d : Scaled) : Int :=
  d.exponent + (Nat.repr d.digits).length

end Decimal.Scaled

namespace Number

open Decimal

/-- The sign of a text. -/
def sign (negative : Bool) : String :=
  if negative then "-" else ""

/-- The shortest decimal of a magnitude, without an exponent; a tie goes up. -/
def shortestSize (size : Magnitude) : String :=
  (size.shortest .up).positional

/-- The text of a number, given the text of its size when it is finite. -/
def textWith (finite : Bool → Magnitude → String) (x : Float) : String :=
  match Parts.ofFloat x with
  | .nan => "NaN"
  | .infinite negative => sign negative ++ "inf"
  | .finite negative size => finite negative size

/-- The text of a number that is printed: a whole number with all its digits, `-0` for the negative
zero, and any other number as its shortest decimal. -/
def display (x : Float) : String :=
  textWith (fun negative size =>
    sign negative ++ (match size.toNat? with
      | some n => Nat.repr n
      | none => shortestSize size)) x

/-- The text of a number in a syntax tree: as when it is printed, a whole number followed by `.0`. -/
def treeText (x : Float) : String :=
  textWith (fun negative size =>
    sign negative ++ (match size.toNat? with
      | some n => Nat.repr n ++ ".0"
      | none => shortestSize size)) x

/-- The text of a number behind its token: a whole number below `2 ^ 63` as an integer, which has
no negative zero, followed by `.0`, and any other number as its shortest decimal. -/
def tokenText (x : Float) : String :=
  textWith (fun negative size =>
    match size.toNat? with
    | some n =>
        if n < Nat.pow 2 63 then sign (negative && n != 0) ++ Nat.repr n ++ ".0"
        else sign negative ++ shortestSize size
    | none => sign negative ++ shortestSize size) x

/-- The JSON text of a magnitude: its shortest decimal, a tie going to the even digit. It has no
exponent while the point stands at most 16 digits to the right of the first digit or at most 4 zeros
to the left of it, and always a point when it has no exponent. -/
def jsonSize (size : Magnitude) : String :=
  let d := size.shortest .toEven
  let point := d.pointAfter
  if d.digits = 0 then "0.0"
  else if 0 < point && point ≤ 16 then
    if d.exponent < 0 then d.positional else d.positional ++ ".0"
  else if -5 < point && point ≤ 0 then d.positional
  else d.scientific

/-- The JSON text of a number, which is `null` where JSON has no such number. -/
def json (x : Float) : String :=
  match Parts.ofFloat x with
  | .nan => "null"
  | .infinite _ => "null"
  | .finite negative size => sign negative ++ jsonSize size

end Number

end Lox
