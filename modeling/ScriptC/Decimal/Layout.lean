import ScriptC.Decimal

/-! # Decimal text of doubles

The shortest digits of a number are written positionally while the exponent of the leading
digit lies in a window, and with an exponent outside it.
-/

namespace ScriptC

/-- What one format decides about the text of a number. -/
structure NumberLayout where
  tie : Tie
  /-- Least exponent of the leading digit that is written positionally. -/
  plainFrom : Int
  /-- First exponent of the leading digit that is no longer written positionally. -/
  plainBelow : Int
  /-- Text between the digits and a non-negative exponent. -/
  mark : String
deriving Repr

namespace NumberLayout

/-- Numbers in listings and generated code: `1e16`, `1e-5`, `0.0001`, `1.0`. -/
def listing : NumberLayout where
  tie := .up
  plainFrom := -4
  plainBelow := 16
  mark := "e"

/-- Numbers in serialised trees: `1e+16`, `1e-6`, `0.00001`, `1.0`. -/
def serialised : NumberLayout where
  tie := .toEven
  plainFrom := -5
  plainBelow := 16
  mark := "e+"

def zeros (n : Nat) : List Char := List.replicate n '0'

/-- Digits with the point after the first `point` of them, and at least one on each side. -/
def positional (digits : List Char) (point : Int) : List Char :=
  if point ≤ 0 then '0' :: '.' :: (zeros (-point).toNat ++ digits)
  else
    let n := point.toNat
    if digits.length ≤ n then digits ++ zeros (n - digits.length) ++ ['.', '0']
    else digits.take n ++ '.' :: digits.drop n

/-- The leading digit, the rest after a point, and the exponent of the leading digit. -/
def scientific (l : NumberLayout) (digits : List Char) (e : Int) : List Char :=
  let mantissa := match digits with
    | [] => []
    | [d] => [d]
    | d :: ds => d :: '.' :: ds
  let power := if e < 0 then ("e-" ++ toString e.natAbs).toList else (l.mark ++ toString e.natAbs).toList
  mantissa ++ power

/-- The text of a finite number without its sign. -/
def unsigned (l : NumberLayout) (x : Binary64) : List Char :=
  if x.magnitude = 0 then ['0', '.', '0']
  else
    let d := x.shortest l.tie
    let digits := Nat.toDigits 10 d.digits
    let e := d.exponent + digits.length - 1
    if l.plainFrom ≤ e ∧ e < l.plainBelow then positional digits (e + 1)
    else l.scientific digits e

/-- The text of a finite number. -/
def render (l : NumberLayout) (x : Binary64) : String :=
  String.ofList (if x.isNegative then '-' :: l.unsigned x else l.unsigned x)

end NumberLayout

namespace Binary64

/-- A number as a listing shows it. -/
def listed (x : Binary64) : String :=
  if x.isNaN then "NaN"
  else if x.isInfinite then (if x.isNegative then "-inf" else "inf")
  else NumberLayout.listing.render x

end Binary64

end ScriptC
