import ScriptC.Binary64

/-! # Decimals and the numbers they stand for

A decimal is read as the nearest double. In the other direction `Binary64.shortest` selects
the decimal with the fewest digits that reads back, the closest one among those.
-/

namespace ScriptC

/-- The non-negative number `digits * 10 ^ exponent`. -/
structure Decimal where
  digits : Nat
  exponent : Int
deriving DecidableEq, Repr, Inhabited

namespace Decimal

/-- Trailing zeros moved into the exponent. -/
def normalize (d : Decimal) : Decimal :=
  if d.digits ≠ 0 ∧ d.digits % 10 = 0 then normalize ⟨d.digits / 10, d.exponent + 1⟩ else d
termination_by d.digits
decreasing_by omega

/-- The nearest double. Beyond `10 ^ 400` nothing is finite, and below `10 ^ (-400)` all
rounds to zero, so the powers of ten that are formed stay small. -/
def toBinary64? (negative : Bool) (d : Decimal) : Option Binary64 :=
  if d.digits = 0 then some (.pack negative 0)
  else if 400 < d.exponent then none
  else if d.exponent + d.digits.log2 + 1 < -400 then some (.pack negative 0)
  else Binary64.ofRatio? negative (d.digits * Nat.pow 10 d.exponent.toNat * Nat.pow 2 1074)
    (Nat.pow 10 (-d.exponent).toNat)

end Decimal

/-- Which of two equally close decimals is chosen. -/
inductive Tie where
  | toEven
  | up
deriving DecidableEq, Repr

namespace Binary64

/-- The exact value of a finite number without its sign. -/
def exact (x : Binary64) : Decimal := ⟨Nat.pow 5 1074 * x.magnitude, -1074⟩

/-- Reading `d` gives `x` without its sign. -/
def readsBack (x : Binary64) (d : Decimal) : Bool :=
  d.toBinary64? false == some (.pack false (x.word % Nat.pow 2 63))

/-- The better of the two neighbours of `x` on the decimal grid `10 ^ places` units wide, where
`places` counts from the last digit of the exact value, if one of them reads back. -/
def onGrid? (tie : Tie) (x : Binary64) (places : Nat) : Option Decimal :=
  let e := x.exact
  let width := Nat.pow 10 places
  let below : Decimal := ⟨e.digits / width, e.exponent + places⟩
  let above : Decimal := ⟨below.digits + 1, below.exponent⟩
  match x.readsBack below, x.readsBack above with
  | false, false => none
  | true, false => some below
  | false, true => some above
  | true, true =>
    let r := 2 * (e.digits % width)
    if r < width then some below
    else if width < r then some above
    else match tie with
      | .up => some above
      | .toEven => if below.digits % 2 = 0 then some below else some above

/-- The decimal with the fewest digits that reads back as the non-zero finite number `x`. -/
def shortest (tie : Tie) (x : Binary64) : Decimal :=
  let width := (Nat.toDigits 10 x.exact.digits).length
  (((List.range 17).findSome? fun n => x.onGrid? tie (width - (n + 1))).getD x.exact).normalize

end Binary64

end ScriptC
