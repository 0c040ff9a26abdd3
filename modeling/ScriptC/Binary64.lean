/-! # Double-precision numbers

A number is its IEEE-754 bit pattern. Magnitudes are measured in the smallest positive
unit, `2 ^ (-1074)`, so that every finite number is a natural number of units and
rounding is arithmetic on naturals.
-/

namespace ScriptC

structure Binary64 where
  bits : UInt64
deriving DecidableEq, Repr, Inhabited

namespace Binary64

def word (x : Binary64) : Nat := x.bits.toNat

def isNegative (x : Binary64) : Bool := decide (Nat.pow 2 63 ≤ x.word)

def exponentField (x : Binary64) : Nat := x.word / Nat.pow 2 52 % Nat.pow 2 11

def fraction (x : Binary64) : Nat := x.word % Nat.pow 2 52

def isFinite (x : Binary64) : Bool := x.exponentField != 2047

def isNaN (x : Binary64) : Bool := !x.isFinite && x.fraction != 0

def isInfinite (x : Binary64) : Bool := !x.isFinite && x.fraction == 0

/-- The absolute value of a finite number, in units of `2 ^ (-1074)`. -/
def magnitude (x : Binary64) : Nat :=
  if x.exponentField = 0 then x.fraction
  else (Nat.pow 2 52 + x.fraction) * Nat.pow 2 (x.exponentField - 1)

/-- The word with the given sign bit over the 63 low bits `w`. -/
def pack (negative : Bool) (w : Nat) : Binary64 :=
  ⟨UInt64.ofNat ((if negative then Nat.pow 2 63 else 0) + w)⟩

/-- The quotient rounded to the nearest natural number, an exact half to the even one. -/
def roundHalfEven (n d : Nat) : Nat :=
  let q := n / d
  let r := n % d
  if 2 * r < d then q
  else if 2 * r = d then q + q % 2
  else q + 1

/-- The low bits of the number nearest to `n / d` units, with no bound on the exponent. A
significand that rounds up to `2 ^ 53` carries into the exponent field by itself. -/
def roundWord (n d : Nat) : Nat :=
  let p := (n / d).log2 - 52
  p * Nat.pow 2 52 + roundHalfEven n (d * Nat.pow 2 p)

/-- The number nearest to `n / d` units, unless it lies beyond the largest finite one. -/
def ofRatio? (negative : Bool) (n d : Nat) : Option Binary64 :=
  let w := roundWord n d
  if w < 2047 * Nat.pow 2 52 then some (pack negative w) else none

/-- The number nearest to an integer of at most 64 bits. -/
def ofInt (n : Int) : Binary64 :=
  pack (decide (n < 0)) (roundWord (n.natAbs * Nat.pow 2 1074) 1)

end Binary64

end ScriptC
