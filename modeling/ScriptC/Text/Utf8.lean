/-! # Reading UTF-8 with replacements

A byte string need not be well formed. Every longest start of a character that the next byte does
not continue is read as one replacement character, and so is every byte that starts nothing.
-/

namespace ScriptC.Utf8

def replacement : Char := '�'

/-- A character of which some bytes have been read. -/
structure Pending where
  /-- Value of the bytes read. -/
  value : Nat
  /-- Continuation bytes still to come. -/
  missing : Nat
  /-- The range of the next byte. -/
  low : Nat
  high : Nat
deriving DecidableEq, Repr

/-- Read a byte that starts a character. -/
def lead (b : UInt8) : List Char × Option Pending :=
  let n := b.toNat
  if n < 0x80 then ([Char.ofNat n], none)
  else if 0xC2 ≤ n ∧ n ≤ 0xDF then ([], some ⟨n % 32, 1, 0x80, 0xBF⟩)
  else if n = 0xE0 then ([], some ⟨0, 2, 0xA0, 0xBF⟩)
  else if n = 0xED then ([], some ⟨13, 2, 0x80, 0x9F⟩)
  else if 0xE1 ≤ n ∧ n ≤ 0xEF then ([], some ⟨n % 16, 2, 0x80, 0xBF⟩)
  else if n = 0xF0 then ([], some ⟨0, 3, 0x90, 0xBF⟩)
  else if 0xF1 ≤ n ∧ n ≤ 0xF3 then ([], some ⟨n % 8, 3, 0x80, 0xBF⟩)
  else if n = 0xF4 then ([], some ⟨4, 3, 0x80, 0x8F⟩)
  else ([replacement], none)

/-- Read one more byte. -/
def step (pending : Option Pending) (b : UInt8) : List Char × Option Pending :=
  match pending with
  | none => lead b
  | some p =>
    if p.low ≤ b.toNat ∧ b.toNat ≤ p.high then
      let value := p.value * 64 + b.toNat % 64
      if p.missing = 1 then ([Char.ofNat value], none)
      else ([], some ⟨value, p.missing - 1, 0x80, 0xBF⟩)
    else
      let (out, next) := lead b
      (replacement :: out, next)

def decodeFrom : Option Pending → List UInt8 → List Char
  | none, [] => []
  | some _, [] => [replacement]
  | pending, b :: bs =>
    let (out, next) := step pending b
    out ++ decodeFrom next bs

def decode (bytes : List UInt8) : String := String.ofList (decodeFrom none bytes)

end ScriptC.Utf8
