import ScriptC.Decimal

/-! # Number tokens

The grammar of a JSON number and the values a token stands for.
-/

namespace ScriptC.Numeral

/-- The value of a run of decimal digits. -/
def digitsValue (ds : List Char) : Nat :=
  ds.foldl (fun n c => 10 * n + (c.toNat - '0'.toNat)) 0

/-- A maximal run of digits, which must not be empty. -/
def digits? (s : List Char) : Option (List Char × List Char) :=
  match s.takeWhile Char.isDigit with
  | [] => none
  | ds => some (ds, s.dropWhile Char.isDigit)

/-- The digits before the point: a zero alone, or no leading zero. -/
def whole? : List Char → Option (List Char × List Char)
  | '0' :: r => some (['0'], r)
  | s => digits? s

def fraction? : List Char → Option (List Char × List Char)
  | '.' :: r => (digits? r).map fun (ds, r) => ('.' :: ds, r)
  | s => some ([], s)

/-- An optional sign and the digits of an exponent, after its letter `e`. -/
def exponentDigits? (e : Char) : List Char → Option (List Char × List Char)
  | '+' :: r => (digits? r).map fun (ds, r) => (e :: '+' :: ds, r)
  | '-' :: r => (digits? r).map fun (ds, r) => (e :: '-' :: ds, r)
  | s => (digits? s).map fun (ds, r) => (e :: ds, r)

def exponent? : List Char → Option (List Char × List Char)
  | 'e' :: r => exponentDigits? 'e' r
  | 'E' :: r => exponentDigits? 'E' r
  | s => some ([], s)

def unsigned? (s : List Char) : Option (List Char × List Char) := do
  let (w, s) ← whole? s
  let (f, s) ← fraction? s
  let (e, s) ← exponent? s
  some (w ++ f ++ e, s)

/-- The number token at the head of a text, and the rest of the text. -/
def token? : List Char → Option (List Char × List Char)
  | '-' :: r => (unsigned? r).map fun (t, r) => ('-' :: t, r)
  | s => unsigned? s

/-- The integer a token stands for. A token with a point or an exponent stands for none, nor
does `-0`, which is only a number. -/
def toInt? : List Char → Option Int
  | ['-', '0'] => none
  | '-' :: ds => if ds.all Char.isDigit then some (-(digitsValue ds : Int)) else none
  | ds => if ds.all Char.isDigit then some (digitsValue ds) else none

/-- The power of ten written after the digits of a token. -/
def power : List Char → Int
  | _ :: '+' :: ds => digitsValue ds
  | _ :: '-' :: ds => -(digitsValue ds : Int)
  | _ :: ds => digitsValue ds
  | [] => 0

/-- The decimal an unsigned token stands for. -/
def toDecimal (s : List Char) : Decimal :=
  let w := s.takeWhile Char.isDigit
  let r := s.dropWhile Char.isDigit
  match r with
  | '.' :: t =>
    let f := t.takeWhile Char.isDigit
    ⟨digitsValue (w ++ f), power (t.dropWhile Char.isDigit) - f.length⟩
  | _ => ⟨digitsValue w, power r⟩

/-- The double nearest to a token, if it is finite. -/
def toBinary64? : List Char → Option Binary64
  | '-' :: s => (toDecimal s).toBinary64? true
  | s => (toDecimal s).toBinary64? false

end ScriptC.Numeral
