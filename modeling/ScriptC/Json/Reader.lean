import ScriptC.Json
import ScriptC.Numeral

/-! # Reading JSON text

The grammar is that of the standard: no trailing commas, comments, leading zeros or control
characters in strings, and nothing but blanks after the value.
-/

namespace ScriptC.Json

def isBlank (c : Char) : Bool := c == ' ' || c == '\n' || c == '\t' || c == '\r'

def skip (s : List Char) : List Char := s.dropWhile isBlank

def hexDigit? (c : Char) : Option Nat :=
  if c.isDigit then some (c.toNat - '0'.toNat)
  else if 'a' ≤ c ∧ c ≤ 'f' then some (c.toNat - 'a'.toNat + 10)
  else if 'A' ≤ c ∧ c ≤ 'F' then some (c.toNat - 'A'.toNat + 10)
  else none

/-- A piece of a string literal: a character, or the 16-bit unit of a hexadecimal escape. -/
inductive Piece where
  | char (c : Char)
  | unit (n : Nat)
deriving DecidableEq, Repr

def unit? (a b c d : Char) : Option Piece := do
  some (.unit ((((← hexDigit? a) * 16 + (← hexDigit? b)) * 16 + (← hexDigit? c)) * 16
    + (← hexDigit? d)))

/-- The character of a one-letter escape. -/
def escape? : Char → Option Char
  | '"' => some '"'
  | '\\' => some '\\'
  | '/' => some '/'
  | 'b' => some '\x08'
  | 'f' => some '\x0c'
  | 'n' => some '\n'
  | 'r' => some '\r'
  | 't' => some '\t'
  | _ => none

/-- The pieces up to the closing quote, put in front of the reversed `acc`, and the rest. -/
def pieces? (acc : List Piece) : List Char → Option (List Piece × List Char)
  | [] => none
  | '"' :: r => some (acc.reverse, r)
  | '\\' :: 'u' :: a :: b :: c :: d :: r =>
    match unit? a b c d with
    | some p => pieces? (p :: acc) r
    | none => none
  | '\\' :: e :: r =>
    match escape? e with
    | some c => pieces? (.char c :: acc) r
    | none => none
  | c :: r => if c.toNat < 0x20 ∨ c = '\\' then none else pieces? (.char c :: acc) r

def isHighSurrogate (n : Nat) : Bool := decide (0xD800 ≤ n ∧ n < 0xDC00)

def isLowSurrogate (n : Nat) : Bool := decide (0xDC00 ≤ n ∧ n < 0xE000)

/-- The text of a literal's pieces, put after the reversed `acc`: two units that form a
surrogate pair are one character, and no surrogate stands alone. -/
def join? (acc : List Char) : List Piece → Option String
  | [] => some (String.ofList acc.reverse)
  | .char c :: ps => join? (c :: acc) ps
  | .unit n :: .unit m :: ps =>
    if isHighSurrogate n then
      if isLowSurrogate m then
        join? (Char.ofNat (0x10000 + (n - 0xD800) * 0x400 + (m - 0xDC00)) :: acc) ps
      else none
    else if isLowSurrogate n then none
    else join? (Char.ofNat n :: acc) (.unit m :: ps)
  | .unit n :: ps =>
    if isHighSurrogate n || isLowSurrogate n then none else join? (Char.ofNat n :: acc) ps

/-- A string literal after its opening quote. -/
def literal? (s : List Char) : Option (Option String × List Char) :=
  (pieces? [] s).map fun (ps, r) => (join? [] ps, r)

mutual

/-- A value, after blanks. Each nested call costs one unit of fuel. -/
def value? : Nat → List Char → Option (Json × List Char)
  | 0, _ => none
  | n + 1, s =>
    match skip s with
    | 'n' :: 'u' :: 'l' :: 'l' :: r => some (.null, r)
    | 't' :: 'r' :: 'u' :: 'e' :: r => some (.bool true, r)
    | 'f' :: 'a' :: 'l' :: 's' :: 'e' :: r => some (.bool false, r)
    | '"' :: r => (literal? r).map fun (t, r) => (.str t, r)
    | '[' :: r =>
      match skip r with
      | ']' :: r => some (.arr [], r)
      | _ => (items? n r).map fun (xs, r) => (.arr xs, r)
    | '{' :: r =>
      match skip r with
      | '}' :: r => some (.obj [], r)
      | _ => (members? n r).map fun (ms, r) => (.obj ms, r)
    | s => (Numeral.token? s).map fun (t, r) => (.num (String.ofList t), r)

/-- The items of a non-empty array up to its closing bracket. -/
def items? : Nat → List Char → Option (List Json × List Char)
  | 0, _ => none
  | n + 1, s =>
    match value? n s with
    | none => none
    | some (v, r) =>
      match skip r with
      | ',' :: r => (items? n r).map fun (vs, r) => (v :: vs, r)
      | ']' :: r => some ([v], r)
      | _ => none

/-- The members of a non-empty object up to its closing brace. -/
def members? : Nat → List Char → Option (List (Option String × Json) × List Char)
  | 0, _ => none
  | n + 1, s =>
    match skip s with
    | '"' :: r =>
      match literal? r with
      | none => none
      | some (k, r) =>
        match skip r with
        | ':' :: r =>
          match value? n r with
          | none => none
          | some (v, r) =>
            match skip r with
            | ',' :: r => (members? n r).map fun (ms, r) => ((k, v) :: ms, r)
            | '}' :: r => some ([(k, v)], r)
            | _ => none
        | _ => none
    | _ => none

end

/-- The value a text spells. Two units of fuel for each character are enough, since a call
that consumes nothing is followed by one that does. -/
def read? (s : String) : Option Json :=
  let cs := s.toList
  match value? (2 * cs.length + 2) cs with
  | some (v, r) => if skip r = [] then some v else none
  | none => none

end ScriptC.Json
