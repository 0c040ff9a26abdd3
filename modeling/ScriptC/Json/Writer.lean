import ScriptC.Json

/-! # Writing JSON text

One item or member a line, indented by two blanks a level.
-/

namespace ScriptC.Json

def hexChar (n : Nat) : Char :=
  if n < 10 then Char.ofNat ('0'.toNat + n) else Char.ofNat ('a'.toNat + (n - 10))

/-- A character inside a string literal. -/
def escape (c : Char) : List Char :=
  match c with
  | '"' => ['\\', '"']
  | '\\' => ['\\', '\\']
  | '\x08' => ['\\', 'b']
  | '\x0c' => ['\\', 'f']
  | '\n' => ['\\', 'n']
  | '\r' => ['\\', 'r']
  | '\t' => ['\\', 't']
  | c =>
    if c.toNat < 0x20 then ['\\', 'u', '0', '0', hexChar (c.toNat / 16), hexChar (c.toNat % 16)]
    else [c]

def quote (s : String) : String :=
  s.foldl (fun t c => t ++ String.ofList (escape c)) "\"" ++ "\""

def quoted : Option String → String
  | some s => quote s
  | none => "\"\""

def newline (level : Nat) : String := "\n" ++ String.ofList (List.replicate (2 * level) ' ')

mutual

/-- The text of a value whose own line is indented to `level`. -/
def pretty (level : Nat) : Json → String
  | .null => "null"
  | .bool true => "true"
  | .bool false => "false"
  | .num t => t
  | .str s => quoted s
  | .arr [] => "[]"
  | .arr (x :: xs) =>
    "[" ++ newline (level + 1) ++ pretty (level + 1) x ++ prettyItems (level + 1) xs
      ++ newline level ++ "]"
  | .obj [] => "\x7b\x7d"
  | .obj ((k, v) :: ms) =>
    "\x7b" ++ newline (level + 1) ++ quoted k ++ ": " ++ pretty (level + 1) v
      ++ prettyMembers (level + 1) ms ++ newline level ++ "\x7d"

def prettyItems (level : Nat) : List Json → String
  | [] => ""
  | x :: xs => "," ++ newline level ++ pretty level x ++ prettyItems level xs

def prettyMembers (level : Nat) : List (Option String × Json) → String
  | [] => ""
  | (k, v) :: ms =>
    "," ++ newline level ++ quoted k ++ ": " ++ pretty level v ++ prettyMembers level ms

end

/-- The text of a value, starting at the margin. -/
def write (j : Json) : String := j.pretty 0

end ScriptC.Json
