import ScriptC.Text.Escaped

/-! # Quoted text -/

namespace ScriptC.Text

/-- A code point as an escape. -/
def codePoint (c : Char) : String :=
  "\\u\x7b" ++ String.ofList (Nat.toDigits 16 c.toNat) ++ "\x7d"

def quotedChar (c : Char) : String :=
  match c with
  | '\x00' => "\\0"
  | '\t' => "\\t"
  | '\n' => "\\n"
  | '\r' => "\\r"
  | '"' => "\\\""
  | '\\' => "\\\\"
  | c => if isEscaped c then codePoint c else c.toString

/-- A text between quotes, with everything that cannot be seen written as an escape. -/
def quoted (s : String) : String := "\"" ++ String.join (s.toList.map quotedChar) ++ "\""

end ScriptC.Text
