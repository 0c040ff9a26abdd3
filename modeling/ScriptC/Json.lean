/-! # JSON values

Members keep their order and may repeat a key, and numbers keep their spelling: what a
repeated key or an out-of-range number means is for the reader of the value to say.
-/

namespace ScriptC

inductive Json where
  | null
  | bool (b : Bool)
  /-- A number, as it is spelled. -/
  | num (token : String)
  /-- A string; a literal with an unpaired surrogate escape has no text. -/
  | str (text : Option String)
  | arr (items : List Json)
  | obj (members : List (Option String × Json))
deriving Inhabited

namespace Json

def text (s : String) : Json := .str (some s)

def int (n : Int) : Json := .num (toString n)

def nat (n : Nat) : Json := .num (toString n)

/-- An object with one member. -/
def tagged (name : String) (value : Json) : Json := .obj [(some name, value)]

def record (members : List (String × Json)) : Json :=
  .obj (members.map fun (k, v) => (some k, v))

end Json

end ScriptC
