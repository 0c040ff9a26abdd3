/-! # Static types

The type a front end resolved for an expression or a symbol, and the tag it is reduced to
once only the representation of a slot matters.
-/

namespace ScriptC

inductive Ty where
  | any
  | integer
  | number
  | integerArray
  | numberArray
  | table
  | string
  | boolean
  | nil
  | function
  | userDefined (name : String)
deriving DecidableEq, Repr, Inhabited

namespace Ty

def isInteger : Ty → Bool
  | integer => true
  | _ => false

def isNumber : Ty → Bool
  | number => true
  | _ => false

def isNumeric (t : Ty) : Bool := t.isInteger || t.isNumber

def isArray : Ty → Bool
  | integerArray | numberArray => true
  | _ => false

/-- The type as it is shown to a user. -/
def text : Ty → String
  | any => "any"
  | integer => "integer"
  | number => "number"
  | integerArray => "integer[]"
  | numberArray => "number[]"
  | table => "table"
  | string => "string"
  | boolean => "boolean"
  | nil => "nil"
  | function => "closure"
  | userDefined name => name

end Ty

/-- What the generated code needs to know about the type of a slot. -/
inductive TypeTag where
  | any
  | integer
  | number
  | integerArray
  | numberArray
  | table
  | string
  | boolean
  | nil
  | closure
  | userDefined
deriving DecidableEq, Repr, Inhabited

namespace TypeTag

def text : TypeTag → String
  | any => "any"
  | integer => "integer"
  | number => "number"
  | integerArray => "integer[]"
  | numberArray => "number[]"
  | table => "table"
  | string => "string"
  | boolean => "boolean"
  | nil => "nil"
  | closure => "closure"
  | userDefined => "userdata"

def all : List TypeTag :=
  [any, integer, number, integerArray, numberArray, table, string, boolean, nil, closure,
    userDefined]

end TypeTag

/-- Names of user-defined types are forgotten. -/
def Ty.tag : Ty → TypeTag
  | any => .any
  | integer => .integer
  | number => .number
  | integerArray => .integerArray
  | numberArray => .numberArray
  | table => .table
  | string => .string
  | boolean => .boolean
  | nil => .nil
  | function => .closure
  | userDefined _ => .userDefined

end ScriptC
