import ScriptC.Code.Context

/-! # Code of moves, operators and casts

An instruction on native operands is a C expression, one on tagged operands calls the runtime. A
cast checks what is not known from the form of its operand.
-/

namespace ScriptC.CodeContext

variable (c : CodeContext)

section Moves

def construct (helper : Helper) (i : Instr) : Except Failure (List Code) := do
  let dest ← c.address (← c.target i 0)
  return [.invoke helper [.state, .address dest]]

def move (i : Instr) : Except Failure (List Code) := do
  let src ← c.operand i 0
  let dest ← c.target i 0
  match dest with
  | .tempInt _ => return [← c.storeInt dest (← c.intValue src)]
  | .tempFloat _ => return [← c.storeFloat dest (← c.floatValue src)]
  | _ => return [← c.store (← c.address dest) src]

def moveInt (i : Instr) : Except Failure (List Code) := do
  let src ← c.operand i 0
  let dest ← c.target i 0
  return [← c.storeInt dest (← c.intValue src)]

def moveFloat (i : Instr) : Except Failure (List Code) := do
  let src ← c.operand i 0
  let dest ← c.target i 0
  return [← c.storeFloat dest (← c.floatValue src)]

def moveFloatToInt (i : Instr) : Except Failure (List Code) := do
  let src ← c.operand i 0
  let dest ← c.target i 0
  c.checkedInt (.floatToInt (← c.floatValue src) .converted) dest

end Moves

section Operators

def intArith (op : IntExpr → IntExpr → IntExpr) (i : Instr) : Except Failure (List Code) := do
  let a ← c.operand i 0
  let b ← c.operand i 1
  let dest ← c.target i 0
  let x ← c.intValue a
  let y ← c.intValue b
  return [← c.storeInt dest (op x y)]

def floatArith (op : FloatOp) (i : Instr) : Except Failure (List Code) := do
  let a ← c.operand i 0
  let b ← c.operand i 1
  let dest ← c.target i 0
  let x ← c.floatValue a
  let y ← c.floatValue b
  return [← c.storeFloat dest (.binary op x y)]

/-- A runtime function of two tagged operands and a destination. -/
def taggedArith (helper : Helper) (leading : List Argument) (i : Instr) :
    Except Failure (List Code) := do
  let a ← c.operand i 0
  let b ← c.operand i 1
  let dest ← c.address (← c.target i 0)
  let (setX, x) ← c.tagged a 0
  let (setY, y) ← c.tagged b 1
  return setX ++ setY ++
    [.invoke helper (.state :: leading ++ [.address dest, .address x, .address y])]

def compareInts (r : Relation) (i : Instr) : Except Failure (List Code) := do
  let a ← c.operand i 0
  let b ← c.operand i 1
  let dest ← c.target i 0
  let x ← c.intValue a
  let y ← c.intValue b
  return [← c.storeBool dest (.ints r x y)]

def compareFloats (r : Relation) (i : Instr) : Except Failure (List Code) := do
  let a ← c.operand i 0
  let b ← c.operand i 1
  let dest ← c.target i 0
  let x ← c.floatValue a
  let y ← c.floatValue b
  return [← c.storeBool dest (.floats r x y)]

def compareTagged (r : Relation) (i : Instr) : Except Failure (List Code) := do
  let a ← c.operand i 0
  let b ← c.operand i 1
  let dest ← c.target i 0
  let (setX, x) ← c.tagged a 0
  let (setY, y) ← c.tagged b 1
  return setX ++ setY ++ [← c.storeBool dest (.tagged r x y)]

def negateInt (i : Instr) : Except Failure (List Code) := do
  let a ← c.operand i 0
  let dest ← c.target i 0
  return [← c.storeInt dest (.negate (← c.intValue a))]

def negateFloat (i : Instr) : Except Failure (List Code) := do
  let a ← c.operand i 0
  let dest ← c.target i 0
  return [← c.storeFloat dest (.negate (← c.floatValue a))]

def not (i : Instr) : Except Failure (List Code) := do
  let a ← c.operand i 0
  let dest ← c.target i 0
  let value ← match ← c.falsity a with
    | .inl b => pure (.constant b)
    | .inr a => pure (.isFalse a)
  return [← c.storeBool dest value]

def arrayLength (i : Instr) : Except Failure (List Code) := do
  let a ← c.operand i 0
  let dest ← c.target i 0
  return [← c.storeInt dest (.length (← c.address a))]

def length (i : Instr) : Except Failure (List Code) := do
  let a ← c.operand i 0
  let dest ← c.address (← c.target i 0)
  let (set, x) ← c.tagged a 0
  return set ++ [.invoke .objlen [.state, .address dest, .address x]]

/-- A generic operator on one operand is called with it twice. -/
def taggedUnary (i : Instr) : Except Failure (List Code) := do
  let a ← c.operand i 0
  let dest ← c.address (← c.target i 0)
  let (set, x) ← c.tagged a 0
  return set ++
    [.invoke .arith [.state, .operator i.opcode, .address dest, .address x, .address x]]

end Operators

section Casts

def castInt (i : Instr) : Except Failure (List Code) := do
  let src ← c.operand i 0
  let dest ← c.target i 0
  match ← c.holding src with
  | .int => return [← c.storeInt dest (← c.intValue src)]
  | .float => c.checkedInt (.floatToInt (← c.floatValue src) .converted) dest
  | .tagged => c.checkedInt (.taggedToInt (← c.address src)) dest
  | .nil | .boolean _ => return [.raise .integerExpected]

def castFloat (i : Instr) : Except Failure (List Code) := do
  let src ← c.operand i 0
  let dest ← c.target i 0
  match ← c.holding src with
  | .int | .float => return [← c.storeFloat dest (← c.floatValue src)]
  | .tagged => c.checkedFloat (.taggedToFloat (← c.address src)) dest
  | .nil | .boolean _ => return [.raise .numberExpected]

/-- Check the type of a tagged value, and copy it unless it stays where it is. -/
def castTagged (check : Address → Check) (code : ErrorCode) (i : Instr) :
    Except Failure (List Code) := do
  let src ← c.operand i 0
  let dest ← c.target i 0
  discard <| c.holding src
  let (set, value) ← c.tagged src 0
  let copied ← if src.sameStorage dest then pure []
    else pure [Code.copy (← c.address dest) value]
  return set ++ .guard (check value) code :: copied

end Casts

end ScriptC.CodeContext
