import ScriptC.Binary64
import ScriptC.Opcode

/-! # Generated code

The C that is generated for an instruction, as a list of statements. Tagged values are reached
through their address, native integers and floats are C variables. A value that has no address of
its own is put into a scratch value before a runtime function reads it.
-/

namespace ScriptC

/-- The place of a tagged value. -/
inductive Address where
  /-- Slot of the frame. -/
  | slot (index : Nat)
  | upvalue (index : Nat)
  /-- String constant of the prototype. -/
  | constant (index : Nat)
  /-- Scratch value for anything but a float. -/
  | scratch (index : Nat)
  | floatScratch (index : Nat)
  /-- A value to return, set aside. -/
  | kept (index : Nat)
  /-- Slot above the function being called. -/
  | argument (index : Nat)
  /-- Slot where the caller expects a result. -/
  | result (index : Nat)
deriving DecidableEq, Repr

/-- A C variable that holds a native value. -/
inductive Variable where
  | temp (reg : Nat)
  /-- A value that was converted. -/
  | converted
  /-- An element of an array. -/
  | element
deriving DecidableEq, Repr

/-- An operator on integers that wraps around. -/
inductive IntOp where
  | add
  | sub
  | mul
  | band
  | bor
  | bxor
deriving DecidableEq, Repr

inductive FloatOp where
  | add
  | sub
  | mul
  | div
deriving DecidableEq, Repr

inductive Relation where
  | eq
  | lt
  | le
deriving DecidableEq, Repr

inductive IntExpr where
  | var (v : Variable)
  | literal (value : Int64)
  /-- The integer in a tagged value, unchecked. -/
  | tagged (a : Address)
  | binary (op : IntOp) (x y : IntExpr)
  | negate (x : IntExpr)
  /-- Shift left; a negative count shifts right. -/
  | shift (x count : IntExpr)
  | length (array : Address)
deriving DecidableEq, Repr

inductive FloatExpr where
  | var (v : Variable)
  | literal (value : Binary64)
  /-- The float in a tagged value, unchecked. -/
  | tagged (a : Address)
  /-- The conversion of an integer. -/
  | ofInt (x : IntExpr)
  | binary (op : FloatOp) (x y : FloatExpr)
  | negate (x : FloatExpr)
deriving DecidableEq, Repr

inductive BoolExpr where
  | constant (value : Bool)
  /-- The tagged value is nil or false. -/
  | isFalse (a : Address)
  | ints (r : Relation) (x y : IntExpr)
  | floats (r : Relation) (x y : FloatExpr)
  /-- A comparison by the runtime. -/
  | tagged (r : Relation) (x y : Address)
deriving DecidableEq, Repr

/-- What a failed check reports. -/
inductive ErrorCode where
  | integerExpected
  | numberExpected
  | integerArrayExpected
  | numberArrayExpected
  | tableExpected
  | stringExpected
  | closureExpected
  | arrayOutOfBounds
deriving DecidableEq, Repr

/-- The runtime type a guard asks for. -/
inductive RuntimeType where
  | integerArray
  | numberArray
  | table
  | string
  | function
deriving DecidableEq, Repr

/-- The two kinds of typed arrays. -/
inductive ElementKind where
  | int
  | float
deriving DecidableEq, Repr

/-- The condition under which a check fails. -/
inductive Check where
  /-- The float is no integer; otherwise the integer is left in `out`. -/
  | floatToInt (x : FloatExpr) (out : Variable)
  | taggedToInt (a : Address)
  | taggedToFloat (a : Address)
  | hasType (a : Address) (type : RuntimeType)
  /-- As `hasType`, but nil passes. -/
  | hasTypeOrNil (a : Address) (type : RuntimeType)
  | isInt (a : Address)
  | loadElement (kind : ElementKind) (array : Address) (index : IntExpr)
  | storeElement (kind : ElementKind) (array : Address) (index : IntExpr)
deriving DecidableEq, Repr

/-- A runtime function that is called for its effect. -/
inductive Helper where
  | arith
  | concat
  | objlen
  | getglobal
  | setglobal
  | gettable
  | geti
  | getfield
  | settable
  | seti
  | setfield
  | closure
  | newtable
  | newiarray
  | newfarray
deriving DecidableEq, Repr

inductive Argument where
  | state
  | closure
  | base
  /-- The operator of a generic instruction. -/
  | operator (opcode : Opcode)
  | address (a : Address)
  | int (x : IntExpr)
  | number (n : Nat)
deriving DecidableEq, Repr

/-- How a loop goes through values that it copies one by one. -/
inductive Sweep where
  /-- Not at all: they are in place. -/
  | none
  /-- From the last to the first. -/
  | downwards
  | upwards
deriving DecidableEq, Repr

/-- The copy runs downwards when the destination is above the source, so that no value is
overwritten before it has been read. -/
def Sweep.between (dest src : Int) : Sweep :=
  if dest = src then none else if src < dest then downwards else upwards

inductive Code where
  | comment (opcode : Opcode)
  | goto (block : Nat)
  /-- Branch on the truth of a tagged value. -/
  | branch (cond : Address) (onTrue onFalse : Nat)
  | setInt (v : Variable) (x : IntExpr)
  | setFloat (v : Variable) (x : FloatExpr)
  | storeInt (a : Address) (x : IntExpr)
  | storeFloat (a : Address) (x : FloatExpr)
  | storeBool (a : Address) (x : BoolExpr)
  | storeNil (a : Address)
  | copy (dest src : Address)
  | raise (code : ErrorCode)
  | guard (failed : Check) (code : ErrorCode)
  | invoke (helper : Helper) (args : List Argument)
  | declareInt (v : Variable)
  | declareFloat (v : Variable)
  /-- Read the number in a tagged value as a float, whatever its type. -/
  | readNumber (a : Address)
  /-- Set values aside that are to be returned. -/
  | keep (count : Nat)
  /-- Count the values from a slot to the top of the stack. -/
  | countTail (slot : Nat)
  /-- Copy the counted values between two places relative to the base. -/
  | copyTail (dest src : Int)
  | setResults (fixed : Nat) (hasTail : Bool)
  | setCallee (slot : Nat)
  /-- Place the top of the stack after the arguments. -/
  | setTop (offset : Nat) (hasTail : Bool)
  | call (expected : Int64)
  | reloadBase
  | restoreTop
  /-- A block of its own. -/
  | scope (body : List Code)

/-- The C function of a proc. -/
structure CodeUnit where
  name : String
  /-- Number of native integers and floats. -/
  ints : Nat
  floats : Nat
  /-- The code of each block but the exit. -/
  blocks : List (Nat × List Code)

end ScriptC
