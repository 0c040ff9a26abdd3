import ScriptC.Lowering.State

/-! # Lowering of expressions

One combinator for each form of expression. It takes its parts as actions and says in which order
they run, which registers are held meanwhile, and which instructions follow.
-/

namespace ScriptC

/-- A part of an expression: its static type and the code that evaluates it. -/
structure Part where
  ty : Ty
  value : Lower Value

namespace Lower

/-- Evaluate a part of which exactly one value is used. -/
def one (part : Part) : Lower Operand := do single (← part.value)

section Variables

variable (symbols : SymbolTable)

/-- The value of a global, and the instruction that loads it. -/
def loadGlobal (name : String) : Lower (Operand × Nat) := do
  let key ← stringConstant name
  let target ← allocTemp .any
  let load ← emitId .loadGlobal [.symbol (.globalVar name), key] [target]
  return (target, load)

def readSymbol (id : SymbolId) : Lower Operand := do
  let s ← symbol symbols id
  match s.kind with
  | .localOf _ =>
    match ← lookupLocal id with
    | some reg => return .symbol (.localVar s.name reg s.ty.tag)
    | none => invalid (.localNotInScope s.name)
  | .upvalue _ index => return .symbol (.upvalue s.name index.toNat s.ty.tag)
  | .global => return (← loadGlobal s.name).1

end Variables

section Elements

/-- The class of a key: a constant by its value, anything else by its type. -/
def keyClass (key : Operand) (ty : Ty) : Lower KeyClass := do
  match (← get).fn.proc.constant? key with
  | some (.string _) => return .stringConstant
  | some (.integer _) => return .int
  | _ => return if ty.isInteger then .int else .other

def index (object key : Part) : Lower Operand := do
  let container ← one object
  let k ← one key
  let load := Selection.load object.ty (← keyClass k key.ty)
  free k
  free container
  let target ← allocTemp load.result
  emit load.opcode [container, k] [target]
  return target

end Elements

section Operators

def unary (op : UnaryOp) (operand : Part) : Lower Operand := do
  let value ← one operand
  let sel := Selection.unary op operand.ty
  free value
  let target ← allocTemp sel.result
  emit sel.opcode [value] [target]
  return target

/-- A logical operator is control flow: the left value lands in the result, and the right operand
is evaluated only on the branch that needs it. -/
def logical (op : BinaryOp) (lhs rhs : Part) : Lower Operand := do
  let left ← one lhs
  free left
  let result ← allocTemp .any
  move left .any result
  let rhsBlock ← newBlock
  let endBlock ← newBlock
  if op = .and then
    emit .cbr [result] [.block rhsBlock, .block endBlock]
  else
    emit .cbr [result] [.block endBlock, .block rhsBlock]
  startBlock rhsBlock
  let right ← one rhs
  free right
  move right .any result
  startBlock endBlock
  return result

/-- Any other operator is an instruction on both operands, after its canonical form. -/
def arithmetic (op : BinaryOp) (lhs rhs : Part) : Lower Operand := do
  let a ← one lhs
  let b ← one rhs
  let classA := OperandClass.of lhs.ty
  let classB := OperandClass.of rhs.ty
  let form := Canonical.of op classA classB
  let (x, y, classX, classY) := if form.swap then (b, a, classB, classA) else (a, b, classA, classB)
  match Selection.binary? form.op classX classY with
  | none => invalid (.noOpcode form.op.name)
  | some sel =>
    free b
    free a
    let target ← allocTemp sel.result
    emit sel.opcode [x, y] [target]
    if form.negate then
      free target
      let negated ← allocTemp .any
      emit .not [target] [negated]
      return negated
    else return target

def binary (op : BinaryOp) (lhs rhs : Part) : Lower Operand :=
  if op = .and ∨ op = .or then logical op lhs rhs else arithmetic op lhs rhs

end Operators

section Calls

/-- An argument as the call reads it, and what it owns. -/
structure Argument where
  operand : Operand
  owned : Operand

/-- Evaluate the arguments. Only the last passes on all results of a call; any other is narrowed
to one. -/
def arguments : List Part → Lower (List Argument)
  | [] => return []
  | part :: rest => do
    let value ← part.value
    let operand ← match value.call, value.operand with
      | some call, .range base _ =>
        if rest.isEmpty then pure value.operand
        else
          setExpected call 1
          pure (.range base 1)
      | _, o => pure o
    return ⟨operand, value.operand⟩ :: (← arguments rest)

/-- The callee in a generic temporary, above which the arguments and the results are laid out. -/
def callee (func : Part) : Lower Operand := do
  let value ← one func
  match value with
  | .tempAny _ => return value
  | _ =>
    free value
    let function ← allocTemp .any
    move value .any function
    return function

/-- The member of an object that is called, and the object in the argument slot above it, so that
nothing below the results stays free. -/
def member (object : Part) (name : String) : Lower (Operand × Operand) := do
  let value ← one object
  free value
  let function ← allocTemp .any
  let receiver ← allocTemp .any
  move value object.ty.tag receiver
  let key ← stringConstant name
  emit (if object.ty = .table then .tableGetSK else .getSK) [receiver, key] [function]
  return (function, receiver)

/-- Call `function` with what is held for it, followed by the arguments. -/
def callWith (function : Operand) (held : List Operand) (args : List Part) : Lower Value := do
  let .tempAny base := function | invalid .calleeRegister
  let args ← arguments args
  let expected ← intConstant (-1)
  let result := Operand.range base (-1)
  let call ← emitId .call (function :: held ++ args.map (·.operand)) [result, expected]
  freeAll (held ++ args.map (·.owned))
  return ⟨result, some call⟩

def call (func : Part) (args : List Part) : Lower Value := do
  callWith (← callee func) [] args

def methodCall (object : Part) (name : String) (args : List Part) : Lower Value := do
  let (function, receiver) ← member object name
  callWith function [receiver] args

/-- Make a closure of the function that `child` lowers. -/
def closure (child : Lower Nat) : Lower Operand := do
  let id ← child
  let target ← allocTemp .any
  emit .closure [.proc id] [target]
  return target

end Calls

section Constructors

/-- What a constructor makes, by the type of the expression. -/
inductive Shape where
  | iarray
  | farray
  | table
deriving DecidableEq, Repr

namespace Shape

def of : Ty → Shape
  | .integerArray => iarray
  | .numberArray => farray
  | _ => table

def opcode : Shape → Opcode
  | iarray => .newIArray
  | farray => .newFArray
  | table => .newTable

/-- The store of an item by its position. -/
def positional : Shape → Opcode
  | iarray => .iarraySet
  | farray => .farraySet
  | table => .tableSetIK

/-- The store of an item by its key. -/
def keyed : Shape → KeyClass → Opcode
  | table, .stringConstant => .tableSetSK
  | table, .int => .tableSetIK
  | table, .other => .tableSet
  | shape, _ => shape.positional

end Shape

/-- An item of a constructor. -/
inductive Item where
  | positional (value : Part)
  | named (name : String) (value : Part)
  | keyed (key value : Part)

def storeItem (table : Operand) (opcode : Opcode) (key value : Operand) : Lower Unit := do
  emit opcode [table, key, value] []
  free value
  free key

/-- Store the items in order; the positional ones are counted from `position` on. -/
def items (shape : Shape) (table : Operand) : Int64 → List Item → Lower Unit
  | _, [] => return
  | position, .positional value :: rest => do
    let k ← intConstant position
    let v ← one value
    storeItem table shape.positional k v
    items shape table (position + 1) rest
  | position, .named name value :: rest => do
    unless shape = .table do
      invalid (.fieldOfArray name)
    let k ← stringConstant name
    let v ← one value
    storeItem table .tableSetSK k v
    items shape table position rest
  | position, .keyed key value :: rest => do
    let k ← one key
    let opcode := shape.keyed (← keyClass k key.ty)
    let v ← one value
    storeItem table opcode k v
    items shape table position rest

/-- A constructor of an expression of type `ty`. -/
def construct (ty : Ty) (contents : List Item) : Lower Operand := do
  let shape := Shape.of ty
  let table ← allocTemp .any
  emit shape.opcode [] [table]
  items shape table 1 contents
  return table

end Constructors

end Lower

end ScriptC
