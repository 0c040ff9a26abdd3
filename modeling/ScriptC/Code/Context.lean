import ScriptC.Code
import ScriptC.Failure
import ScriptC.Frame

/-! # Operands in code

An operand is read and written where it lives: native temporaries and numeric constants are C
expressions, everything else is a tagged value with an address.
-/

namespace ScriptC

/-- What the code of a proc refers to. -/
structure CodeContext where
  proc : Proc
  /-- The children of the proc, in the order of their prototypes. -/
  children : List Nat
  frame : Frame
  /-- Where the prototype holds each string constant of the pool. -/
  strings : List (Nat × Nat)

/-- How a value is held. -/
inductive Holding where
  | int
  | float
  /-- In a tagged value that has an address. -/
  | tagged
  | nil
  | boolean (value : Bool)
deriving DecidableEq, Repr

namespace CodeContext

variable (c : CodeContext)

def invalid {α : Type} (reason : Reason) : Except Failure α :=
  .error (.invalid c.proc.id reason)

section Operands

def operand (i : Instr) (n : Nat) : Except Failure Operand :=
  match i.operands[n]? with
  | some o => .ok o
  | none => c.invalid (.missingOperand i.opcode n)

def target (i : Instr) (n : Nat) : Except Failure Operand :=
  match i.targets[n]? with
  | some o => .ok o
  | none => c.invalid (.missingTarget i.opcode n)

def blockTarget (i : Instr) (n : Nat) : Except Failure Nat := do
  match ← c.target i n with
  | .block b => return b
  | o => c.invalid (.notABlock i.opcode o)

def holding (o : Operand) : Except Failure Holding :=
  match o with
  | .tempInt _ => .ok .int
  | .tempFloat _ => .ok .float
  | .nil => .ok .nil
  | .true => .ok (.boolean true)
  | .false => .ok (.boolean false)
  | .constant _ =>
    match c.proc.constant? o with
    | some (.integer _) => .ok .int
    | some (.number _) => .ok .float
    | some (.string _) => .ok .tagged
    | none => c.invalid (.unknownConstant o)
  | .symbol (.globalVar _) | .proc _ | .block _ => c.invalid (.notAValue o)
  | _ => .ok .tagged

/-- The frame slot of an operand, if it is on the stack. -/
def slot? (o : Operand) : Except Failure (Option Nat) :=
  (c.frame.slot? o).mapError .stopped

/-- The address of an operand, if it has one. -/
def address? (o : Operand) : Except Failure (Option Address) :=
  match o with
  | .symbol (.upvalue _ index _) => .ok (some (.upvalue index))
  | .constant k =>
    match c.proc.constant? o with
    | some (.string _) =>
      match c.strings.lookup k with
      | some index => .ok (some (.constant index))
      | none => c.invalid (.notInterned k)
    | _ => .ok none
  | _ => do return (← c.slot? o).map .slot

def address (o : Operand) : Except Failure Address := do
  match ← c.address? o with
  | some a => return a
  | none => c.invalid (.noTaggedStorage o)

/-- An operand as an integer expression. -/
def intValue (o : Operand) : Except Failure IntExpr :=
  match o with
  | .tempInt r => .ok (.var (.temp r))
  | .constant _ =>
    match c.proc.constant? o with
    | some (.integer n) => .ok (.literal n)
    | _ => c.invalid (.notAnIntegerConstant o)
  | _ => do
    match ← c.address? o with
    | some a => return .tagged a
    | none => c.invalid (.noIntegerValue o)

/-- The float in the tagged value of an operand. -/
def taggedFloat (o : Operand) : Except Failure FloatExpr := do
  match ← c.address? o with
  | some a => return .tagged a
  | none => c.invalid (.noFloatValue o)

/-- An operand as a float expression. What is known to be an integer is converted. -/
def floatValue (o : Operand) : Except Failure FloatExpr :=
  match o with
  | .tempFloat r => .ok (.var (.temp r))
  | .tempInt r => .ok (.ofInt (.var (.temp r)))
  | .constant _ =>
    match c.proc.constant? o with
    | some (.number x) => .ok (.literal x)
    | some (.integer n) => .ok (.literal (Binary64.ofInt n.toInt))
    | _ => c.invalid (.notANumericConstant o)
  | .symbol ref =>
    if ref.tag = .integer then .ofInt <$> c.intValue o else c.taggedFloat o
  | _ => c.taggedFloat o

/-- The address of an operand for a runtime function, with the code that first puts a value
without an address into scratch value `d`. The position of the operand is its `d`, so that the
operands of one instruction never share a scratch value. -/
def tagged (o : Operand) (d : Nat) : Except Failure (List Code × Address) := do
  match ← c.address? o with
  | some a => return ([], a)
  | none =>
    match ← c.holding o with
    | .int => return ([.storeInt (.scratch d) (← c.intValue o)], .scratch d)
    | .float => return ([.storeFloat (.floatScratch d) (← c.floatValue o)], .floatScratch d)
    | .nil => return ([.storeNil (.scratch d)], .scratch d)
    | .boolean b => return ([.storeBool (.scratch d) (.constant b)], .scratch d)
    | .tagged => c.invalid (.noTaggedStorage o)

/-- Whether an operand is nil or false: known from its form, or to be tested at its address. -/
def falsity (o : Operand) : Except Failure (Bool ⊕ Address) := do
  match ← c.holding o with
  | .nil | .boolean false => return .inl true
  | .int | .float | .boolean true => return .inl false
  | .tagged => return .inr (← c.address o)

end Operands

section Stores

def storeInt (dest : Operand) (x : IntExpr) : Except Failure Code :=
  match dest with
  | .tempInt r => .ok (.setInt (.temp r) x)
  | _ => do return .storeInt (← c.address dest) x

def storeFloat (dest : Operand) (x : FloatExpr) : Except Failure Code :=
  match dest with
  | .tempFloat r => .ok (.setFloat (.temp r) x)
  | _ => do return .storeFloat (← c.address dest) x

def storeBool (dest : Operand) (x : BoolExpr) : Except Failure Code := do
  return .storeBool (← c.address dest) x

/-- Write any value to an address. -/
def store (dest : Address) (src : Operand) : Except Failure Code := do
  match ← c.holding src with
  | .int => return .storeInt dest (← c.intValue src)
  | .float => return .storeFloat dest (← c.floatValue src)
  | .nil => return .storeNil dest
  | .boolean b => return .storeBool dest (.constant b)
  | .tagged => return .copy dest (← c.address src)

/-- Convert under a check and store the outcome. -/
def checkedInt (check : Check) (dest : Operand) : Except Failure (List Code) := do
  return [.scope [.declareInt .converted, .guard check .integerExpected,
    ← c.storeInt dest (.var .converted)]]

def checkedFloat (check : Check) (dest : Operand) : Except Failure (List Code) := do
  return [.scope [.declareFloat .converted, .guard check .numberExpected,
    ← c.storeFloat dest (.var .converted)]]

end Stores

end CodeContext

end ScriptC
