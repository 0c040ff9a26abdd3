import ScriptC.Opcode
import ScriptC.Registers

/-! # Failures

A unit is refused for a stated cause, or a broken contract stops the run.
-/

namespace ScriptC

/-- A construct of the language that is not compiled. -/
inductive Feature where
  | vararg
  | genericFor
  | jump (label : String)
  | label (name : String)
deriving DecidableEq, Repr

def Feature.text : Feature → String
  | vararg => "vararg expression '...'"
  | genericFor => "generic for loop"
  | jump name => s!"goto {name}"
  | label name => s!"label ::{name}::"

/-- What is wrong with an operand. -/
inductive Reason where
  | breakOutsideLoop
  | notAssignable
  | fieldOfArray (name : String)
  | undeclaredScope (name : String)
  | localNotInScope (name : String)
  | notAnUpvalue (name : String)
  | captureNotInScope (name : String)
  | captureNotReachable (name : String)
  | calleeRegister
  | noOpcode (operator : String)
  | noTargetBlock (opcode : Opcode) (block : Nat)
  | missingOperand (opcode : Opcode) (index : Nat)
  | missingTarget (opcode : Opcode) (index : Nat)
  | notABlock (opcode : Opcode) (target : Operand)
  | unknownConstant (operand : Operand)
  | notAValue (operand : Operand)
  | notInterned (constant : Nat)
  | noTaggedStorage (operand : Operand)
  | notAnIntegerConstant (operand : Operand)
  | noIntegerValue (operand : Operand)
  | notANumericConstant (operand : Operand)
  | noFloatValue (operand : Operand)
  | notAStackRange (operand : Operand)
  | calleeNotGeneric (operand : Operand)
  | noExpectedCount
  | notAProc
  | notAChild (proc : Nat)
  | notAStringKey (operand : Operand)
deriving DecidableEq, Repr

namespace Reason

def text : Reason → String
  | breakOutsideLoop => "break outside of a loop"
  | notAssignable => "expression cannot be assigned to"
  | fieldOfArray name => s!"array constructor cannot set field '{name}'"
  | undeclaredScope name => s!"local '{name}' declared outside any scope"
  | localNotInScope name => s!"local '{name}' is not in scope"
  | notAnUpvalue name => s!"'{name}' is listed as an upvalue but is not one"
  | captureNotInScope name => s!"captured local '{name}' is not in scope"
  | captureNotReachable name => s!"'{name}' is not reachable from the enclosing function"
  | calleeRegister => "callee register is not a generic temporary"
  | noOpcode operator => s!"no opcode for operator {operator}"
  | noTargetBlock op b => s!"{op.name} in L{b} has no target block"
  | missingOperand op i => s!"{op.name} is missing operand {i}"
  | missingTarget op i => s!"{op.name} is missing target {i}"
  | notABlock op t => s!"{op.name} target {t.text} is not a block"
  | unknownConstant o => s!"unknown constant {o.text}"
  | notAValue o => s!"{o.text} is not a value"
  | notInterned k => s!"string constant {k} was not interned"
  | noTaggedStorage o => s!"{o.text} has no tagged storage"
  | notAnIntegerConstant o => s!"{o.text} is not an integer constant"
  | noIntegerValue o => s!"{o.text} has no integer value"
  | notANumericConstant o => s!"{o.text} is not a numeric constant"
  | noFloatValue o => s!"{o.text} has no float value"
  | notAStackRange o => s!"{o.text} is not a stack range"
  | calleeNotGeneric o => s!"callee {o.text} is not a generic temporary"
  | noExpectedCount => "call without an expected result count"
  | notAProc => "closure operand is not a proc"
  | notAChild p => s!"Proc%{p} is not a child"
  | notAStringKey o => s!"{o.text} is not a string constant key"

/-- The operand a reason shows. -/
def operand? : Reason → Option Operand
  | notABlock _ o | unknownConstant o | notAValue o | noTaggedStorage o | notAnIntegerConstant o
  | noIntegerValue o | notANumericConstant o | noFloatValue o | notAStackRange o
  | calleeNotGeneric o | notAStringKey o => some o
  | _ => none

end Reason

/-- Why the runtime refused a request. -/
inductive HostFault where
  | unknownPrototype (proto : Nat)
  | functionNotFound (name : String)
  | compileFailed (reason : String)
deriving DecidableEq, Repr

def HostFault.text : HostFault → String
  | unknownPrototype p => s!"unknown prototype {p}"
  | functionNotFound name => s!"function {name} not found in compiled module"
  | compileFailed reason => reason

/-- Why a unit is refused. -/
inductive CompileError where
  | unimplemented (feature : Feature)
  | unterminatedBlock (proc block : Nat)
  | invalidOperand (proc : Nat) (reason : Reason)
  /-- An assignment to something that was not loaded. -/
  | unexpectedOpcode (opcode : Opcode)
  | unknownSymbol (id : Nat)
  | host (fault : HostFault)
deriving DecidableEq, Repr

def CompileError.message : CompileError → String
  | unimplemented f => s!"Unimplemented language feature: {f.text}"
  | unterminatedBlock p b => s!"Block {b} of proc {p} does not end in a branch or return"
  | invalidOperand p r => s!"Invalid operand in proc {p}: {r.text}"
  | unexpectedOpcode op => s!"Unexpected opcode {op.name} in assignment"
  | unknownSymbol id => s!"Unknown symbol id {id}"
  | host f => s!"Host callback failed: {f.text}"

inductive Failure where
  | refused (error : CompileError)
  | stopped (breach : Breach)
deriving DecidableEq, Repr

/-- A complaint about an operand. An operand that has no text cannot be complained about. -/
def Failure.invalid (proc : Nat) (reason : Reason) : Failure :=
  match reason.operand? with
  | some o => if o.isShown then .refused (.invalidOperand proc reason) else .stopped .overflow
  | none => .refused (.invalidOperand proc reason)

end ScriptC
