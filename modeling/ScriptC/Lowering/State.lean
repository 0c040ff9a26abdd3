import ScriptC.Failure
import ScriptC.Proc
import ScriptC.Select
import ScriptC.Stats

/-! # State of lowering

Lowering builds the procs of a tree one function at a time. The function at hand has its proc, the
block that receives instructions, the registers of the locals in scope, the blocks that end the
enclosing loops and the variables it captures. A nested function is lowered in a state of its own,
after which the enclosing one continues where it was.
-/

namespace ScriptC

/-- The function being lowered. -/
structure FunctionState where
  proc : Proc
  function : FunctionId
  block : Nat := entryBlock
  /-- Registers of the locals in scope, innermost scope and newest local first. -/
  scopes : List (List (SymbolId × Nat)) := []
  /-- The locals in scope after each change, the latest first. -/
  history : List (List (SymbolId × Nat)) := [[]]
  /-- Where a break leads, innermost loop first. -/
  exits : List Nat := []
  /-- Captured locals in upvalue order. -/
  captures : List SymbolId := []

/-- A call as it is emitted. -/
structure CallSite where
  /-- The callee, followed by what is passed to it. -/
  operands : List Operand
  /-- The generic temporaries at that moment. -/
  pool : Registers

structure LoweringState where
  stats : Stats
  /-- The procs opened so far. The entry of a proc still being lowered holds its header only. -/
  module : Module
  fn : FunctionState
  /-- The calls emitted so far, the latest first. -/
  calls : List CallSite := []
  /-- The locals that were in scope in each proc that is finished. -/
  histories : List (Nat × List (List (SymbolId × Nat))) := []

abbrev Lower := EStateM Failure LoweringState

/-- The value of an expression. The results of a call are an open range until the consumer says
how many of them it takes. -/
structure Value where
  operand : Operand
  /-- The call whose number of results is still open. -/
  call : Option Nat := none
deriving Repr

namespace Lower

def invalid {α : Type} (reason : Reason) : Lower α := do
  throw (.invalid (← get).fn.proc.id reason)

def modifyFn (f : FunctionState → FunctionState) : Lower Unit :=
  modify fun s => { s with fn := f s.fn }

def modifyStats (f : Stats → Stats) : Lower Unit :=
  modify fun s => { s with stats := f s.stats }

/-- Run an operation on the proc at hand. -/
def onProc {α : Type} (f : Proc → Proc × α) : Lower α :=
  modifyGet fun s =>
    let (proc, a) := f s.fn.proc
    (a, { s with fn := { s.fn with proc } })

/-- Run an operation with a contract on the proc at hand. -/
def tryProc {α : Type} (f : Proc → Except Breach (Proc × α)) : Lower α := do
  match f (← get).fn.proc with
  | .ok (proc, a) =>
    modifyFn fun fn => { fn with proc }
    return a
  | .error b => throw (.stopped b)

section Blocks

def isTerminated : Lower Bool := do
  let fn := (← get).fn
  return fn.proc.isTerminated fn.block

def newBlock : Lower Nat := onProc (·.newBlock)

def newBlocks : Nat → Lower (List Nat)
  | 0 => return []
  | n + 1 => do
    let b ← newBlock
    return b :: (← newBlocks n)

def recordCall (operands : List Operand) : Lower Unit :=
  modify fun s => { s with calls := ⟨operands, s.fn.proc.anys⟩ :: s.calls }

/-- Append an instruction to the current block. -/
def append (opcode : Opcode) (operands targets : List Operand) : Lower Nat := do
  let block := (← get).fn.block
  let id ← tryProc (·.emit block opcode operands targets)
  modifyStats (·.instruction opcode.name)
  if opcode = .call then recordCall operands
  return id

/-- Make `block` current, branching to it if the block before is still open. -/
def startBlock (block : Nat) : Lower Unit := do
  unless ← isTerminated do
    discard <| append .br [] [.block block]
  modifyFn fun fn => { fn with block }

/-- Code after a terminator goes to a fresh block that nothing leads to. -/
def ensureOpen : Lower Unit := do
  if ← isTerminated then
    let block ← newBlock
    modifyFn fun fn => { fn with block }

def emitId (opcode : Opcode) (operands targets : List Operand) : Lower Nat := do
  ensureOpen
  append opcode operands targets

def emit (opcode : Opcode) (operands targets : List Operand) : Lower Unit :=
  discard <| emitId opcode operands targets

/-- Branch to `target` unless the current block has ended. -/
def branchTo (target : Nat) : Lower Unit := do
  unless ← isTerminated do
    emit .br [] [.block target]

end Blocks

section Registers

def allocTemp (kind : TempKind) : Lower Operand := onProc (·.allocTemp kind)

def free (o : Operand) : Lower Unit :=
  tryProc fun p => return (← p.freeTemp o, ())

/-- Return what operands own, the last first. -/
def freeAll (os : List Operand) : Lower Unit := os.reverse.forM free

def constant (c : Constant) : Lower Operand := do
  let (k, inserted) ← onProc (·.intern c)
  if inserted then modifyStats (·.constantInterned)
  return k

def intConstant (n : Int64) : Lower Operand := constant (.integer n)

def stringConstant (s : String) : Lower Operand := constant (.string s)

end Registers

section Values

/-- Say how many results of a call are taken. -/
def setExpected (call : Nat) (count : Int64) : Lower Unit := do
  let k ← intConstant count
  tryProc fun p => return (← p.setTarget call 1 k, ())

/-- Narrow the results of a call to the first. -/
def single (v : Value) : Lower Operand := do
  match v.call, v.operand with
  | some call, .range base _ =>
    setExpected call 1
    return .select base 0
  | _, o => return o

/-- The static type of a value, preferring what the operand itself proves. -/
def valueTag (o : Operand) (declared : TypeTag) : Lower TypeTag := do
  match o with
  | .tempInt _ => return .integer
  | .tempFloat _ => return .number
  | .nil => return .nil
  | .true | .false => return .boolean
  | .range _ _ | .select _ _ => return .any
  | .constant _ =>
    match (← get).fn.proc.constant? o with
    | some (.integer _) => return .integer
    | some (.number _) => return .number
    | some (.string _) => return .string
    | none => return declared
  | _ => return declared

/-- The type a destination demands. -/
def destTag : Operand → TypeTag
  | .tempInt _ => .integer
  | .tempFloat _ => .number
  | .symbol ref => ref.tag
  | _ => .any

/-- Copy `src` to `dest` with the conversion or guard that the destination demands. -/
def move (src : Operand) (srcTag : TypeTag) (dest : Operand) : Lower Unit := do
  unless src.sameStorage dest do
    emit (moveOpcode (destTag dest) srcTag) [src] [dest]

end Values

section Scopes

variable (symbols : SymbolTable)

def symbol (id : SymbolId) : Lower Symbol := do
  match symbols.get? id with
  | some s => return s
  | none => throw (.refused (.unknownSymbol id.toNat))

def openScope : Lower Unit := modifyFn fun fn => { fn with scopes := [] :: fn.scopes }

/-- Release the locals of the innermost scope, the newest first. -/
def closeScope : Lower Unit := do
  match (← get).fn.scopes with
  | [] => return
  | scope :: scopes =>
    modifyFn fun fn => { fn with scopes, history := scopes.flatten :: fn.history }
    scope.forM fun (_, reg) => tryProc fun p => return (← p.freeLocal reg, ())

/-- Bring a symbol into the innermost scope, in a register of its own. -/
def declareLocal (id : SymbolId) : Lower Operand := do
  let s ← symbol symbols id
  let reg ← onProc (·.allocLocal)
  match (← get).fn.scopes with
  | [] => invalid (.undeclaredScope s.name)
  | scope :: scopes =>
    modifyFn fun fn =>
      { fn with
        scopes := ((id, reg) :: scope) :: scopes
        history := ((id, reg) :: (scope :: scopes).flatten) :: fn.history }
    return .symbol (.localVar s.name reg s.ty.tag)

def lookupLocal (id : SymbolId) : Lower (Option Nat) := do
  return (← get).fn.scopes.flatten.lookup id

/-- How a nested function reaches one of its upvalues from here, and what it captures. -/
def resolveUpvalue (id : SymbolId) : Lower (Upvalue × SymbolId) := do
  let s ← symbol symbols id
  let .upvalue target _ := s.kind | invalid (.notAnUpvalue s.name)
  let captured ← symbol symbols target
  let fn := (← get).fn
  if captured.kind = .localOf fn.function then
    match ← lookupLocal target with
    | some reg => return (⟨s.name, s.ty.tag, reg, true⟩, target)
    | none => invalid (.captureNotInScope captured.name)
  else
    match fn.captures.idxOf? target with
    | some index => return (⟨s.name, s.ty.tag, index, false⟩, target)
    | none => invalid (.captureNotReachable captured.name)

/-- Declare the parameters, each with the guard its type asks for. -/
def declareParams (params : List SymbolId) : Lower Unit :=
  params.forM fun id => do
    let o ← declareLocal symbols id
    if let some guard := guardOpcode? (destTag o) then
      emit guard [o] [o]

/-- How a function reaches its upvalues; the main function has none. -/
def resolveUpvalues (f : Function) : Option Nat → Lower (List (Upvalue × SymbolId))
  | some _ => f.upvalues.mapM (resolveUpvalue symbols)
  | none => return []

def newProc (parent : Option Nat) : Lower Nat := do
  match (← get).module.newProc parent with
  | .ok (module, id) =>
    modify fun s => { s with module }
    return id
  | .error b => throw (.stopped b)

/-- Return at the end of a body, if it can be reached. -/
def returnAtEnd : Lower Unit := do
  unless ← isTerminated do
    emit .ret [] [.block exitBlock]

/-- The code of a function, in a proc of its own. -/
def functionCode (params : List SymbolId) (body : Lower Unit) : Lower Unit := do
  openScope
  declareParams symbols params
  body
  returnAtEnd
  closeScope

/-- Lower a function whose body is lowered by `body`, and return the id of its proc. -/
def function (f : Function) (parent : Option Nat) (body : Lower Unit) : Lower Nat := do
  let resolved ← resolveUpvalues symbols f parent
  let id ← newProc parent
  let saved := (← get).fn
  let proc : Proc :=
    { id, parent, name := f.name, upvalues := resolved.map (·.1), isVararg := f.isVararg,
      params := f.params.length }
  modifyFn fun _ => { proc, function := f.id, captures := resolved.map (·.2) }
  functionCode symbols f.params body
  let proc := (← get).fn.proc
  modifyStats (·.procLowered proc.blocks.size proc.instrs.size)
  modify fun s =>
    { s with
      module := ⟨s.module.procs.setIfInBounds id proc⟩
      fn := saved
      histories := (id, s.fn.history) :: s.histories }
  return id

end Scopes

end Lower

end ScriptC
