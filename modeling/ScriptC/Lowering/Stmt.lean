import ScriptC.Lowering.Expr

/-! # Lowering of statements

One combinator for each form of statement, on the lowerings of its parts.
-/

namespace ScriptC.Lower

section Values

/-- The values of an expression list, and what to return afterwards. -/
structure ValueList where
  values : List (Operand × TypeTag) := []
  owned : List Operand := []

instance : Append ValueList where
  append a b := ⟨a.values ++ b.values, a.owned ++ b.owned⟩

/-- Take `count` results of a call. Those past the first stay claimed until they are released. -/
def spread (call base count : Nat) : Lower ValueList := do
  setExpected call (Int64.ofNat count)
  let beyond := List.range' (base + 1) (count - 1)
  beyond.forM fun reg => tryProc fun p => return (← p.reserveTemp reg, ())
  return ⟨(List.range count).map fun i => (.select base i, .any),
    .range base (-1) :: beyond.map .tempAny⟩

/-- The contribution of one value while `wanted` destinations are left. A call at the end of the
list fills them all; a value that none is left for is dropped. -/
def contribution (wanted : Nat) (isLast : Bool) (declared : TypeTag) (v : Value) :
    Lower ValueList := do
  if wanted = 0 then
    if let some call := v.call then setExpected call 0
    return ⟨[], [v.operand]⟩
  match v.call, v.operand with
  | some call, .range base _ =>
    if isLast ∧ 1 < wanted then spread call base wanted
    else
      let o ← single v
      return ⟨[(o, ← valueTag o declared)], [o]⟩
  | _, o => return ⟨[(o, ← valueTag o declared)], [o]⟩

/-- Evaluate an expression list for `wanted` destinations. -/
def values : Nat → List Part → Lower ValueList
  | _, [] => return {}
  | wanted, part :: rest => do
    let v ← part.value
    let head ← contribution wanted rest.isEmpty part.ty.tag v
    return head ++ (← values (wanted - 1) rest)

end Values

section Scopes

/-- Run `body` in a scope of its own. -/
def inScope (body : Lower Unit) : Lower Unit := do
  openScope
  body
  closeScope

/-- Run `body` with breaks leading to `exit`. -/
def withExit (exit : Nat) (body : Lower Unit) : Lower Unit := do
  modifyFn fun fn => { fn with exits := exit :: fn.exits }
  body
  modifyFn fun fn => { fn with exits := fn.exits.tail }

/-- Run statements until one ends the block: what follows it cannot be reached. -/
def sequence : List (Lower Unit) → Lower Unit
  | [] => return
  | s :: rest => do
    unless ← isTerminated do
      s
      sequence rest

/-- Evaluate a condition and branch on it. -/
def test (cond : Part) (onTrue onFalse : Nat) : Lower Unit := do
  let value ← one cond
  free value
  emit .cbr [value] [.block onTrue, .block onFalse]

end Scopes

section Declarations

variable (symbols : SymbolTable)

/-- What a local starts with when no expression supplies a value. -/
def defaultValue (dest : Operand) : Lower (Operand × TypeTag) := do
  match destTag dest with
  | .integer => return (← intConstant 0, .integer)
  | .number => return (← constant (.number ⟨0⟩), .number)
  | _ => return (.nil, .nil)

def initialise : List Operand → List (Operand × TypeTag) → Lower Unit
  | [], _ => return
  | dest :: rest, (value, tag) :: vs => do
    move value tag dest
    initialise rest vs
  | dest :: rest, [] => do
    let (value, tag) ← defaultValue dest
    move value tag dest
    initialise rest []

def declare (vars : List SymbolId) (exprs : List Part) : Lower Unit := do
  let list ← values vars.length exprs
  let locals ← vars.mapM (declareLocal symbols)
  initialise locals list.values
  freeAll list.owned

/-- The function is lowered with its own name in scope. -/
def declareFunction (var : SymbolId) (func : Lower Nat) : Lower Unit := do
  let dest ← declareLocal symbols var
  let function ← closure func
  free function
  move function .closure dest

end Declarations

section Assignments

variable (symbols : SymbolTable)

/-- What an assignment writes to. -/
inductive Target where
  /-- A local or an upvalue, written by a move. -/
  | variable (dest : Operand)
  /-- A global or an element: the load that turns into a store, its result, and the container and
  the key, which stay live until then. -/
  | element (load : Nat) (result : Operand) (held : List Operand)

def symbolTarget (id : SymbolId) : Lower Target := do
  let s ← symbol symbols id
  match s.kind with
  | .global =>
    let (result, load) ← loadGlobal s.name
    return .element load result []
  | _ => return .variable (← readSymbol symbols id)

def indexTarget (object key : Part) : Lower Target := do
  let container ← one object
  let k ← one key
  let sel := Selection.load object.ty (← keyClass k key.ty)
  let result ← allocTemp sel.result
  let load ← emitId sel.opcode [container, k] [result]
  return .element load result [container, k]

/-- Turn a load into the store of `value`, moved to the end of the current block so that it runs
after the right-hand side. -/
def turnIntoStore (load : Nat) (value : Operand) : Lower Unit := do
  ensureOpen
  let fn := (← get).fn
  let some instr := fn.proc.instrs[load]? | throw (.stopped .outOfBounds)
  let some opcode := instr.opcode.storeCounterpart?
    | throw (.refused (.unexpectedOpcode instr.opcode))
  onProc fun p =>
    ({ p with instrs := p.instrs.modify load fun i =>
        { i with opcode, operands := i.operands ++ [value], targets := [] } }, ())
  tryProc fun p => return (← p.relocate load fn.block, ())
  modifyStats (·.loadTurned)

/-- A variable that is read keeps its old value until every target has been written. -/
def snapshot (entry : Operand × TypeTag) : Lower ValueList := do
  let (value, tag) := entry
  match value with
  | .symbol (.localVar ..) | .symbol (.upvalue ..) =>
    let copy ← allocTemp (match tag with
      | .integer => .int
      | .number => .float
      | _ => .any)
    move value tag copy
    return ⟨[(copy, tag)], [copy]⟩
  | _ => return ⟨[entry], []⟩

def snapshots : List (Operand × TypeTag) → Lower ValueList
  | [] => return {}
  | entry :: rest => do
    let head ← snapshot entry
    return head ++ (← snapshots rest)

def write (target : Target) (value : Operand) (tag : TypeTag) : Lower Unit :=
  match target with
  | .variable dest => move value tag dest
  | .element load _ _ => turnIntoStore load value

/-- Write the targets, the last first; one without a value is set to nil. -/
def writeAll : List Target → List (Operand × TypeTag) → Lower Unit
  | [], _ => return
  | t :: ts, vs => do
    writeAll ts vs.tail
    let (value, tag) := vs.headD (.nil, .nil)
    write t value tag

def releaseTarget : Target → Lower Unit
  | .variable _ => return
  | .element _ result held => do
    free result
    freeAll held

def assign (targets : List (Lower Target)) (exprs : List Part) : Lower Unit := do
  let ts ← targets.mapM id
  let list ← values ts.length exprs
  let list ←
    if 1 < ts.length then do
      let copies ← snapshots list.values
      pure ⟨copies.values, list.owned ++ copies.owned⟩
    else pure list
  writeAll ts list.values
  freeAll list.owned
  ts.reverse.forM releaseTarget

end Assignments

section Simple

/-- Evaluate for the effect only. -/
def eval (part : Part) : Lower Unit := do
  let v ← part.value
  if let some call := v.call then setExpected call 0
  free v.operand

/-- What is returned: all results of a call that stands last, otherwise one value each. -/
def results : List Part → Lower (List Operand)
  | [] => return []
  | [part] => return [(← part.value).operand]
  | part :: rest => do
    let o ← one part
    return o :: (← results rest)

def ret (exprs : List Part) : Lower Unit := do
  let os ← results exprs
  emit .ret os [.block exitBlock]
  freeAll os

def leave : Lower Unit := do
  match (← get).fn.exits with
  | exit :: _ => emit .br [] [.block exit]
  | [] => invalid .breakOutsideLoop

def unimplemented {α : Type} (feature : Feature) : Lower α :=
  throw (.refused (.unimplemented feature))

end Simple

section Branches

/-- One clause: test in the current block, body in `body`. -/
def clause (cond : Part) (contents : Lower Unit) (body otherwise done : Nat) : Lower Unit := do
  test cond body otherwise
  startBlock body
  inScope contents
  branchTo done

/-- The clauses in order. The body of each has its block in `bodies`; the test of each but the
first starts a block of `tests`, and the last one that fails leads to `otherwise`. -/
def clauses (otherwise done : Nat) : List (Part × Lower Unit) → List Nat → List Nat → Lower Unit
  | (cond, contents) :: rest, body :: bodies, next :: tests => do
    clause cond contents body next done
    startBlock next
    clauses otherwise done rest bodies tests
  | (cond, contents) :: _, body :: _, [] => clause cond contents body otherwise done
  | _, _, _ => return

def branch (cases : List (Part × Lower Unit)) (otherwise : Option (Lower Unit)) :
    Lower Unit := do
  let done ← newBlock
  let bodies ← newBlocks cases.length
  let tests ← newBlocks (cases.length - 1)
  match otherwise with
  | none =>
    clauses done done cases bodies tests
  | some contents =>
    let block ← newBlock
    clauses block done cases bodies tests
    startBlock block
    inScope contents
    branchTo done
  startBlock done

end Branches

section Loops

variable (symbols : SymbolTable)

def whileLoop (cond : Part) (contents : Lower Unit) : Lower Unit := do
  let condBlock ← newBlock
  let body ← newBlock
  let done ← newBlock
  startBlock condBlock
  test cond body done
  startBlock body
  withExit done (inScope contents)
  branchTo condBlock
  startBlock done

/-- The condition is evaluated inside the scope of the body. -/
def repeatLoop (contents : Lower Unit) (cond : Part) : Lower Unit := do
  let body ← newBlock
  let done ← newBlock
  startBlock body
  withExit done (inScope do
    contents
    test cond done body)
  startBlock done

/-- The body of a numeric loop. The loop variable is a fresh local in every iteration. -/
def loopBody (var : SymbolId) (index : Operand) (tag : TypeTag) (contents : Lower Unit)
    (exit : Nat) : Lower Unit :=
  inScope do
    let dest ← declareLocal symbols var
    move index tag dest
    withExit exit contents

/-- Compare in a temporary and branch on the outcome. -/
def compare (opcode : Opcode) (operands : List Operand) (onTrue onFalse : Nat) : Lower Unit := do
  let outcome ← allocTemp .any
  emit opcode operands [outcome]
  free outcome
  emit .cbr [outcome] [.block onTrue, .block onFalse]

/-- Advance the index and go back to the test, unless the body has ended. -/
def advance (opcode : Opcode) (index step : Operand) (testBlock : Nat) : Lower Unit := do
  unless ← isTerminated do
    emit opcode [index, step] [index]
    emit .br [] [.block testBlock]

/-- An integer loop with a constant step keeps its index in a native integer. -/
def integerFor (var : SymbolId) (start limit : Part) (step : Int64) (contents : Lower Unit) :
    Lower Unit := do
  let first ← one start
  let last ← one limit
  let index ← allocTemp .int
  let bound ← allocTemp .int
  move first .integer index
  move last .integer bound
  free last
  free first
  let stride ← intConstant step
  let testBlock ← newBlock
  let body ← newBlock
  let done ← newBlock
  startBlock testBlock
  compare .leII (if 0 ≤ step then [index, bound] else [bound, index]) body done
  startBlock body
  loopBody symbols var index .integer contents done
  advance .addII index stride testBlock
  startBlock done
  free bound
  free index

/-- A loop whose step has a sign known only at run time. -/
def taggedFor (var : SymbolId) (start limit : Part) (step : Option Part) (contents : Lower Unit) :
    Lower Unit := do
  let first ← one start
  let last ← one limit
  let (increment, tag) ← match step with
    | some part => pure (← one part, part.ty.tag)
    | none => pure (← intConstant 1, .integer)
  let index ← allocTemp .any
  let bound ← allocTemp .any
  let stride ← allocTemp .any
  move first start.ty.tag index
  move last limit.ty.tag bound
  move increment tag stride
  free increment
  free last
  free first
  let zero ← intConstant 0
  let testBlock ← newBlock
  let ascending ← newBlock
  let descending ← newBlock
  let body ← newBlock
  let done ← newBlock
  startBlock testBlock
  compare .lt [stride, zero] descending ascending
  startBlock ascending
  compare .le [index, bound] body done
  startBlock descending
  compare .le [bound, index] body done
  startBlock body
  loopBody symbols var index .any contents done
  advance .add index stride testBlock
  startBlock done
  free stride
  free bound
  free index

/-- A numeric loop; `constant` is its step if that is known. -/
def numericFor (var : SymbolId) (start limit : Part) (step : Option Part)
    (constant : Option Int64) (contents : Lower Unit) : Lower Unit :=
  match constant with
  | some n =>
    if start.ty.isInteger ∧ limit.ty.isInteger then integerFor symbols var start limit n contents
    else taggedFor symbols var start limit step contents
  | none => taggedFor symbols var start limit step contents

end Loops

end ScriptC.Lower
