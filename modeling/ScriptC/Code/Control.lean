import ScriptC.Code.Context

/-! # Code of branches, calls and returns

A call or a return may forward values up to the top of the stack, whose number is only known at
run time. They are moved between two places that are known when the code is generated.
-/

namespace ScriptC.CodeContext

variable (c : CodeContext)

def conditional (i : Instr) : Except Failure (List Code) := do
  let cond ← c.operand i 0
  let onTrue ← c.blockTarget i 0
  let onFalse ← c.blockTarget i 1
  match ← c.falsity cond with
  | .inl true => return [.goto onFalse]
  | .inl false => return [.goto onTrue]
  | .inr a => return [.branch a onTrue onFalse]

/-- Arguments or results: those of fixed number, and the values up to the top of the stack that
may follow them. -/
def splitTail (os : List Operand) : List Operand × Option Operand :=
  match os.getLast? with
  | some o => if o.isOpenRange then (os.dropLast, some o) else (os, none)
  | none => (os, none)

/-- A range narrowed to one value stands for its first. -/
def narrowed : Operand → Operand
  | .range base 1 => .select base 0
  | o => o

def tailSlot (o : Operand) : Except Failure Nat := do
  match ← c.slot? o with
  | some s => return s
  | none => c.invalid (.notAStackRange o)

/-- Count the values of a tail and move them to `dest`. -/
def moveTail (tail : Option Operand) (dest : Int) : Except Failure (List Code) :=
  match tail with
  | some o => do
    let s ← c.tailSlot o
    return [.countTail s, .copyTail dest s]
  | none => .ok []

/-- Results go to the slot of the function and those above it. The fixed ones are set aside
before anything there is overwritten. -/
def ret (i : Instr) : Except Failure (List Code) := do
  let (fixed, tail) := splitTail i.operands
  let n := fixed.length
  let kept ← fixed.zipIdx.mapM fun (o, j) => c.store (.kept j) (narrowed o)
  let moved ← c.moveTail tail (n - 1)
  return [.scope ((if n = 0 then [] else [.keep n]) ++ kept ++ moved ++
    (List.range n).map (fun j => .copy (.result j) (.kept j)) ++
    [.setResults n tail.isSome, .goto exitBlock])]

/-- Arguments go above the function: the tail first, then the fixed ones from the last to the
first. -/
def call (i : Instr) : Except Failure (List Code) := do
  let callee ← c.operand i 0
  let func ← match callee with
    | .tempAny _ => c.tailSlot callee
    | _ => c.invalid (.calleeNotGeneric callee)
  let expected ← match c.proc.constant? (← c.target i 1) with
    | some (.integer n) => pure n
    | _ => c.invalid .noExpectedCount
  let (fixed, tail) := splitTail i.operands.tail
  let n := fixed.length
  let moved ← c.moveTail tail (func + 1 + n)
  let args ← fixed.zipIdx.reverse.mapM fun (o, j) => c.store (.argument (j + 1)) (narrowed o)
  return [.scope (.setCallee func :: moved ++ args ++
    [.setTop (n + 1) tail.isSome, .call expected, .reloadBase] ++
    if 0 ≤ expected then [.restoreTop] else [])]

def closure (i : Instr) : Except Failure (List Code) := do
  match ← c.operand i 0 with
  | .proc child =>
    match c.children.idxOf? child with
    | some index =>
      let dest ← c.address (← c.target i 0)
      return [.invoke .closure [.state, .closure, .base, .number index, .address dest]]
    | none => c.invalid (.notAChild child)
  | _ => c.invalid .notAProc

end ScriptC.CodeContext
