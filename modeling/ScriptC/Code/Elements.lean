import ScriptC.Code.Context

/-! # Code of loads and stores

Elements of tables are reached through the runtime, elements of typed arrays under a check of the
index.
-/

namespace ScriptC.CodeContext

variable (c : CodeContext)

def stringKey (key : Operand) : Except Failure Address :=
  match c.proc.constant? key with
  | some (.string _) => c.address key
  | _ => c.invalid (.notAStringKey key)

def loadGlobal (i : Instr) : Except Failure (List Code) := do
  let target ← c.target i 0
  let name ← c.stringKey (← c.operand i 1)
  let dest ← c.address target
  return [.invoke .getglobal [.state, .closure, .address name, .address dest]]

def loadElement (kind : ElementKind) (i : Instr) : Except Failure (List Code) := do
  let dest ← c.target i 0
  let container ← c.operand i 0
  let key ← c.operand i 1
  let (set, array) ← c.tagged container 0
  let index ← c.intValue key
  let check := Code.guard (.loadElement kind array index) .arrayOutOfBounds
  let body ← match kind with
    | .int => do pure [.declareInt .element, check, ← c.storeInt dest (.var .element)]
    | .float => do pure [.declareFloat .element, check, ← c.storeFloat dest (.var .element)]
  return set ++ [.scope body]

/-- The parts of a load: container, key and the address of the destination. -/
def loadParts (i : Instr) : Except Failure (Operand × Operand × Address) := do
  let target ← c.target i 0
  let container ← c.operand i 0
  let key ← c.operand i 1
  return (container, key, ← c.address target)

def load (i : Instr) : Except Failure (List Code) := do
  let (container, key, dest) ← c.loadParts i
  let (setT, t) ← c.tagged container 0
  let (setK, k) ← c.tagged key 1
  return setT ++ setK ++ [.invoke .gettable [.state, .address t, .address k, .address dest]]

def loadByInt (i : Instr) : Except Failure (List Code) := do
  let (container, key, dest) ← c.loadParts i
  let (setT, t) ← c.tagged container 0
  let k ← c.intValue key
  return setT ++ [.invoke .geti [.state, .address t, .int k, .address dest]]

def loadByString (i : Instr) : Except Failure (List Code) := do
  let (container, key, dest) ← c.loadParts i
  let (setT, t) ← c.tagged container 0
  let k ← c.stringKey key
  return setT ++ [.invoke .getfield [.state, .address t, .address k, .address dest]]

def storeGlobal (i : Instr) : Except Failure (List Code) := do
  let name ← c.stringKey (← c.operand i 1)
  let (set, value) ← c.tagged (← c.operand i 2) 2
  return set ++ [.invoke .setglobal [.state, .closure, .address name, .address value]]

def storeParts (i : Instr) : Except Failure (Operand × Operand × Operand) := do
  let container ← c.operand i 0
  let key ← c.operand i 1
  return (container, key, ← c.operand i 2)

/-- Read a value as an element of an integer array. -/
def readInt (value : Operand) : Except Failure (List Code) := do
  match ← c.holding value with
  | .int => return [.setInt .element (← c.intValue value)]
  | .float => return [.guard (.floatToInt (← c.floatValue value) .element) .integerExpected]
  | .tagged =>
    let a ← c.address value
    return [.guard (.isInt a) .integerExpected, .setInt .element (.tagged a)]
  | .nil | .boolean _ => return [.raise .integerExpected]

/-- Read a value as an element of a float array. -/
def readFloat (value : Operand) : Except Failure (List Code) := do
  match ← c.holding value with
  | .int | .float => return [.setFloat .element (← c.floatValue value)]
  | .tagged => return [.readNumber (← c.address value)]
  | .nil | .boolean _ => return [.raise .numberExpected]

def storeElement (kind : ElementKind) (i : Instr) : Except Failure (List Code) := do
  let (container, key, value) ← c.storeParts i
  let (set, array) ← c.tagged container 0
  let index ← c.intValue key
  let read ← match kind with
    | .int => do pure (.declareInt .element :: (← c.readInt value))
    | .float => do pure (.declareFloat .element :: (← c.readFloat value))
  return set ++ [.scope (read ++
    [.guard (.storeElement kind array index) .arrayOutOfBounds])]

def storeByKey (i : Instr) : Except Failure (List Code) := do
  let (container, key, value) ← c.storeParts i
  let (setT, t) ← c.tagged container 0
  let (setK, k) ← c.tagged key 1
  let (setV, v) ← c.tagged value 2
  return setT ++ setK ++ setV ++ [.invoke .settable [.state, .address t, .address k, .address v]]

def storeByInt (i : Instr) : Except Failure (List Code) := do
  let (container, key, value) ← c.storeParts i
  let (setT, t) ← c.tagged container 0
  let k ← c.intValue key
  let (setV, v) ← c.tagged value 2
  return setT ++ setV ++ [.invoke .seti [.state, .address t, .int k, .address v]]

def storeByString (i : Instr) : Except Failure (List Code) := do
  let (container, key, value) ← c.storeParts i
  let (setT, t) ← c.tagged container 0
  let k ← c.stringKey key
  let (setV, v) ← c.tagged value 2
  return setT ++ setV ++ [.invoke .setfield [.state, .address t, .address k, .address v]]

end ScriptC.CodeContext
