import ScriptC.Proc

/-! # Stack frames

The locals of a function take the first slots of its frame, the generic temporaries follow. Native
temporaries take no slot.
-/

namespace ScriptC

structure Frame where
  numLocals : Nat
  /-- Slots to reserve above the base of the function. -/
  size : Nat
deriving DecidableEq, Repr

namespace Frame

/-- The number of a slot has 32 bits. -/
def checked (slot : Nat) : Except Breach Nat :=
  if slot < wordLimit then .ok slot else .error .overflow

section

variable (f : Frame)

/-- Where an operand lies in the frame. -/
def position : Operand → Option Nat
  | .symbol (.localVar _ reg _) => some reg
  | .tempAny r => some (f.numLocals + r)
  | .range base _ => some (f.numLocals + base)
  | .select base index => some (f.numLocals + base + index)
  | _ => none

def slot? (o : Operand) : Except Breach (Option Nat) :=
  match f.position o with
  | some s => some <$> checked s
  | none => .ok none

def widen (reach : Nat) : Except Breach Frame := do
  return { f with size := max f.size (← checked reach) }

/-- Make room for a selection. -/
def fitOperand (o : Operand) : Except Breach Frame :=
  match o with
  | .select .. => do
    match ← f.slot? o with
    | some s => f.widen (s + 1)
    | none => return f
  | _ => .ok f

/-- The number of results a call asks for, if it is positive. -/
def expected (p : Proc) (i : Instr) : Option Nat :=
  match i.targets[1]?.bind p.constant? with
  | some (.integer n) => if 0 < n then some (n.toInt.toNat % wordLimit) else none
  | _ => none

/-- Make room for the arguments and the results of a call. -/
def fitCall (p : Proc) (i : Instr) : Except Breach Frame :=
  match i.operands with
  | callee :: args => do
    match ← f.slot? callee with
    | none => return f
    | some s =>
      let f ← f.widen (s + 1 + (args.filter fun a => !a.isOpenRange).length)
      match expected p i with
      | some n => f.widen (s + n)
      | none => return f
  | [] => .ok f

def fitInstr (p : Proc) (i : Instr) : Except Breach Frame := do
  let f ← (i.operands ++ i.targets).foldlM fitOperand f
  if i.opcode = .call then f.fitCall p i else return f

end

/-- The frame of a proc. -/
def compute (p : Proc) : Except Breach Frame := do
  let size ← checked (p.numLocals + p.maxTemps .any)
  p.instrs.toList.foldlM (fun f i => f.fitInstr p i) ⟨p.numLocals, size⟩

end Frame

end ScriptC
