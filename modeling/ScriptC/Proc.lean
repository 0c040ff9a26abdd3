import ScriptC.Constant
import ScriptC.Dominators
import ScriptC.Opcode
import ScriptC.Registers

/-! # Procs

One compiled function: instructions, the blocks that list them in execution order, and the
registers they use. Block 0 is the entry, block 1 the exit.
-/

namespace ScriptC

structure Instr where
  opcode : Opcode
  operands : List Operand
  targets : List Operand
  /-- The block that holds the instruction. -/
  block : Nat
deriving DecidableEq, Repr, Inhabited

/-- How a closure reaches one of its upvalues. -/
structure Upvalue where
  name : String
  tag : TypeTag
  /-- A local register of the parent, or an index into the upvalues of the parent. -/
  source : Nat
  inParentLocal : Bool
deriving DecidableEq, Repr, Inhabited

def entryBlock : Nat := 0

def exitBlock : Nat := 1

structure Proc where
  id : Nat
  parent : Option Nat
  name : Option String := none
  /-- Instruction ids of each block. -/
  blocks : Array (List Nat) := #[[], []]
  instrs : Array Instr := #[]
  constants : ConstantPool := {}
  upvalues : List Upvalue := []
  params : Nat := 0
  isVararg : Bool := false
  locals : Registers := {}
  ints : Registers := {}
  floats : Registers := {}
  anys : Registers := {}
  flow : Option Flow := none
deriving DecidableEq, Repr, Inhabited

namespace Proc

section Blocks

variable (p : Proc)

def newBlock : Proc × Nat := ({ p with blocks := p.blocks.push [] }, p.blocks.size)

/-- The instructions of a block in execution order. -/
def blockInstrs (b : Nat) : List Instr := (p.blocks.getD b []).filterMap (p.instrs[·]?)

def lastInstr? (b : Nat) : Option Instr := (p.blocks.getD b []).getLast?.bind (p.instrs[·]?)

def isTerminated (b : Nat) : Bool :=
  match p.lastInstr? b with
  | some i => i.opcode.isTerminator
  | none => false

/-- Append an instruction to a block. -/
def emit (b : Nat) (opcode : Opcode) (operands targets : List Operand) :
    Except Breach (Proc × Nat) :=
  if b < p.blocks.size then
    .ok ({ p with
      instrs := p.instrs.push ⟨opcode, operands, targets, b⟩
      blocks := p.blocks.modify b (· ++ [p.instrs.size]) }, p.instrs.size)
  else .error .outOfBounds

/-- Move an instruction to the end of a block. -/
def relocate (i b : Nat) : Except Breach Proc :=
  match p.instrs[i]? with
  | none => .error .outOfBounds
  | some instr =>
    if instr.block < p.blocks.size ∧ b < p.blocks.size then
      .ok { p with
        blocks := (p.blocks.modify instr.block (·.filter (· != i))).modify b (· ++ [i])
        instrs := p.instrs.modify i fun instr => { instr with block := b } }
    else .error .outOfBounds

/-- Replace a target of an instruction, if it has that many. -/
def setTarget (i k : Nat) (o : Operand) : Except Breach Proc :=
  if i < p.instrs.size then
    .ok { p with instrs := p.instrs.modify i fun instr =>
      { instr with targets := instr.targets.set k o } }
  else .error .outOfBounds

end Blocks

section Registers

variable (p : Proc)

def pool : TempKind → Registers
  | .int => p.ints
  | .float => p.floats
  | .any => p.anys

def setPool (kind : TempKind) (r : Registers) : Proc :=
  match kind with
  | .int => { p with ints := r }
  | .float => { p with floats := r }
  | .any => { p with anys := r }

def allocTemp (kind : TempKind) : Proc × Operand :=
  let (r, reg) := (p.pool kind).alloc
  (p.setPool kind r, .temp kind reg)

/-- The pool register an operand owns. An open range and a selection own the generic temporary
they start at; constants, variables and closed ranges own nothing. -/
def owned? : Operand → Option (TempKind × Nat)
  | .tempInt r => some (.int, r)
  | .tempFloat r => some (.float, r)
  | .tempAny r => some (.any, r)
  | .range base (-1) => some (.any, base)
  | .select base _ => some (.any, base)
  | _ => none

/-- Return what an operand owns. -/
def freeTemp (o : Operand) : Except Breach Proc :=
  match owned? o with
  | some (kind, reg) => do return p.setPool kind (← (p.pool kind).release reg)
  | none => .ok p

/-- Claim one generic temporary, such as a call result beyond the first. -/
def reserveTemp (reg : Nat) : Except Breach Proc := do
  return p.setPool .any (← p.anys.take reg)

def allocLocal : Proc × Nat :=
  let (locals, reg) := p.locals.alloc
  ({ p with locals }, reg)

def freeLocal (reg : Nat) : Except Breach Proc := do
  return { p with locals := ← p.locals.release reg }

def numLocals : Nat := p.locals.next

def maxTemps (kind : TempKind) : Nat := (p.pool kind).next

def liveTemps (kind : TempKind) : Nat := (p.pool kind).live

end Registers

section Constants

variable (p : Proc)

/-- The operand of a constant, and whether the constant is new to the pool. -/
def intern (c : Constant) : Proc × Operand × Bool :=
  let (constants, index, inserted) := p.constants.intern c
  ({ p with constants }, .constant index, inserted)

def constant? : Operand → Option Constant
  | .constant k => p.constants.get? k
  | _ => none

end Constants

section Listing

variable (p : Proc)

/-- An operand with the value of its constant. -/
def operandText (o : Operand) : String :=
  match o, p.constant? o with
  | .constant index, some c => c.text index
  | _, _ => o.text

def operandsText (os : List Operand) : String :=
  if os = [] then "" else " \x7b" ++ String.intercalate ", " (os.map p.operandText) ++ "\x7d"

def instrText (i : Instr) : String :=
  s!"\t{i.opcode.name}" ++ p.operandsText i.operands ++ p.operandsText i.targets ++ "\n"

def blockTitle (b : Nat) : String :=
  if b = entryBlock then s!"L{b} (entry)\n"
  else if b = exitBlock then s!"L{b} (exit)\n"
  else s!"L{b}\n"

def title : String :=
  match p.name with
  | some name => s!"define Proc%{p.id} ({name})\n"
  | none => s!"define Proc%{p.id}\n"

def listing : String :=
  p.title ++ String.join ((List.range p.blocks.size).map fun b =>
    blockTitle b ++ String.join ((p.blockInstrs b).map p.instrText))

/-- Every operand has a text. -/
def isShown : Bool :=
  (List.range p.blocks.size).all fun b =>
    (p.blockInstrs b).all fun i => (i.operands ++ i.targets).all (·.isShown)

end Listing

end Proc

/-- All procs of one compilation unit; the first is the root. A proc is numbered after its
parent. -/
structure Module where
  procs : Array Proc := #[]
deriving DecidableEq, Repr, Inhabited

namespace Module

/-- Create a proc as the next child of `parent`. -/
def newProc (m : Module) (parent : Option Nat) : Except Breach (Module × Nat) :=
  let id := m.procs.size
  if parent.all (· ≤ id) then .ok (⟨m.procs.push { id, parent }⟩, id)
  else .error .outOfBounds

def root? (m : Module) : Option Nat := if m.procs.isEmpty then none else some 0

/-- The procs that name `p` as their parent, in the order of their creation. -/
def children (m : Module) (p : Nat) : List Nat :=
  (m.procs.toList.filter (·.parent == some p)).map (·.id)

def childIndex? (m : Module) (p child : Nat) : Option Nat := (m.children p).idxOf? child

/-- The listing of every proc. -/
def listing (m : Module) : Except Breach String :=
  if m.procs.all (·.isShown) then .ok (String.join (m.procs.toList.map (·.listing)))
  else .error .overflow

end Module

end ScriptC
