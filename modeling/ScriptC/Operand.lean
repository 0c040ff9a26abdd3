import ScriptC.Breach
import ScriptC.Ty

/-! # Operands

What an instruction reads, writes or jumps to. Locals and generic temporaries live on the stack,
native temporaries hold an integer or a float outside it.
-/

namespace ScriptC

/-- The largest number of distinct registers, slots or ids. -/
abbrev wordLimit : Nat := 4294967296

/-- A variable as an instruction sees it. -/
inductive SymbolRef where
  | localVar (name : String) (reg : Nat) (tag : TypeTag)
  /-- A captured variable at `index` in the upvalue array of the closure. -/
  | upvalue (name : String) (index : Nat) (tag : TypeTag)
  | globalVar (name : String)
deriving DecidableEq, Repr

namespace SymbolRef

def name : SymbolRef → String
  | localVar name _ _ | upvalue name _ _ | globalVar name => name

def tag : SymbolRef → TypeTag
  | localVar _ _ tag | upvalue _ _ tag => tag
  | globalVar _ => .any

end SymbolRef

/-- The pool a temporary is drawn from. -/
inductive TempKind where
  | int
  | float
  | any
deriving DecidableEq, Repr

inductive Operand where
  | symbol (ref : SymbolRef)
  | tempInt (reg : Nat)
  | tempFloat (reg : Nat)
  | tempAny (reg : Nat)
  /-- Index into the constant pool of the proc. -/
  | constant (index : Nat)
  | proc (id : Nat)
  | nil
  | true
  | false
  | block (id : Nat)
  /-- `count` values from the generic temporary `base` on; `-1` reaches to the stack top. -/
  | range (base : Nat) (count : Int)
  /-- Value `index` of the range that starts at `base`. -/
  | select (base index : Nat)
deriving DecidableEq, Repr, Inhabited

/-- A register space. -/
inductive Space where
  | locals
  | upvalues
  | ints
  | floats
  | stack
deriving DecidableEq, Repr

namespace Operand

def temp : TempKind → Nat → Operand
  | .int => tempInt
  | .float => tempFloat
  | .any => tempAny

def isTemp : Operand → Bool
  | tempInt _ | tempFloat _ | tempAny _ => Bool.true
  | _ => Bool.false

/-- The results of a call whose number is only known at run time. -/
def isOpenRange : Operand → Bool
  | range _ (-1) => Bool.true
  | _ => Bool.false

def block? : Operand → Option Nat
  | block id => some id
  | _ => none

/-- The register an operand names, if it names one. -/
def storage : Operand → Option (Space × Nat)
  | symbol (.localVar _ reg _) => some (.locals, reg)
  | symbol (.upvalue _ index _) => some (.upvalues, index)
  | tempInt r => some (.ints, r)
  | tempFloat r => some (.floats, r)
  | tempAny r | range r _ => some (.stack, r)
  | select base index => some (.stack, base + index)
  | _ => none

/-- Both operands name the same register of the same space. Constants, sentinels and globals
share storage with nothing. -/
def sameStorage (a b : Operand) : Bool := a.storage.isSome && a.storage == b.storage

/-- The register of a selection has a number of 32 bits. -/
def inReach : Operand → Bool
  | select base index => decide (base + index < wordLimit)
  | _ => Bool.true

/-- The first register after a closed range, the count taken modulo the number of registers. -/
def rangeEnd (base : Nat) (count : Int) : Nat := base + (count % (wordLimit : Int)).toNat

/-- The operand has a text: the end of a closed range is a number of 32 bits. -/
def isShown : Operand → Bool
  | range _ (-1) => Bool.true
  | range base count => decide (rangeEnd base count < wordLimit)
  | _ => Bool.true

/-- The operand in a listing. -/
def text : Operand → String
  | symbol (.localVar name reg _) => s!"local({name}, {reg})"
  | symbol (.upvalue name index _) => s!"Upval({name}, {index})"
  | symbol (.globalVar name) => s!"global({name})"
  | tempInt r => s!"Tint({r})"
  | tempFloat r => s!"Tflt({r})"
  | tempAny r => s!"T({r})"
  | constant k => s!"K({k})"
  | proc p => s!"Proc%{p}"
  | nil => "nil"
  | true => "true"
  | false => "false"
  | block b => s!"L{b}"
  | range base (-1) => s!"T({base}..)"
  | range base count => s!"T({base}..{rangeEnd base count})"
  | select base index => s!"T({base}[{index}])"

/-- The text of an operand that has one. -/
def text? (o : Operand) : Except Breach String :=
  if o.isShown then .ok o.text else .error .overflow

/-- Whether two operands share storage, for registers with numbers of 32 bits. -/
def sharesStorage (a b : Operand) : Except Breach Bool :=
  if a.inReach && b.inReach then .ok (a.sameStorage b) else .error .overflow

end Operand

end ScriptC
