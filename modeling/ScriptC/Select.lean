import ScriptC.Opcode
import ScriptC.Operand
import ScriptC.Tree

/-! # Choice of opcodes

Every specialised opcode is chosen by the operator and the static classes of its operands.
-/

namespace ScriptC

/-- What specialisation asks of an operand. -/
inductive OperandClass where
  | int
  | float
  | other
deriving DecidableEq, Repr

def OperandClass.of : Ty → OperandClass
  | .integer => int
  | .number => float
  | _ => other

/-- An opcode and the pool its result comes from. -/
structure Selection where
  opcode : Opcode
  result : TempKind
deriving DecidableEq, Repr

/-- An operator that has opcodes, and what to do to arrive at it. -/
structure Canonical where
  op : BinaryOp
  /-- The operands change places. -/
  swap : Bool
  /-- The result is negated. -/
  negate : Bool
deriving DecidableEq, Repr

/-- Greater-than is less-than with the operands swapped, unequal is equal negated, and a sum or
product of a float and an integer has its float second. -/
def Canonical.of (op : BinaryOp) (lhs rhs : OperandClass) : Canonical :=
  match op, lhs, rhs with
  | .gt, _, _ => ⟨.lt, true, false⟩
  | .ge, _, _ => ⟨.le, true, false⟩
  | .ne, _, _ => ⟨.eq, false, true⟩
  | .add, .float, .int | .mul, .float, .int => ⟨op, true, false⟩
  | _, _, _ => ⟨op, false, false⟩

namespace Selection

/-- The opcode of a canonical operator. The logical operators are control flow and have none. -/
def binary? : BinaryOp → OperandClass → OperandClass → Option Selection
  | .add, .int, .int => some ⟨.addII, .int⟩
  | .add, .int, .float => some ⟨.addIF, .float⟩
  | .add, .float, .float => some ⟨.addFF, .float⟩
  | .add, _, _ => some ⟨.add, .any⟩
  | .sub, .int, .int => some ⟨.subII, .int⟩
  | .sub, .int, .float => some ⟨.subIF, .float⟩
  | .sub, .float, .int => some ⟨.subFI, .float⟩
  | .sub, .float, .float => some ⟨.subFF, .float⟩
  | .sub, _, _ => some ⟨.sub, .any⟩
  | .mul, .int, .int => some ⟨.mulII, .int⟩
  | .mul, .int, .float => some ⟨.mulIF, .float⟩
  | .mul, .float, .float => some ⟨.mulFF, .float⟩
  | .mul, _, _ => some ⟨.mul, .any⟩
  | .div, .int, .int => some ⟨.divII, .float⟩
  | .div, .int, .float => some ⟨.divIF, .float⟩
  | .div, .float, .int => some ⟨.divFI, .float⟩
  | .div, .float, .float => some ⟨.divFF, .float⟩
  | .div, _, _ => some ⟨.div, .any⟩
  | .idiv, _, _ => some ⟨.idiv, .any⟩
  | .mod, _, _ => some ⟨.mod, .any⟩
  | .pow, _, _ => some ⟨.pow, .any⟩
  | .concat, _, _ => some ⟨.concat, .any⟩
  | .band, .int, .int => some ⟨.bandII, .int⟩
  | .band, _, _ => some ⟨.band, .any⟩
  | .bor, .int, .int => some ⟨.borII, .int⟩
  | .bor, _, _ => some ⟨.bor, .any⟩
  | .bxor, .int, .int => some ⟨.bxorII, .int⟩
  | .bxor, _, _ => some ⟨.bxor, .any⟩
  | .shl, .int, .int => some ⟨.shlII, .int⟩
  | .shl, _, _ => some ⟨.shl, .any⟩
  | .shr, .int, .int => some ⟨.shrII, .int⟩
  | .shr, _, _ => some ⟨.shr, .any⟩
  | .eq, .int, .int => some ⟨.eqII, .any⟩
  | .eq, .float, .float => some ⟨.eqFF, .any⟩
  | .eq, _, _ => some ⟨.eq, .any⟩
  | .lt, .int, .int => some ⟨.ltII, .any⟩
  | .lt, .float, .float => some ⟨.ltFF, .any⟩
  | .lt, _, _ => some ⟨.lt, .any⟩
  | .le, .int, .int => some ⟨.leII, .any⟩
  | .le, .float, .float => some ⟨.leFF, .any⟩
  | .le, _, _ => some ⟨.le, .any⟩
  | .ne, _, _ | .gt, _, _ | .ge, _, _ | .and, _, _ | .or, _, _ => none

def unary (op : UnaryOp) (operand : Ty) : Selection :=
  match op with
  | .neg => match OperandClass.of operand with
    | .int => ⟨.unmI, .int⟩
    | .float => ⟨.unmF, .float⟩
    | .other => ⟨.unm, .any⟩
  | .not => ⟨.not, .any⟩
  | .len => if operand.isArray then ⟨.lenI, .int⟩ else ⟨.len, .any⟩
  | .bnot => ⟨.bnot, .any⟩
  | .toInteger => ⟨.toInt, .int⟩
  | .toNumber => ⟨.toFlt, .float⟩
  | .toIntegerArray => ⟨.toIArray, .any⟩
  | .toNumberArray => ⟨.toFArray, .any⟩
  | .toTable => ⟨.toTable, .any⟩
  | .toString => ⟨.toString, .any⟩
  | .toClosure => ⟨.toClosure, .any⟩

end Selection

/-- The shape of an index key. -/
inductive KeyClass where
  | int
  | stringConstant
  | other
deriving DecidableEq, Repr

/-- The load of an element. -/
def Selection.load (container : Ty) (key : KeyClass) : Selection :=
  match container, key with
  | .integerArray, .int => ⟨.iarrayGet, .int⟩
  | .numberArray, .int => ⟨.farrayGet, .float⟩
  | .table, .stringConstant => ⟨.tableGetSK, .any⟩
  | .table, .int => ⟨.tableGetIK, .any⟩
  | .table, .other => ⟨.tableGet, .any⟩
  | _, .stringConstant => ⟨.getSK, .any⟩
  | _, .int => ⟨.getIK, .any⟩
  | _, .other => ⟨.get, .any⟩

/-- The conversion or guard that lets a value with tag `src` into a slot with tag `dest`. -/
def moveOpcode (dest src : TypeTag) : Opcode :=
  match dest, src with
  | .integer, .integer => .movI
  | .integer, .number => .movFI
  | .integer, _ => .toInt
  | .number, .number => .movF
  | .number, .integer => .movIF
  | .number, _ => .toFlt
  | .integerArray, .integerArray => .mov
  | .integerArray, _ => .toIArray
  | .numberArray, .numberArray => .mov
  | .numberArray, _ => .toFArray
  | .table, .table => .mov
  | .table, _ => .toTable
  | .string, .string => .mov
  | .string, _ => .toString
  | .closure, .closure => .mov
  | .closure, _ => .toClosure
  | _, _ => .mov

/-- The check of a typed parameter on entry. -/
def guardOpcode? : TypeTag → Option Opcode
  | .integer => some .toInt
  | .number => some .toFlt
  | .integerArray => some .toIArray
  | .numberArray => some .toFArray
  | .table => some .toTable
  | .string => some .toString
  | .closure => some .toClosure
  | _ => none

end ScriptC
