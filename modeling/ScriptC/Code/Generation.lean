import ScriptC.Code.Control
import ScriptC.Code.Elements
import ScriptC.Code.Operators

/-! # Code of procs

Each instruction becomes a list of statements under a comment with its name, each block a labelled
list of them.
-/

namespace ScriptC.CodeContext

variable (c : CodeContext)

/-- The code of an instruction. -/
def instr (i : Instr) : Except Failure (List Code) :=
  match i.opcode with
  | .br => do return [.goto (← c.blockTarget i 0)]
  | .cbr => c.conditional i
  | .ret => c.ret i
  | .mov => c.move i
  | .movI => c.moveInt i
  | .movF | .movIF => c.moveFloat i
  | .movFI => c.moveFloatToInt i
  | .closure => c.closure i
  | .call => c.call i
  | .newTable => c.construct .newtable i
  | .newIArray => c.construct .newiarray i
  | .newFArray => c.construct .newfarray i
  | .addII => c.intArith (.binary .add) i
  | .subII => c.intArith (.binary .sub) i
  | .mulII => c.intArith (.binary .mul) i
  | .bandII => c.intArith (.binary .band) i
  | .borII => c.intArith (.binary .bor) i
  | .bxorII => c.intArith (.binary .bxor) i
  | .shlII => c.intArith .shift i
  | .shrII => c.intArith (fun x y => .shift x (.negate y)) i
  | .addFF | .addIF => c.floatArith .add i
  | .subFF | .subFI | .subIF => c.floatArith .sub i
  | .mulFF | .mulIF => c.floatArith .mul i
  | .divFF | .divFI | .divIF | .divII => c.floatArith .div i
  | .concat => c.taggedArith .concat [] i
  | .add | .sub | .mul | .div | .idiv | .mod | .pow | .band | .bor | .bxor | .shl | .shr =>
    c.taggedArith .arith [.operator i.opcode] i
  | .eqII => c.compareInts .eq i
  | .ltII => c.compareInts .lt i
  | .leII => c.compareInts .le i
  | .eqFF => c.compareFloats .eq i
  | .ltFF => c.compareFloats .lt i
  | .leFF => c.compareFloats .le i
  | .eq => c.compareTagged .eq i
  | .lt => c.compareTagged .lt i
  | .le => c.compareTagged .le i
  | .unmI => c.negateInt i
  | .unmF => c.negateFloat i
  | .not => c.not i
  | .lenI => c.arrayLength i
  | .len => c.length i
  | .unm | .bnot => c.taggedUnary i
  | .toInt => c.castInt i
  | .toFlt => c.castFloat i
  | .toIArray => c.castTagged (.hasType · .integerArray) .integerArrayExpected i
  | .toFArray => c.castTagged (.hasType · .numberArray) .numberArrayExpected i
  | .toTable => c.castTagged (.hasType · .table) .tableExpected i
  | .toString => c.castTagged (.hasTypeOrNil · .string) .stringExpected i
  | .toClosure => c.castTagged (.hasTypeOrNil · .function) .closureExpected i
  | .loadGlobal => c.loadGlobal i
  | .iarrayGet => c.loadElement .int i
  | .farrayGet => c.loadElement .float i
  | .get | .tableGet => c.load i
  | .getIK | .tableGetIK => c.loadByInt i
  | .getSK | .tableGetSK => c.loadByString i
  | .storeGlobal => c.storeGlobal i
  | .iarraySet => c.storeElement .int i
  | .farraySet => c.storeElement .float i
  | .put | .tableSet => c.storeByKey i
  | .putIK | .tableSetIK => c.storeByInt i
  | .putSK | .tableSetSK => c.storeByString i

/-- The code of a block, each instruction under a comment with its name. -/
def block (b : Nat) : Except Failure (List Code) := do
  let parts ← (c.proc.blockInstrs b).mapM fun i => return .comment i.opcode :: (← c.instr i)
  return parts.flatten

/-- The C function of the proc. The exit block has no code of its own. -/
def unit (name : String) : Except Failure CodeUnit := do
  let blocks ← ((List.range c.proc.blocks.size).filter (· != exitBlock)).mapM fun b =>
    return (b, ← c.block b)
  return ⟨name, c.proc.maxTemps .int, c.proc.maxTemps .float, blocks⟩

end ScriptC.CodeContext
