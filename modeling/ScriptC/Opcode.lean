/-! # Opcodes

Arithmetic, comparisons and element accesses have a generic form, which dispatches on tagged
values at run time, and forms for operands whose static types are integers (`I`) or floats (`F`).
-/

namespace ScriptC

/-- Group of opcodes that generate code of one shape. -/
inductive Family where
  | control
  | move
  | arith
  | bitwise
  | compare
  | unary
  | cast
  | load
  | store
  | call
  | closure
  | constructor
deriving DecidableEq, Repr

inductive Opcode where
  | ret
  | br
  | cbr
  | mov
  | movI
  | movF
  | movIF
  | movFI
  | closure
  | call
  | newTable
  | newIArray
  | newFArray
  | add
  | addFF
  | addIF
  | addII
  | sub
  | subFF
  | subFI
  | subIF
  | subII
  | mul
  | mulFF
  | mulIF
  | mulII
  | div
  | divFF
  | divFI
  | divIF
  | divII
  | idiv
  | mod
  | pow
  | concat
  | band
  | bandII
  | bor
  | borII
  | bxor
  | bxorII
  | shl
  | shlII
  | shr
  | shrII
  | eq
  | eqII
  | eqFF
  | lt
  | ltII
  | ltFF
  | le
  | leII
  | leFF
  | unm
  | unmI
  | unmF
  | not
  | len
  | lenI
  | bnot
  | toInt
  | toFlt
  | toIArray
  | toFArray
  | toTable
  | toString
  | toClosure
  | loadGlobal
  | get
  | getIK
  | getSK
  | tableGet
  | tableGetIK
  | tableGetSK
  | iarrayGet
  | farrayGet
  | storeGlobal
  | put
  | putIK
  | putSK
  | tableSet
  | tableSetIK
  | tableSetSK
  | iarraySet
  | farraySet
deriving DecidableEq, Repr, Inhabited

namespace Opcode

def all : List Opcode := [
  .ret, .br, .cbr, .mov, .movI, .movF, .movIF, .movFI, .closure, .call, .newTable, .newIArray,
  .newFArray, .add, .addFF, .addIF, .addII, .sub, .subFF, .subFI, .subIF, .subII, .mul, .mulFF,
  .mulIF, .mulII, .div, .divFF, .divFI, .divIF, .divII, .idiv, .mod, .pow, .concat, .band,
  .bandII, .bor, .borII, .bxor, .bxorII, .shl, .shlII, .shr, .shrII, .eq, .eqII, .eqFF, .lt,
  .ltII, .ltFF, .le, .leII, .leFF, .unm, .unmI, .unmF, .not, .len, .lenI, .bnot, .toInt, .toFlt,
  .toIArray, .toFArray, .toTable, .toString, .toClosure, .loadGlobal, .get, .getIK, .getSK,
  .tableGet, .tableGetIK, .tableGetSK, .iarrayGet, .farrayGet, .storeGlobal, .put, .putIK,
  .putSK, .tableSet, .tableSetIK, .tableSetSK, .iarraySet, .farraySet]

/-- The name of an opcode in a listing. -/
def name : Opcode → String
  | ret => "RET"
  | br => "BR"
  | cbr => "CBR"
  | mov => "MOV"
  | movI => "MOVi"
  | movF => "MOVf"
  | movIF => "MOVif"
  | movFI => "MOVfi"
  | closure => "CLOSURE"
  | call => "CALL"
  | newTable => "NEWTABLE"
  | newIArray => "NEWIARRAY"
  | newFArray => "NEWFARRAY"
  | add => "ADD"
  | addFF => "ADDff"
  | addIF => "ADDif"
  | addII => "ADDii"
  | sub => "SUB"
  | subFF => "SUBff"
  | subFI => "SUBfi"
  | subIF => "SUBif"
  | subII => "SUBii"
  | mul => "MUL"
  | mulFF => "MULff"
  | mulIF => "MULif"
  | mulII => "MULii"
  | div => "DIV"
  | divFF => "DIVff"
  | divFI => "DIVfi"
  | divIF => "DIVif"
  | divII => "DIVii"
  | idiv => "IDIV"
  | mod => "MOD"
  | pow => "POW"
  | concat => "CONCAT"
  | band => "BAND"
  | bandII => "BANDii"
  | bor => "BOR"
  | borII => "BORii"
  | bxor => "BXOR"
  | bxorII => "BXORii"
  | shl => "SHL"
  | shlII => "SHLii"
  | shr => "SHR"
  | shrII => "SHRii"
  | eq => "EQ"
  | eqII => "EQii"
  | eqFF => "EQff"
  | lt => "LT"
  | ltII => "LTii"
  | ltFF => "LTff"
  | le => "LE"
  | leII => "LEii"
  | leFF => "LEff"
  | unm => "UNM"
  | unmI => "UNMi"
  | unmF => "UNMf"
  | not => "NOT"
  | len => "LEN"
  | lenI => "LENi"
  | bnot => "BNOT"
  | toInt => "TOINT"
  | toFlt => "TOFLT"
  | toIArray => "TOIARRAY"
  | toFArray => "TOFARRAY"
  | toTable => "TOTABLE"
  | toString => "TOSTRING"
  | toClosure => "TOCLOSURE"
  | loadGlobal => "LOADGLOBAL"
  | get => "GET"
  | getIK => "GETik"
  | getSK => "GETsk"
  | tableGet => "TGET"
  | tableGetIK => "TGETik"
  | tableGetSK => "TGETsk"
  | iarrayGet => "IAGET"
  | farrayGet => "FAGET"
  | storeGlobal => "STOREGLOBAL"
  | put => "PUT"
  | putIK => "PUTik"
  | putSK => "PUTsk"
  | tableSet => "TPUT"
  | tableSetIK => "TPUTik"
  | tableSetSK => "TPUTsk"
  | iarraySet => "IAPUT"
  | farraySet => "FAPUT"

def family : Opcode → Family
  | ret | br | cbr => .control
  | mov | movI | movF | movIF | movFI => .move
  | closure => .closure
  | call => .call
  | newTable | newIArray | newFArray => .constructor
  | add | addFF | addIF | addII | sub | subFF | subFI | subIF | subII | mul | mulFF | mulIF
  | mulII | div | divFF | divFI | divIF | divII | idiv | mod | pow | concat => .arith
  | band | bandII | bor | borII | bxor | bxorII | shl | shlII | shr | shrII => .bitwise
  | eq | eqII | eqFF | lt | ltII | ltFF | le | leII | leFF => .compare
  | unm | unmI | unmF | not | len | lenI | bnot => .unary
  | toInt | toFlt | toIArray | toFArray | toTable | toString | toClosure => .cast
  | loadGlobal | get | getIK | getSK | tableGet | tableGetIK | tableGetSK | iarrayGet
  | farrayGet => .load
  | storeGlobal | put | putIK | putSK | tableSet | tableSetIK | tableSetSK | iarraySet
  | farraySet => .store

/-- A terminator is the last instruction of its block. -/
def isTerminator : Opcode → Bool
  | ret | br | cbr => true
  | _ => false

/-- The store a load turns into when its element is assigned to. -/
def storeCounterpart? : Opcode → Option Opcode
  | loadGlobal => some storeGlobal
  | get => some put
  | getIK => some putIK
  | getSK => some putSK
  | tableGet => some tableSet
  | tableGetIK => some tableSetIK
  | tableGetSK => some tableSetSK
  | iarrayGet => some iarraySet
  | farrayGet => some farraySet
  | _ => none

def ofName? (s : String) : Option Opcode := all.find? fun op => op.name == s

end Opcode

end ScriptC
