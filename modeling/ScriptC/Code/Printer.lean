import ScriptC.Code
import ScriptC.Decimal.Layout
import ScriptC.Proc

/-! # Text of generated code -/

namespace ScriptC

/-- An integer as a C literal. The least integer has no literal of its own. -/
def cInt (n : Int64) : String :=
  if n = Int64.minValue then "(-9223372036854775807LL - 1)"
  else if n < 0 then s!"({n.toInt})"
  else s!"{n.toInt}"

/-- A float as a C literal. -/
def cFloat (x : Binary64) : String :=
  if x.isNaN then "(0.0/0.0)"
  else if x.isInfinite then if x.isNegative then "(-1.0/0.0)" else "(1.0/0.0)"
  else if x.isNegative then s!"({x.listed})"
  else x.listed

/-- A loop over `count` values. -/
def Sweep.text (count body : String) : Sweep → String
  | none => "/* tail already in place */"
  | downwards => s!"for (int j_ = {count} - 1; j_ >= 0; j_--) {body}"
  | upwards => s!"for (int j_ = 0; j_ < {count}; j_++) {body}"

/-- Copy `count` values from `base + src` to `base + dest`. -/
def windowCopy (dest src : Int) (count : String) : String :=
  (Sweep.between dest src).text count
    s!"\x7b setobj(L, base + ({dest}) + j_, base + ({src}) + j_); \x7d"

def blockLabel (b : Nat) : String := s!"L{b}"

def Address.text : Address → String
  | slot s => s!"&base[{s}]"
  | upvalue i => s!"cl->upvals[{i}]->v"
  | constant k => s!"&k[{k}]"
  | scratch d => s!"&ival{d}"
  | floatScratch d => s!"&fval{d}"
  | kept i => s!"&rvals_[{i}]"
  | argument j => s!"func_ + {j}"
  | result i => s!"ci->func + {i}"

/-- A variable; the letter tells integers from floats. -/
def Variable.text (letter : String) : Variable → String
  | temp r => s!"{letter}_{r}"
  | converted => "n_"
  | element => "v_"

def IntOp.symbol : IntOp → String
  | add => "+"
  | sub => "-"
  | mul => "*"
  | band => "&"
  | bor => "|"
  | bxor => "^"

def FloatOp.symbol : FloatOp → String
  | add => "+"
  | sub => "-"
  | mul => "*"
  | div => "/"

def Relation.symbol : Relation → String
  | eq => "=="
  | lt => "<"
  | le => "<="

def Relation.helper : Relation → String
  | eq => "ravel_equal"
  | lt => "ravel_lessthan"
  | le => "ravel_lessequal"

def IntExpr.text : IntExpr → String
  | var v => v.text "i"
  | literal n => cInt n
  | tagged a => s!"ivalue({a.text})"
  | binary op x y => s!"ravel_intop({op.symbol}, {x.text}, {y.text})"
  | negate x => s!"ravel_intop(-, 0, {x.text})"
  | shift x n => s!"ravel_shiftl({x.text}, {n.text})"
  | length a => s!"ravel_arraylen({a.text})"

def FloatExpr.text : FloatExpr → String
  | var v => v.text "f"
  | literal x => cFloat x
  | tagged a => s!"fltvalue({a.text})"
  | ofInt x => s!"((ravel_num){x.text})"
  | binary op x y => s!"{x.text} {op.symbol} {y.text}"
  | negate x => s!"-{x.text}"

def BoolExpr.text : BoolExpr → String
  | constant value => if value then "1" else "0"
  | isFalse a => s!"l_isfalse({a.text})"
  | ints r x y => s!"{x.text} {r.symbol} {y.text}"
  | floats r x y => s!"{x.text} {r.symbol} {y.text}"
  | tagged r x y => s!"{r.helper}(L, {x.text}, {y.text})"

def ErrorCode.text : ErrorCode → String
  | integerExpected => "RAVEL_ERR_INTEGER_EXPECTED"
  | numberExpected => "RAVEL_ERR_NUMBER_EXPECTED"
  | integerArrayExpected => "RAVEL_ERR_INTEGER_ARRAY_EXPECTED"
  | numberArrayExpected => "RAVEL_ERR_NUMBER_ARRAY_EXPECTED"
  | tableExpected => "RAVEL_ERR_TABLE_EXPECTED"
  | stringExpected => "RAVEL_ERR_STRING_EXPECTED"
  | closureExpected => "RAVEL_ERR_CLOSURE_EXPECTED"
  | arrayOutOfBounds => "RAVEL_ERR_ARRAY_OUT_OF_BOUNDS"

def RuntimeType.text : RuntimeType → String
  | integerArray => "RAVEL_TIARRAY"
  | numberArray => "RAVEL_TFARRAY"
  | table => "RAVEL_TTABLE"
  | string => "RAVEL_TSTRING"
  | function => "RAVEL_TFUNCTION"

def ElementKind.letter : ElementKind → String
  | int => "i"
  | float => "f"

def Check.text : Check → String
  | floatToInt x out => s!"!ravel_flttointeger({x.text}, &" ++ out.text "i" ++ ")"
  | taggedToInt a => s!"!ravel_tointeger({a.text}, &n_)"
  | taggedToFloat a => s!"!ravel_tonumber({a.text}, &n_)"
  | hasType a t => s!"ttype({a.text}) != {t.text}"
  | hasTypeOrNil a t => s!"!ttisnil({a.text}) && ttype({a.text}) != {t.text}"
  | isInt a => s!"!ttisinteger({a.text})"
  | loadElement kind a i => s!"!ravel_{kind.letter}array_get({a.text}, {i.text}, &v_)"
  | storeElement kind a i => s!"!ravel_{kind.letter}array_set(L, {a.text}, {i.text}, v_)"

def Helper.name : Helper → String
  | arith => "ravel_arith"
  | concat => "ravel_concat"
  | objlen => "ravel_objlen"
  | getglobal => "ravel_getglobal"
  | setglobal => "ravel_setglobal"
  | gettable => "ravel_gettable"
  | geti => "ravel_geti"
  | getfield => "ravel_getfield"
  | settable => "ravel_settable"
  | seti => "ravel_seti"
  | setfield => "ravel_setfield"
  | closure => "ravel_closure"
  | newtable => "ravel_newtable"
  | newiarray => "ravel_newiarray"
  | newfarray => "ravel_newfarray"

def Argument.text : Argument → String
  | state => "L"
  | closure => "cl"
  | base => "base"
  | operator op => s!"RAVEL_OP{op.name}"
  | address a => a.text
  | int x => x.text
  | number n => s!"{n}"

/-- One line at a depth of nesting. -/
def indented (depth : Nat) (text : String) : String :=
  String.join (List.replicate depth "  ") ++ text ++ "\n"

def linesAt (depth : Nat) (texts : List String) : String :=
  String.join (texts.map (indented depth))

def ErrorCode.raised (depth : Nat) (code : ErrorCode) : String :=
  linesAt depth [s!"error_code = {code.text};", "goto Lraise_error;"]

mutual

def Code.text (depth : Nat) : Code → String
  | .comment op => indented depth s!"/* {op.name} */"
  | .goto b => indented depth s!"goto {blockLabel b};"
  | .branch a t f =>
    indented depth s!"if (!l_isfalse({a.text})) goto {blockLabel t}; else goto {blockLabel f};"
  | .setInt v x => indented depth (v.text "i" ++ s!" = {x.text};")
  | .setFloat v x => indented depth (v.text "f" ++ s!" = {x.text};")
  | .storeInt a x => indented depth s!"setivalue({a.text}, {x.text});"
  | .storeFloat a x => indented depth s!"setfltvalue({a.text}, {x.text});"
  | .storeBool a x => indented depth s!"setbvalue({a.text}, {x.text});"
  | .storeNil a => indented depth s!"setnilvalue({a.text});"
  | .copy d s => indented depth s!"setobj(L, {d.text}, {s.text});"
  | .raise code => code.raised depth
  | .guard failed code =>
    indented depth s!"if ({failed.text}) \x7b" ++ code.raised (depth + 1) ++ indented depth "\x7d"
  | .invoke helper args =>
    indented depth (helper.name ++ "(" ++ String.intercalate ", " (args.map Argument.text) ++ ");")
  | .declareInt v => indented depth ("ravel_int " ++ v.text "i" ++ ";")
  | .declareFloat v => indented depth ("ravel_num " ++ v.text "f" ++ ";")
  | .readNumber a =>
    linesAt depth [s!"if (ttisfloat({a.text})) v_ = fltvalue({a.text});",
      s!"else if (ttisinteger({a.text})) v_ = (ravel_num)ivalue({a.text});", "else \x7b"]
    ++ ErrorCode.numberExpected.raised (depth + 1) ++ indented depth "\x7d"
  | .keep n => indented depth s!"TValue rvals_[{n}];"
  | .countTail s => indented depth s!"int ntail_ = (int)(L->top - &base[{s}]);"
  | .copyTail d s => indented depth (windowCopy d s "ntail_")
  | .setResults n hasTail =>
    indented depth (if hasTail then s!"nresults = {n} + ntail_;" else s!"nresults = {n};")
  | .setCallee s => indented depth s!"StkId func_ = &base[{s}];"
  | .setTop n hasTail =>
    indented depth (if hasTail then s!"L->top = func_ + {n} + ntail_;" else s!"L->top = func_ + {n};")
  | .call n => indented depth s!"ravel_call(L, func_, {n.toInt});"
  | .reloadBase => indented depth "base = ci->func + 1;"
  | .restoreTop => indented depth "L->top = ci->top;"
  | .scope body => indented depth "\x7b" ++ Code.texts (depth + 1) body ++ indented depth "\x7d"

def Code.texts (depth : Nat) : List Code → String
  | [] => ""
  | c :: cs => Code.text depth c ++ Code.texts depth cs

end

namespace CodeUnit

/-- Number of scratch values of each kind. -/
def scratchValues : Nat := 3

def prologue (f : CodeUnit) : String :=
  let scratch := (List.range scratchValues).map (fun d => s!"ival{d}") ++
    (List.range scratchValues).map fun d => s!"fval{d}"
  s!"int {f.name}(ravel_State *L) \x7b\n" ++
  linesAt 1 ([
    "ravel_CallInfo *ci = L->ci;",
    "ravel_Closure *cl = clvalue(ci->func);",
    "TValue *k = cl->k;",
    "StkId base = ci->func + 1;",
    "int error_code = 0;",
    "int nresults = 0;",
    "TValue " ++ String.intercalate ", " scratch ++ ";"] ++
    (List.range f.ints).map (fun i => s!"ravel_int i_{i} = 0;") ++
    (List.range f.floats).map (fun i => s!"ravel_num f_{i} = 0.0;") ++
    ["(void)k;", "L->top = ci->top;"])

def epilogue : String :=
  s!"{blockLabel exitBlock}:\n" ++
  linesAt 1 ["return ravel_return(L, ci->func, nresults);"] ++
  "Lraise_error:\n" ++
  linesAt 1 ["ravel_raise_error(L, error_code);", "return 0;"] ++
  "\x7d\n"

def blockText (b : Nat) (code : List Code) : String := s!"{blockLabel b}:\n" ++ Code.texts 1 code

def text (f : CodeUnit) : String :=
  f.prologue ++ String.join (f.blocks.map fun (b, code) => blockText b code) ++ epilogue

end CodeUnit

end ScriptC
