import ScriptC.Json.Reader
import ScriptC.Tree.Encoding

/-! # Trees from JSON

A record is an object, in which unknown members are ignored and a known one must not repeat, or
an array of all its fields in order. Only an optional field may be missing. What is read may nest
arrays and objects to a limited depth; what is ignored may nest to any.
-/

namespace ScriptC

namespace Json

/-- The fields of a record, in the order of `names`. -/
def fields? (names : List String) : Json → Option (List (Option Json))
  | .arr items => if items.length = names.length then some (items.map some) else none
  | .obj members => do
    let keys ← members.mapM (·.1)
    if names.any fun name => 1 < keys.count name then none
    else some (names.map fun name => members.lookup (some name))
  | _ => none

def string? : Json → Option String
  | .str s => s
  | _ => none

def bool? : Json → Option Bool
  | .bool b => some b
  | _ => none

def integer? : Json → Option Int
  | .num t => Numeral.toInt? t.toList
  | _ => none

def word? (j : Json) : Option UInt32 := do
  let n ← j.integer?
  if 0 ≤ n ∧ n < 4294967296 then some (UInt32.ofNat n.toNat) else none

def int64? (j : Json) : Option Int64 := do
  let n ← j.integer?
  if -9223372036854775808 ≤ n ∧ n < 9223372036854775808 then some (Int64.ofInt n) else none

def binary64? : Json → Option Binary64
  | .num t => Numeral.toBinary64? t.toList
  | _ => none

end Json

/-- The case without data that has a given name. -/
def Ty.named? : String → Option Ty
  | "Any" => some .any
  | "Integer" => some .integer
  | "Number" => some .number
  | "IntegerArray" => some .integerArray
  | "NumberArray" => some .numberArray
  | "Table" => some .table
  | "String" => some .string
  | "Boolean" => some .boolean
  | "Nil" => some .nil
  | "Function" => some .function
  | _ => none

def UnaryOp.named? : String → Option UnaryOp
  | "Neg" => some .neg
  | "Not" => some .not
  | "Len" => some .len
  | "BNot" => some .bnot
  | "ToInteger" => some .toInteger
  | "ToNumber" => some .toNumber
  | "ToIntegerArray" => some .toIntegerArray
  | "ToNumberArray" => some .toNumberArray
  | "ToTable" => some .toTable
  | "ToString" => some .toString
  | "ToClosure" => some .toClosure
  | _ => none

def BinaryOp.named? : String → Option BinaryOp
  | "Add" => some .add
  | "Sub" => some .sub
  | "Mul" => some .mul
  | "Div" => some .div
  | "IDiv" => some .idiv
  | "Mod" => some .mod
  | "Pow" => some .pow
  | "Concat" => some .concat
  | "BAnd" => some .band
  | "BOr" => some .bor
  | "BXor" => some .bxor
  | "Shl" => some .shl
  | "Shr" => some .shr
  | "Eq" => some .eq
  | "Ne" => some .ne
  | "Lt" => some .lt
  | "Le" => some .le
  | "Gt" => some .gt
  | "Ge" => some .ge
  | "And" => some .and
  | "Or" => some .or
  | _ => none

/-! Every reader takes the number of levels of arrays and objects it may still open. -/

/-- A case without data: its name, or an object that maps the name to null. -/
def Json.name? : Nat → Json → Option String
  | _, .str s => s
  | _ + 1, .obj [(s, .null)] => s
  | _, _ => none

def Ty.ofJson? : Nat → Json → Option Ty
  | _ + 1, .obj [(some "UserDefined", v)] => v.string?.map .userDefined
  | d, j => (j.name? d).bind named?

def UnaryOp.ofJson? (d : Nat) (j : Json) : Option UnaryOp := (j.name? d).bind named?

def BinaryOp.ofJson? (d : Nat) (j : Json) : Option BinaryOp := (j.name? d).bind named?

def SymbolId.listOfJson? : Nat → Json → Option (List SymbolId)
  | _ + 1, .arr items => items.mapM Json.word?
  | _, _ => none

def SymbolKind.ofJson? : Nat → Json → Option SymbolKind
  | _ + 2, .obj [(some "Local", v)] => do
    match ← v.fields? ["function"] with
    | [some f] => some (.localOf (← f.word?))
    | _ => none
  | _ + 2, .obj [(some "Upvalue", v)] => do
    match ← v.fields? ["target", "index"] with
    | [some t, some i] => some (.upvalue (← t.word?) (← i.word?))
    | _ => none
  | d, j => match j.name? d with
    | some "Global" => some .global
    | _ => none

def Symbol.ofJson? : Nat → Json → Option Symbol
  | d + 1, j => do
    match ← j.fields? ["name", "ty", "kind"] with
    | [some name, some ty, some kind] =>
      some ⟨← name.string?, ← Ty.ofJson? d ty, ← SymbolKind.ofJson? d kind⟩
    | _ => none
  | _, _ => none

def SymbolTable.ofJson? : Nat → Json → Option SymbolTable
  | d + 2, j => do
    match ← j.fields? ["symbols"] with
    | [some (.arr items)] => some ⟨(← items.mapM (Symbol.ofJson? d)).toArray⟩
    | _ => none
  | _, _ => none

/-- An optional name, which may be missing or null. -/
def optionalName? : Option Json → Option (Option String)
  | none | some .null => some none
  | some j => j.string?.map some

mutual

def Expr.ofJson? : Nat → Json → Option Expr
  | d + 1, j => do
    match ← j.fields? ["ty", "kind"] with
    | [some ty, some kind] => some ⟨← Ty.ofJson? d ty, ← ExprKind.ofJson? d kind⟩
    | _ => none
  | _, _ => none

def ExprKind.ofJson? : Nat → Json → Option ExprKind
  | _ + 1, .obj [(some "Integer", v)] => v.int64?.map .integer
  | _ + 1, .obj [(some "Number", v)] => v.binary64?.map .number
  | _ + 1, .obj [(some "String", v)] => v.string?.map .string
  | _ + 1, .obj [(some "Symbol", v)] => v.word?.map .symbol
  | d + 2, .obj [(some "Index", v)] => do
    match ← v.fields? ["object", "key"] with
    | [some object, some key] => some (.index (← Expr.ofJson? d object) (← Expr.ofJson? d key))
    | _ => none
  | d + 2, .obj [(some "Call", v)] => do
    match ← v.fields? ["callee", "args"] with
    | [some callee, some args] => some (.call (← Expr.ofJson? d callee) (← exprsOfJson? d args))
    | _ => none
  | d + 2, .obj [(some "MethodCall", v)] => do
    match ← v.fields? ["object", "method", "args"] with
    | [some object, some method, some args] =>
      some (.methodCall (← Expr.ofJson? d object) (← method.string?) (← exprsOfJson? d args))
    | _ => none
  | d + 2, .obj [(some "Unary", v)] => do
    match ← v.fields? ["op", "operand"] with
    | [some op, some operand] => some (.unary (← UnaryOp.ofJson? d op) (← Expr.ofJson? d operand))
    | _ => none
  | d + 2, .obj [(some "Binary", v)] => do
    match ← v.fields? ["op", "lhs", "rhs"] with
    | [some op, some lhs, some rhs] =>
      some (.binary (← BinaryOp.ofJson? d op) (← Expr.ofJson? d lhs) (← Expr.ofJson? d rhs))
    | _ => none
  | d + 1, .obj [(some "Function", v)] => (Function.ofJson? d v).map .function
  | d + 1, .obj [(some "Table", v)] => (itemsOfJson? d v).map .table
  | d, j => match j.name? d with
    | some "Nil" => some .nil
    | some "True" => some .true
    | some "False" => some .false
    | some "Vararg" => some .vararg
    | _ => none

def TableItem.ofJson? : Nat → Json → Option TableItem
  | d + 1, .obj [(some "Positional", v)] => (Expr.ofJson? d v).map .positional
  | d + 2, .obj [(some "Named", .arr [name, value])] => do
    some (.named (← name.string?) (← Expr.ofJson? d value))
  | d + 2, .obj [(some "Keyed", .arr [key, value])] => do
    some (.keyed (← Expr.ofJson? d key) (← Expr.ofJson? d value))
  | _, _ => none

def Stmt.ofJson? : Nat → Json → Option Stmt
  | d + 2, .obj [(some "Local", v)] => do
    match ← v.fields? ["vars", "exprs"] with
    | [some vars, some exprs] =>
      some (.declare (← SymbolId.listOfJson? d vars) (← exprsOfJson? d exprs))
    | _ => none
  | d + 2, .obj [(some "LocalFunction", v)] => do
    match ← v.fields? ["var", "func"] with
    | [some var, some func] => some (.declareFunction (← var.word?) (← Function.ofJson? d func))
    | _ => none
  | d + 2, .obj [(some "Assign", v)] => do
    match ← v.fields? ["targets", "exprs"] with
    | [some targets, some exprs] =>
      some (.assign (← exprsOfJson? d targets) (← exprsOfJson? d exprs))
    | _ => none
  | d + 1, .obj [(some "Expr", v)] => (Expr.ofJson? d v).map .eval
  | d + 1, .obj [(some "Return", v)] => (exprsOfJson? d v).map .ret
  | d + 1, .obj [(some "Do", v)] => (blockOfJson? d v).map .block
  | d + 2, .obj [(some "If", v)] => do
    match ← v.fields? ["clauses", "else_block"] with
    | [some clauses, none] | [some clauses, some .null] =>
      some (.branch (← clausesOfJson? d clauses) none)
    | [some clauses, some body] =>
      some (.branch (← clausesOfJson? d clauses) (some (← blockOfJson? d body)))
    | _ => none
  | d + 2, .obj [(some "While", v)] => do
    match ← v.fields? ["cond", "body"] with
    | [some cond, some body] => some (.whileLoop (← Expr.ofJson? d cond) (← blockOfJson? d body))
    | _ => none
  | d + 2, .obj [(some "Repeat", v)] => do
    match ← v.fields? ["body", "cond"] with
    | [some body, some cond] => some (.repeatLoop (← blockOfJson? d body) (← Expr.ofJson? d cond))
    | _ => none
  | d + 2, .obj [(some "NumericFor", v)] => do
    match ← v.fields? ["var", "start", "limit", "step", "body"] with
    | [some var, some start, some limit, none, some body]
    | [some var, some start, some limit, some .null, some body] =>
      some (.numericFor (← var.word?) (← Expr.ofJson? d start) (← Expr.ofJson? d limit) none
        (← blockOfJson? d body))
    | [some var, some start, some limit, some step, some body] =>
      some (.numericFor (← var.word?) (← Expr.ofJson? d start) (← Expr.ofJson? d limit)
        (some (← Expr.ofJson? d step)) (← blockOfJson? d body))
    | _ => none
  | d + 2, .obj [(some "GenericFor", v)] => do
    match ← v.fields? ["vars", "exprs", "body"] with
    | [some vars, some exprs, some body] =>
      some (.genericFor (← SymbolId.listOfJson? d vars) (← exprsOfJson? d exprs)
        (← blockOfJson? d body))
    | _ => none
  | _ + 1, .obj [(some "Goto", v)] => v.string?.map .jump
  | _ + 1, .obj [(some "Label", v)] => v.string?.map .label
  | d, j => match j.name? d with
    | some "Break" => some .leave
    | _ => none

def Clause.ofJson? : Nat → Json → Option Clause
  | d + 1, j => do
    match ← j.fields? ["cond", "body"] with
    | [some cond, some body] => some ⟨← Expr.ofJson? d cond, ← blockOfJson? d body⟩
    | _ => none
  | _, _ => none

def Function.ofJson? : Nat → Json → Option Function
  | d + 1, j => do
    match ← j.fields? ["id", "name", "params", "is_vararg", "upvalues", "body"] with
    | [some id, name, some params, some isVararg, some upvalues, some body] =>
      some ⟨← id.word?, ← optionalName? name, ← SymbolId.listOfJson? d params, ← isVararg.bool?,
        ← SymbolId.listOfJson? d upvalues, ← blockOfJson? d body⟩
    | _ => none
  | _, _ => none

def blockOfJson? : Nat → Json → Option (List Stmt)
  | d + 2, j => do
    match ← j.fields? ["stmts"] with
    | [some (.arr items)] => items.mapM (Stmt.ofJson? d)
    | _ => none
  | _, _ => none

def exprsOfJson? : Nat → Json → Option (List Expr)
  | d + 1, .arr items => items.mapM (Expr.ofJson? d)
  | _, _ => none

def itemsOfJson? : Nat → Json → Option (List TableItem)
  | d + 1, .arr items => items.mapM (TableItem.ofJson? d)
  | _, _ => none

def clausesOfJson? : Nat → Json → Option (List Clause)
  | d + 1, .arr items => items.mapM (Clause.ofJson? d)
  | _, _ => none

end

def Tree.ofJson? : Nat → Json → Option Tree
  | d + 1, j => do
    match ← j.fields? ["symbols", "main"] with
    | [some symbols, some main] =>
      some ⟨← SymbolTable.ofJson? d symbols, ← Function.ofJson? d main⟩
    | _ => none
  | _, _ => none

/-- How deep the parts of a text that are read may nest. -/
def Tree.depthLimit : Nat := 127

/-- The tree a text spells. -/
def Tree.read? (text : String) : Option Tree :=
  (Json.read? text).bind (Tree.ofJson? Tree.depthLimit)

end ScriptC
