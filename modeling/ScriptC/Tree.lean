import ScriptC.Binary64
import ScriptC.Ty

/-! # Typed syntax trees

A tree is produced by a front end that has resolved every name and every type: an expression
carries its static type, and a variable is a reference into the table of symbols.
-/

namespace ScriptC

/-- Position of a symbol in the symbol table. -/
abbrev SymbolId := UInt32

abbrev FunctionId := UInt32

/-- How a symbol is bound. -/
inductive SymbolKind where
  /-- A local variable or a parameter of `function`. -/
  | localOf (function : FunctionId)
  /-- The captured local `target`, at `index` in the upvalue list of the function that uses it. -/
  | upvalue (target : SymbolId) (index : UInt32)
  /-- A variable looked up by name at run time. -/
  | global
deriving DecidableEq, Repr

structure Symbol where
  name : String
  ty : Ty
  kind : SymbolKind
deriving DecidableEq, Repr

structure SymbolTable where
  symbols : Array Symbol := #[]
deriving DecidableEq, Repr

namespace SymbolTable

def get? (t : SymbolTable) (id : SymbolId) : Option Symbol := t.symbols[id.toNat]?

def add (t : SymbolTable) (s : Symbol) : SymbolTable × SymbolId :=
  (⟨t.symbols.push s⟩, UInt32.ofNat t.symbols.size)

end SymbolTable

inductive UnaryOp where
  | neg
  | not
  | len
  | bnot
  | toInteger
  | toNumber
  | toIntegerArray
  | toNumberArray
  | toTable
  | toString
  | toClosure
deriving DecidableEq, Repr

def UnaryOp.name : UnaryOp → String
  | neg => "Neg"
  | not => "Not"
  | len => "Len"
  | bnot => "BNot"
  | toInteger => "ToInteger"
  | toNumber => "ToNumber"
  | toIntegerArray => "ToIntegerArray"
  | toNumberArray => "ToNumberArray"
  | toTable => "ToTable"
  | toString => "ToString"
  | toClosure => "ToClosure"

inductive BinaryOp where
  | add
  | sub
  | mul
  | div
  | idiv
  | mod
  | pow
  | concat
  | band
  | bor
  | bxor
  | shl
  | shr
  | eq
  | ne
  | lt
  | le
  | gt
  | ge
  | and
  | or
deriving DecidableEq, Repr

def BinaryOp.name : BinaryOp → String
  | add => "Add"
  | sub => "Sub"
  | mul => "Mul"
  | div => "Div"
  | idiv => "IDiv"
  | mod => "Mod"
  | pow => "Pow"
  | concat => "Concat"
  | band => "BAnd"
  | bor => "BOr"
  | bxor => "BXor"
  | shl => "Shl"
  | shr => "Shr"
  | eq => "Eq"
  | ne => "Ne"
  | lt => "Lt"
  | le => "Le"
  | gt => "Gt"
  | ge => "Ge"
  | and => "And"
  | or => "Or"

mutual

/-- An expression with its resolved type. -/
structure Expr where
  ty : Ty
  kind : ExprKind

inductive ExprKind where
  | nil
  | true
  | false
  | integer (value : Int64)
  | number (value : Binary64)
  | string (value : String)
  /-- The surplus arguments of a variadic function. -/
  | vararg
  | symbol (id : SymbolId)
  | index (object key : Expr)
  | call (callee : Expr) (args : List Expr)
  /-- A call of a member that also passes the object as first argument. -/
  | methodCall (object : Expr) (method : String) (args : List Expr)
  | unary (op : UnaryOp) (operand : Expr)
  | binary (op : BinaryOp) (lhs rhs : Expr)
  | function (func : Function)
  | table (items : List TableItem)

inductive TableItem where
  | positional (value : Expr)
  | named (name : String) (value : Expr)
  | keyed (key value : Expr)

/-- A list of statements is a block: what it declares goes out of scope at its end. -/
inductive Stmt where
  | declare (vars : List SymbolId) (exprs : List Expr)
  | declareFunction (var : SymbolId) (func : Function)
  | assign (targets exprs : List Expr)
  | eval (expr : Expr)
  | ret (exprs : List Expr)
  | block (body : List Stmt)
  | branch (clauses : List Clause) (otherwise : Option (List Stmt))
  | whileLoop (cond : Expr) (body : List Stmt)
  /-- The condition is tested after the body and sees what the body declares. -/
  | repeatLoop (body : List Stmt) (cond : Expr)
  | numericFor (var : SymbolId) (start limit : Expr) (step : Option Expr) (body : List Stmt)
  | genericFor (vars : List SymbolId) (exprs : List Expr) (body : List Stmt)
  | leave
  | jump (label : String)
  | label (name : String)

structure Clause where
  cond : Expr
  body : List Stmt

/-- The main chunk or a closure literal. -/
structure Function where
  id : FunctionId
  name : Option String
  params : List SymbolId
  isVararg : Bool
  /-- Upvalue symbols in index order. -/
  upvalues : List SymbolId
  body : List Stmt

end

/-- The input of one compilation unit. -/
structure Tree where
  symbols : SymbolTable
  main : Function

end ScriptC
