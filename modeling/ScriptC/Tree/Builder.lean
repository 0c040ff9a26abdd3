import ScriptC.Tree

/-! # Assembling trees

Constructors for hand-made trees. Literals get their own type, calls and fields are untyped.
-/

namespace ScriptC

/-- The function ids and symbols handed out so far. -/
structure TreeBuilder where
  symbols : SymbolTable := {}
  nextFunction : Nat := 0

namespace TreeBuilder

def functionId (b : TreeBuilder) : TreeBuilder × FunctionId :=
  ({ b with nextFunction := b.nextFunction + 1 }, UInt32.ofNat b.nextFunction)

def symbol (b : TreeBuilder) (s : Symbol) : TreeBuilder × SymbolId :=
  let (symbols, id) := b.symbols.add s
  ({ b with symbols }, id)

def localVar (b : TreeBuilder) (function : FunctionId) (name : String) (ty : Ty) :
    TreeBuilder × SymbolId :=
  b.symbol ⟨name, ty, .localOf function⟩

/-- An upvalue takes the name and the type of what it captures. -/
def upvalue (b : TreeBuilder) (target : SymbolId) (index : UInt32) : TreeBuilder × SymbolId :=
  match b.symbols.get? target with
  | some s => b.symbol ⟨s.name, s.ty, .upvalue target index⟩
  | none => b.symbol ⟨"", .any, .upvalue target index⟩

def globalVar (b : TreeBuilder) (name : String) : TreeBuilder × SymbolId :=
  b.symbol ⟨name, .any, .global⟩

/-- A reference with the declared type of its symbol. -/
def var (b : TreeBuilder) (id : SymbolId) : Expr :=
  ⟨((b.symbols.get? id).map (·.ty)).getD .any, .symbol id⟩

def finish (b : TreeBuilder) (main : Function) : Tree := ⟨b.symbols, main⟩

end TreeBuilder

namespace Expr

def nil : Expr := ⟨.nil, .nil⟩

def boolean (b : Bool) : Expr := ⟨.boolean, if b then .true else .false⟩

def integer (n : Int64) : Expr := ⟨.integer, .integer n⟩

def number (x : Binary64) : Expr := ⟨.number, .number x⟩

def string (s : String) : Expr := ⟨.string, .string s⟩

def symbol (id : SymbolId) (ty : Ty) : Expr := ⟨ty, .symbol id⟩

def index (object key : Expr) (ty : Ty) : Expr := ⟨ty, .index object key⟩

def field (object : Expr) (name : String) : Expr := index object (string name) .any

def call (callee : Expr) (args : List Expr) : Expr := ⟨.any, .call callee args⟩

def methodCall (object : Expr) (method : String) (args : List Expr) : Expr :=
  ⟨.any, .methodCall object method args⟩

def unary (op : UnaryOp) (operand : Expr) (ty : Ty) : Expr := ⟨ty, .unary op operand⟩

def binary (op : BinaryOp) (lhs rhs : Expr) (ty : Ty) : Expr := ⟨ty, .binary op lhs rhs⟩

def closure (func : Function) : Expr := ⟨.function, .function func⟩

def table (items : List TableItem) (ty : Ty) : Expr := ⟨ty, .table items⟩

end Expr

end ScriptC
