import ScriptC.Decimal.Layout
import ScriptC.Json.Writer
import ScriptC.Tree

/-! # Trees as JSON

A record is an object with its fields in order. A case without data is its name, any other case
an object whose only key is the name.
-/

namespace ScriptC

def Ty.toJson : Ty → Json
  | any => .text "Any"
  | integer => .text "Integer"
  | number => .text "Number"
  | integerArray => .text "IntegerArray"
  | numberArray => .text "NumberArray"
  | table => .text "Table"
  | string => .text "String"
  | boolean => .text "Boolean"
  | nil => .text "Nil"
  | function => .text "Function"
  | userDefined name => .tagged "UserDefined" (.text name)

def SymbolKind.toJson : SymbolKind → Json
  | localOf function => .tagged "Local" (.record [("function", .nat function.toNat)])
  | upvalue target index =>
    .tagged "Upvalue" (.record [("target", .nat target.toNat), ("index", .nat index.toNat)])
  | global => .text "Global"

def Symbol.toJson (s : Symbol) : Json :=
  .record [("name", .text s.name), ("ty", s.ty.toJson), ("kind", s.kind.toJson)]

def SymbolTable.toJson (t : SymbolTable) : Json :=
  .record [("symbols", .arr (t.symbols.toList.map Symbol.toJson))]

/-- A number that is not finite has no spelling. -/
def Binary64.toJson (x : Binary64) : Json :=
  if x.isFinite then .num (NumberLayout.serialised.render x) else .null

def SymbolId.listJson (ids : List SymbolId) : Json := .arr (ids.map fun id => .nat id.toNat)

/-- The JSON form of a block, from that of its statements. -/
def blockJson (stmts : List Json) : Json := .record [("stmts", .arr stmts)]

def nameJson : Option String → Json
  | some name => .text name
  | none => .null

mutual

def Expr.toJson : Expr → Json
  | ⟨ty, kind⟩ => .record [("ty", ty.toJson), ("kind", kind.toJson)]

def ExprKind.toJson : ExprKind → Json
  | .nil => .text "Nil"
  | .true => .text "True"
  | .false => .text "False"
  | .integer n => .tagged "Integer" (.int n.toInt)
  | .number x => .tagged "Number" x.toJson
  | .string s => .tagged "String" (.text s)
  | .vararg => .text "Vararg"
  | .symbol id => .tagged "Symbol" (.nat id.toNat)
  | .index object key =>
    .tagged "Index" (.record [("object", object.toJson), ("key", key.toJson)])
  | .call callee args =>
    .tagged "Call" (.record [("callee", callee.toJson), ("args", .arr (exprsJson args))])
  | .methodCall object method args =>
    .tagged "MethodCall" (.record
      [("object", object.toJson), ("method", .text method), ("args", .arr (exprsJson args))])
  | .unary op operand =>
    .tagged "Unary" (.record [("op", .text op.name), ("operand", operand.toJson)])
  | .binary op lhs rhs =>
    .tagged "Binary" (.record
      [("op", .text op.name), ("lhs", lhs.toJson), ("rhs", rhs.toJson)])
  | .function func => .tagged "Function" func.toJson
  | .table items => .tagged "Table" (.arr (itemsJson items))

def TableItem.toJson : TableItem → Json
  | .positional value => .tagged "Positional" value.toJson
  | .named name value => .tagged "Named" (.arr [.text name, value.toJson])
  | .keyed key value => .tagged "Keyed" (.arr [key.toJson, value.toJson])

def Stmt.toJson : Stmt → Json
  | .declare vars exprs =>
    .tagged "Local" (.record
      [("vars", SymbolId.listJson vars), ("exprs", .arr (exprsJson exprs))])
  | .declareFunction var func =>
    .tagged "LocalFunction" (.record [("var", .nat var.toNat), ("func", func.toJson)])
  | .assign targets exprs =>
    .tagged "Assign" (.record
      [("targets", .arr (exprsJson targets)), ("exprs", .arr (exprsJson exprs))])
  | .eval expr => .tagged "Expr" expr.toJson
  | .ret exprs => .tagged "Return" (.arr (exprsJson exprs))
  | .block body => .tagged "Do" (blockJson (stmtsJson body))
  | .branch clauses none =>
    .tagged "If" (.record [("clauses", .arr (clausesJson clauses)), ("else_block", .null)])
  | .branch clauses (some body) =>
    .tagged "If" (.record
      [("clauses", .arr (clausesJson clauses)), ("else_block", blockJson (stmtsJson body))])
  | .whileLoop cond body =>
    .tagged "While" (.record [("cond", cond.toJson), ("body", blockJson (stmtsJson body))])
  | .repeatLoop body cond =>
    .tagged "Repeat" (.record [("body", blockJson (stmtsJson body)), ("cond", cond.toJson)])
  | .numericFor var start limit none body =>
    .tagged "NumericFor" (.record
      [("var", .nat var.toNat), ("start", start.toJson), ("limit", limit.toJson),
        ("step", .null), ("body", blockJson (stmtsJson body))])
  | .numericFor var start limit (some step) body =>
    .tagged "NumericFor" (.record
      [("var", .nat var.toNat), ("start", start.toJson), ("limit", limit.toJson),
        ("step", step.toJson), ("body", blockJson (stmtsJson body))])
  | .genericFor vars exprs body =>
    .tagged "GenericFor" (.record
      [("vars", SymbolId.listJson vars), ("exprs", .arr (exprsJson exprs)),
        ("body", blockJson (stmtsJson body))])
  | .leave => .text "Break"
  | .jump name => .tagged "Goto" (.text name)
  | .label name => .tagged "Label" (.text name)

def Clause.toJson : Clause → Json
  | ⟨cond, body⟩ => .record [("cond", cond.toJson), ("body", blockJson (stmtsJson body))]

def Function.toJson : Function → Json
  | ⟨id, name, params, isVararg, upvalues, body⟩ => .record
    [("id", .nat id.toNat), ("name", nameJson name), ("params", SymbolId.listJson params),
      ("is_vararg", .bool isVararg), ("upvalues", SymbolId.listJson upvalues),
      ("body", blockJson (stmtsJson body))]

def exprsJson : List Expr → List Json
  | [] => []
  | e :: es => e.toJson :: exprsJson es

def itemsJson : List TableItem → List Json
  | [] => []
  | i :: is => i.toJson :: itemsJson is

def stmtsJson : List Stmt → List Json
  | [] => []
  | s :: ss => s.toJson :: stmtsJson ss

def clausesJson : List Clause → List Json
  | [] => []
  | c :: cs => c.toJson :: clausesJson cs

end

def Tree.toJson (t : Tree) : Json :=
  .record [("symbols", t.symbols.toJson), ("main", t.main.toJson)]

/-- The serialised form of a tree. -/
def Tree.write (t : Tree) : String := t.toJson.write

end ScriptC
