import ScriptC.Lowering.Stmt

/-! # Lowering of trees

The walk over a tree that gives every expression and every statement its code.
-/

namespace ScriptC

namespace Lower

/-- The step of a numeric loop, if it is known. -/
def constantStep? : Option Expr → Option Int64
  | none => some 1
  | some ⟨_, .integer n⟩ => some n
  | some _ => none

def plain (operand : Lower Operand) : Lower Value := return ⟨← operand, none⟩

mutual

def ofExpr (symbols : SymbolTable) : Expr → Part
  | ⟨ty, kind⟩ => ⟨ty, ofKind symbols ty kind⟩

def ofKind (symbols : SymbolTable) (ty : Ty) : ExprKind → Lower Value
  | .nil => plain (pure .nil)
  | .true => plain (pure .true)
  | .false => plain (pure .false)
  | .integer n => plain (intConstant n)
  | .number x => plain (constant (.number x))
  | .string s => plain (stringConstant s)
  | .vararg => unimplemented .vararg
  | .symbol id => plain (readSymbol symbols id)
  | .index object key => plain (index (ofExpr symbols object) (ofExpr symbols key))
  | .call func args => call (ofExpr symbols func) (ofExprs symbols args)
  | .methodCall object name args => methodCall (ofExpr symbols object) name (ofExprs symbols args)
  | .unary op operand => plain (unary op (ofExpr symbols operand))
  | .binary op lhs rhs => plain (binary op (ofExpr symbols lhs) (ofExpr symbols rhs))
  | .function func => plain (closure (ofFunction symbols func))
  | .table contents => plain (construct ty (ofItems symbols contents))

def ofExprs (symbols : SymbolTable) : List Expr → List Part
  | [] => []
  | e :: es => ofExpr symbols e :: ofExprs symbols es

def ofItems (symbols : SymbolTable) : List TableItem → List Item
  | [] => []
  | .positional value :: rest => .positional (ofExpr symbols value) :: ofItems symbols rest
  | .named name value :: rest => .named name (ofExpr symbols value) :: ofItems symbols rest
  | .keyed key value :: rest =>
    .keyed (ofExpr symbols key) (ofExpr symbols value) :: ofItems symbols rest

def ofTarget (symbols : SymbolTable) : Expr → Lower Target
  | ⟨_, .symbol id⟩ => symbolTarget symbols id
  | ⟨_, .index object key⟩ => indexTarget (ofExpr symbols object) (ofExpr symbols key)
  | _ => invalid .notAssignable

def ofTargets (symbols : SymbolTable) : List Expr → List (Lower Target)
  | [] => []
  | e :: es => ofTarget symbols e :: ofTargets symbols es

def ofStmt (symbols : SymbolTable) : Stmt → Lower Unit
  | .declare vars exprs => declare symbols vars (ofExprs symbols exprs)
  | .declareFunction var func => declareFunction symbols var (ofFunction symbols func)
  | .assign targets exprs => assign (ofTargets symbols targets) (ofExprs symbols exprs)
  | .eval expr => eval (ofExpr symbols expr)
  | .ret exprs => ret (ofExprs symbols exprs)
  | .block body => inScope (sequence (ofStmts symbols body))
  | .branch cases otherwise => branch (ofClauses symbols cases) (ofOtherwise symbols otherwise)
  | .whileLoop cond body => whileLoop (ofExpr symbols cond) (sequence (ofStmts symbols body))
  | .repeatLoop body cond => repeatLoop (sequence (ofStmts symbols body)) (ofExpr symbols cond)
  | .numericFor var start limit step body =>
    numericFor symbols var (ofExpr symbols start) (ofExpr symbols limit) (ofStep symbols step)
      (constantStep? step) (sequence (ofStmts symbols body))
  | .genericFor _ _ _ => unimplemented .genericFor
  | .leave => leave
  | .jump label => unimplemented (.jump label)
  | .label name => unimplemented (.label name)

def ofStmts (symbols : SymbolTable) : List Stmt → List (Lower Unit)
  | [] => []
  | s :: ss => ofStmt symbols s :: ofStmts symbols ss

def ofClauses (symbols : SymbolTable) : List Clause → List (Part × Lower Unit)
  | [] => []
  | ⟨cond, body⟩ :: rest =>
    (ofExpr symbols cond, sequence (ofStmts symbols body)) :: ofClauses symbols rest

def ofOtherwise (symbols : SymbolTable) : Option (List Stmt) → Option (Lower Unit)
  | none => none
  | some body => some (sequence (ofStmts symbols body))

def ofStep (symbols : SymbolTable) : Option Expr → Option Part
  | none => none
  | some e => some (ofExpr symbols e)

/-- A nested function becomes a child of the proc at hand. -/
def ofFunction (symbols : SymbolTable) : Function → Lower Nat
  | ⟨id, name, params, isVararg, upvalues, body⟩ => do
    let parent := (← get).fn.proc.id
    function symbols ⟨id, name, params, isVararg, upvalues, body⟩ (some parent)
      (sequence (ofStmts symbols body))

end

/-- The statements of a block in order. -/
def ofBlock (symbols : SymbolTable) (body : List Stmt) : Lower Unit :=
  sequence (ofStmts symbols body)

end Lower

/-- The run that lowers a tree; the main function becomes the root. -/
def Tree.lowering (t : Tree) (stats : Stats) : EStateM.Result Failure LoweringState Nat :=
  Lower.function t.symbols t.main none (Lower.ofBlock t.symbols t.main.body)
    { stats, module := {}, fn := { proc := { id := 0, parent := none }, function := t.main.id } }

/-- The procs of a tree. Statistics are kept as far as the lowering got. -/
def Tree.lower (t : Tree) (stats : Stats) : Stats × Except Failure Module :=
  match t.lowering stats with
  | .ok _ s => (s.stats, .ok s.module)
  | .error e s => (s.stats, .error e)

end ScriptC
