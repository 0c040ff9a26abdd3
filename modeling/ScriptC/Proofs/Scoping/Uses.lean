import ScriptC.Proofs.Induction

/-! # Uses of variables and functions

What the code of a function refers to can be read off its body: the variables and the nested
functions, each with the locals that are in scope where it is written. The registers of the locals
follow from their order.
-/

namespace ScriptC

/-- Something that a body refers to. -/
inductive Use where
  | variable (id : SymbolId)
  /-- A nested function, whatever it refers to itself. -/
  | function (func : Function)

section Uses

mutual

def Expr.uses : Expr → List Use
  | ⟨_, kind⟩ => kind.uses

def ExprKind.uses : ExprKind → List Use
  | .symbol id => [.variable id]
  | .index object key => object.uses ++ key.uses
  | .call callee args => callee.uses ++ Expr.usesOf args
  | .methodCall object _ args => object.uses ++ Expr.usesOf args
  | .unary _ operand => operand.uses
  | .binary _ lhs rhs => lhs.uses ++ rhs.uses
  | .function func => [.function func]
  | .table items => TableItem.usesOf items
  | _ => []

def Expr.usesOf : List Expr → List Use
  | [] => []
  | e :: es => e.uses ++ Expr.usesOf es

def TableItem.usesOf : List TableItem → List Use
  | [] => []
  | .positional value :: rest => value.uses ++ TableItem.usesOf rest
  | .named _ value :: rest => value.uses ++ TableItem.usesOf rest
  | .keyed key value :: rest => key.uses ++ value.uses ++ TableItem.usesOf rest

end

/-- The locals that a statement leaves in scope, the newest first. -/
def Stmt.declared : Stmt → List SymbolId
  | .declare vars _ => vars.reverse
  | .declareFunction var _ => [var]
  | _ => []

/-- The locals in scope after statements. What follows one that leaves the block is dropped. -/
def Stmt.scopeAfter (locals : List SymbolId) : List Stmt → List SymbolId
  | [] => locals
  | s :: rest => if s.ends then s.declared ++ locals else scopeAfter (s.declared ++ locals) rest

/-- A use where some locals are in scope, the newest first. -/
abbrev LocatedUse := Use × List SymbolId

mutual

/-- What a statement refers to, if it stands where `locals` are in scope. -/
def Stmt.uses (locals : List SymbolId) : Stmt → List LocatedUse
  | .declare _ exprs | .ret exprs => (Expr.usesOf exprs).map (·, locals)
  | .declareFunction var func => [(.function func, var :: locals)]
  | .assign targets exprs => (Expr.usesOf targets ++ Expr.usesOf exprs).map (·, locals)
  | .eval expr => expr.uses.map (·, locals)
  | .block body => Stmt.usesOf locals body
  | .branch clauses otherwise => Clause.usesOf locals clauses ++ Stmt.usesOfOtherwise locals otherwise
  | .whileLoop cond body => cond.uses.map (·, locals) ++ Stmt.usesOf locals body
  | .repeatLoop body cond =>
    Stmt.usesOf locals body ++ cond.uses.map (·, Stmt.scopeAfter locals body)
  | .numericFor var start limit step body =>
    (start.uses ++ limit.uses ++ Expr.usesOf step.toList).map (·, locals) ++
      Stmt.usesOf (var :: locals) body
  | _ => []

def Stmt.usesOf (locals : List SymbolId) : List Stmt → List LocatedUse
  | [] => []
  | s :: rest => s.uses locals ++ Stmt.usesOf (s.declared ++ locals) rest

def Clause.usesOf (locals : List SymbolId) : List Clause → List LocatedUse
  | [] => []
  | ⟨cond, body⟩ :: rest =>
    cond.uses.map (·, locals) ++ Stmt.usesOf locals body ++ Clause.usesOf locals rest

def Stmt.usesOfOtherwise (locals : List SymbolId) : Option (List Stmt) → List LocatedUse
  | none => []
  | some body => Stmt.usesOf locals body

end

/-- What the body of a function refers to. Its parameters are in scope from the start. -/
def Function.uses (f : Function) : List LocatedUse := Stmt.usesOf f.params.reverse f.body

end Uses

section Registers

/-- The register of a local: the newest with this id, after those that were declared before it. -/
def register? : List SymbolId → SymbolId → Option Nat
  | [], _ => none
  | x :: locals, id => if x = id then some locals.length else register? locals id

/-- Locals with their registers. -/
def numbered : List SymbolId → List (SymbolId × Nat)
  | [] => []
  | x :: locals => (x, locals.length) :: numbered locals

theorem lookup_numbered (locals : List SymbolId) (id : SymbolId) :
    (numbered locals).lookup id = register? locals id := by
  induction locals with
  | nil => rfl
  | cons x locals ih =>
    by_cases h : x = id
    · simp [numbered, register?, h]
    · have h' : (id == x) = false := beq_false_of_ne (Ne.symm h)
      simp only [numbered, register?, List.lookup_cons, h', if_neg h, ih]

end Registers

section Lists

theorem Expr.usesOf_eq_flatMap (es : List Expr) : Expr.usesOf es = es.flatMap Expr.uses := by
  induction es with
  | nil => rfl
  | cons e es ih => rw [Expr.usesOf, ih, List.flatMap_cons]

theorem TableItem.usesOf_eq_flatMap (is : List TableItem) :
    TableItem.usesOf is = is.flatMap fun i => i.exprs.flatMap Expr.uses := by
  induction is with
  | nil => rfl
  | cons i is ih => cases i <;> simp [TableItem.usesOf, ih, TableItem.exprs]

theorem Clause.usesOf_eq_flatMap (locals : List SymbolId) (cs : List Clause) :
    Clause.usesOf locals cs =
      cs.flatMap fun c => c.cond.uses.map (·, locals) ++ Stmt.usesOf locals c.body := by
  induction cs with
  | nil => rfl
  | cons c cs ih =>
    obtain ⟨cond, body⟩ := c
    rw [Clause.usesOf, ih, List.flatMap_cons]

end Lists

end ScriptC
