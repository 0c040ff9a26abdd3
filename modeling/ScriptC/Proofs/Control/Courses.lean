import Mathlib.Tactic.Common
import ScriptC.Proofs.Evaluation.Source

/-! # Courses of structured programs

The skeleton of a program consists of blocks, branches, loops, breaks, returns and calls of globals.
Its conditions are variables, and whoever runs it says what each test of a condition gives. The
answers determine the course of the program: which calls and tests it makes in which order, and how
that ends.
-/

namespace ScriptC

/-- What can be observed of a program. -/
inductive Action where
  | call (callee : String) (args : Nat)
  | test (condition : String)
deriving DecidableEq, Repr

inductive Ending where
  | done
  /-- A break is on its way to the end of a loop. -/
  | left
  | returned
  /-- A test has no answer. -/
  | waiting
deriving DecidableEq, Repr

structure Course where
  actions : List Action
  ending : Ending
  /-- The answers that were not needed. -/
  rest : List Bool
deriving DecidableEq, Repr

namespace Course

/-- What comes next happens only if nothing ended the course before. -/
def andThen (c : Course) (next : List Bool → Course) : Course :=
  match c.ending with
  | .done => { next c.rest with actions := c.actions ++ (next c.rest).actions }
  | _ => c

/-- A break leads to the end of the loop. -/
def closeLoop (c : Course) : Course :=
  match c.ending with
  | .left => { c with ending := .done }
  | _ => c

def ask (condition : String) (onTrue onFalse : List Bool → Course) : List Bool → Course
  | [] => ⟨[], .waiting, []⟩
  | true :: rest => { onTrue rest with actions := .test condition :: (onTrue rest).actions }
  | false :: rest => { onFalse rest with actions := .test condition :: (onFalse rest).actions }

/-- The first of the conditions that holds decides what comes next. -/
def decide (otherwise : List Bool → Course) :
    List (String × (List Bool → Course)) → List Bool → Course
  | [] => otherwise
  | (condition, body) :: rest => ask condition body (decide otherwise rest)

/-- At most `n` iterations of a loop that tests its condition first. Each takes an answer. -/
def whileLoop (condition : String) (body : List Bool → Course) : Nat → List Bool → Course
  | 0, answers => ⟨[], .waiting, answers⟩
  | n + 1, answers =>
    ask condition (fun rest => (body rest).andThen (whileLoop condition body n)) (⟨[], .done, ·⟩)
      answers

/-- At most `n` further iterations of a loop that tests its condition last. -/
def repeatLoop (condition : String) (body : List Bool → Course) : Nat → List Bool → Course
  | 0, answers => (body answers).andThen (⟨[], .waiting, ·⟩)
  | n + 1, answers =>
    (body answers).andThen
      (ask condition (⟨[], .done, ·⟩) (repeatLoop condition body n))

end Course

section Programs

variable (symbols : SymbolTable)

def SymbolTable.nameOf (id : SymbolId) : String :=
  match symbols.get? id with
  | some s => s.name
  | none => ""

/-- The variable that a condition or a callee is. -/
def Expr.variableName : Expr → String
  | ⟨_, .symbol id⟩ => symbols.nameOf id
  | _ => ""

mutual

/-- The calls that an expression makes, in order. -/
def Expr.actions : Expr → List Action
  | ⟨_, kind⟩ => kind.actions

def ExprKind.actions : ExprKind → List Action
  | .index object key => object.actions ++ key.actions
  | .call callee args =>
    callee.actions ++ Expr.listActions args ++ [.call (callee.variableName symbols) args.length]
  | .unary _ operand => operand.actions
  | .binary _ lhs rhs => lhs.actions ++ rhs.actions
  | .table items => TableItem.actions items
  | _ => []

def Expr.listActions : List Expr → List Action
  | [] => []
  | e :: rest => e.actions ++ Expr.listActions rest

def TableItem.actions : List TableItem → List Action
  | [] => []
  | .positional value :: rest | .named _ value :: rest => value.actions ++ TableItem.actions rest
  | .keyed key value :: rest => key.actions ++ value.actions ++ TableItem.actions rest

end

mutual

def Stmt.course : Stmt → List Bool → Course
  | .eval expr => (⟨expr.actions symbols, .done, ·⟩)
  | .ret exprs => (⟨Expr.listActions symbols exprs, .returned, ·⟩)
  | .leave => (⟨[], .left, ·⟩)
  | .block body => Stmt.courses body
  | .branch clauses otherwise => Clause.course (Stmt.otherwiseCourse otherwise) clauses
  | .whileLoop cond body => fun answers =>
    (Course.whileLoop (cond.variableName symbols) (Stmt.courses body) answers.length
      answers).closeLoop
  | .repeatLoop body cond => fun answers =>
    (Course.repeatLoop (cond.variableName symbols) (Stmt.courses body) answers.length
      answers).closeLoop
  | _ => (⟨[], .done, ·⟩)

/-- The course of statements in order. -/
def Stmt.courses : List Stmt → List Bool → Course
  | [] => (⟨[], .done, ·⟩)
  | s :: rest => fun answers => (s.course answers).andThen (Stmt.courses rest)

def Clause.course (otherwise : List Bool → Course) : List Clause → List Bool → Course
  | [] => otherwise
  | ⟨cond, body⟩ :: rest =>
    Course.ask (cond.variableName symbols) (Stmt.courses body) (Clause.course otherwise rest)

def Stmt.otherwiseCourse : Option (List Stmt) → List Bool → Course
  | none => (⟨[], .done, ·⟩)
  | some body => Stmt.courses body

end

end Programs

section Answers

/-- A program does not invent answers. -/
def Shrinks (play : List Bool → Course) : Prop :=
  ∀ answers, (play answers).rest.length ≤ answers.length

variable {play onTrue onFalse : List Bool → Course}

theorem Course.length_rest_andThen {c : Course} {n : Nat} (hc : c.rest.length ≤ n)
    (hp : Shrinks play) : (c.andThen play).rest.length ≤ n := by
  unfold andThen
  split
  · exact Nat.le_trans (hp c.rest) hc
  · exact hc

theorem Course.rest_closeLoop (c : Course) : c.closeLoop.rest = c.rest := by
  unfold closeLoop
  split <;> rfl

theorem shrinks_ending (actions : List Action) (ending : Ending) :
    Shrinks (⟨actions, ending, ·⟩) := fun _ => Nat.le_refl _

theorem shrinks_ask (condition : String) (ht : Shrinks onTrue) (hf : Shrinks onFalse) :
    Shrinks (Course.ask condition onTrue onFalse) := by
  rintro (_ | ⟨_ | _, rest⟩)
  · exact Nat.le_refl _
  · exact Nat.le_succ_of_le (hf rest)
  · exact Nat.le_succ_of_le (ht rest)

theorem shrinks_whileLoop (condition : String) (hp : Shrinks play) (n : Nat) :
    Shrinks (Course.whileLoop condition play n) := by
  induction n with
  | zero => exact shrinks_ending _ .waiting
  | succ n ih =>
    exact shrinks_ask condition (fun rest => Course.length_rest_andThen (hp rest) ih)
      (shrinks_ending _ .done)

theorem shrinks_repeatLoop (condition : String) (hp : Shrinks play) (n : Nat) :
    Shrinks (Course.repeatLoop condition play n) := by
  induction n with
  | zero => exact fun answers => Course.length_rest_andThen (hp answers) (shrinks_ending _ .waiting)
  | succ n ih =>
    exact fun answers => Course.length_rest_andThen (hp answers)
      (shrinks_ask condition (shrinks_ending _ .done) ih)

variable (symbols : SymbolTable)

mutual

theorem Stmt.shrinks_course : ∀ s : Stmt, Shrinks (s.course symbols)
  | .whileLoop cond body => fun answers => by
    rw [Stmt.course, Course.rest_closeLoop]
    exact shrinks_whileLoop _ (Stmt.shrinks_courses body) _ answers
  | .repeatLoop body cond => fun answers => by
    rw [Stmt.course, Course.rest_closeLoop]
    exact shrinks_repeatLoop _ (Stmt.shrinks_courses body) _ answers
  | .block body => by
    rw [Stmt.course]
    exact Stmt.shrinks_courses body
  | .branch clauses none => by
    rw [Stmt.course, Stmt.otherwiseCourse]
    exact Clause.shrinks_course (shrinks_ending _ .done) clauses
  | .branch clauses (some body) => by
    rw [Stmt.course, Stmt.otherwiseCourse]
    exact Clause.shrinks_course (Stmt.shrinks_courses body) clauses
  | .eval _ | .ret _ | .leave => by
    rw [Stmt.course]
    exact shrinks_ending _ _
  | .declare _ _ | .declareFunction _ _ | .assign _ _
  | .numericFor _ _ _ _ _ | .genericFor _ _ _ | .jump _ | .label _ => by
    unfold Stmt.course
    exact shrinks_ending _ _

theorem Stmt.shrinks_courses : ∀ body : List Stmt, Shrinks (Stmt.courses symbols body)
  | [] => by
    rw [Stmt.courses]
    exact shrinks_ending _ .done
  | s :: rest => fun answers => by
    rw [Stmt.courses]
    exact Course.length_rest_andThen (s.shrinks_course answers) (Stmt.shrinks_courses rest)

theorem Clause.shrinks_course {otherwise : List Bool → Course} (ho : Shrinks otherwise) :
    ∀ clauses : List Clause, Shrinks (Clause.course symbols otherwise clauses)
  | [] => by
    rw [Clause.course]
    exact ho
  | ⟨cond, body⟩ :: rest => by
    rw [Clause.course]
    exact shrinks_ask _ (Stmt.shrinks_courses body) (Clause.shrinks_course ho rest)

end

end Answers

section Skeletons

variable (symbols : SymbolTable)

def SymbolKind.isLocal : SymbolKind → Bool
  | .localOf _ => true
  | _ => false

def Expr.isLocal : Expr → Bool
  | ⟨_, .symbol id⟩ => (symbols.get? id).any (·.kind.isLocal)
  | _ => false

def Expr.isGlobal : Expr → Bool
  | ⟨_, .symbol id⟩ => (symbols.get? id).any (·.kind = .global)
  | _ => false

mutual

/-- Evaluated without a condition, and only globals are called. -/
def Expr.isDirect : Expr → Bool
  | ⟨_, kind⟩ => kind.isDirect

def ExprKind.isDirect : ExprKind → Bool
  | .call callee args => callee.isGlobal symbols && Expr.areDirect args
  | .methodCall _ _ _ => false
  | .index object key => object.isDirect && key.isDirect
  | .unary _ operand => operand.isDirect
  | .binary op lhs rhs => !op.isLogical && lhs.isDirect && rhs.isDirect
  | .table items => TableItem.areDirect items
  | _ => true

def Expr.areDirect : List Expr → Bool
  | [] => true
  | e :: rest => e.isDirect && Expr.areDirect rest

def TableItem.areDirect : List TableItem → Bool
  | [] => true
  | .positional value :: rest | .named _ value :: rest => value.isDirect && TableItem.areDirect rest
  | .keyed key value :: rest => key.isDirect && value.isDirect && TableItem.areDirect rest

end

mutual

/-- The statement belongs to the skeleton of a program. -/
def Stmt.isSkeleton : Stmt → Bool
  | .eval expr => expr.isDirect symbols
  | .ret exprs => Expr.areDirect symbols exprs
  | .leave => true
  | .block body => Stmt.areSkeletons body
  | .branch clauses otherwise =>
    !clauses.isEmpty && Clause.areSkeletons clauses && Stmt.otherwiseIsSkeleton otherwise
  | .whileLoop cond body => cond.isLocal symbols && Stmt.areSkeletons body
  | .repeatLoop body cond => cond.isLocal symbols && Stmt.areSkeletons body
  | _ => false

def Stmt.areSkeletons : List Stmt → Bool
  | [] => true
  | s :: rest => s.isSkeleton && Stmt.areSkeletons rest

def Clause.areSkeletons : List Clause → Bool
  | [] => true
  | ⟨cond, body⟩ :: rest =>
    cond.isLocal symbols && Stmt.areSkeletons body && Clause.areSkeletons rest

def Stmt.otherwiseIsSkeleton : Option (List Stmt) → Bool
  | none => true
  | some body => Stmt.areSkeletons body

end

end Skeletons

end ScriptC
