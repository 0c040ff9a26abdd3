import ScriptC.Proofs.Traces
import ScriptC.Tree

/-! # Evaluation of expressions

Expressions over nil, booleans and integers are evaluated from left to right, and the right operand
of a logical operator only if the left one does not decide. Besides its value, an evaluation has a
trace: the operators it applied and the values it tested, in order.
-/

namespace ScriptC

/-- A value at run time. -/
inductive Datum where
  | nil
  | bool (value : Bool)
  | int (value : Int64)
deriving DecidableEq, Repr, Inhabited

namespace Datum

def isTrue : Datum → Bool
  | nil => false
  | bool b => b
  | int _ => true

def isInt : Datum → Bool
  | int _ => true
  | _ => false

theorem isInt_iff {v : Datum} : v.isInt = true ↔ ∃ n, v = int n := by
  cases v <;> simp [isInt]

end Datum

/-- Shift to the left, or to the right by a negative distance; what is shifted in is zero. -/
def shiftLeft (x y : Int64) : Int64 :=
  if y < 0 then
    if y ≤ -64 then 0 else (x.toUInt64 >>> (-y).toUInt64).toInt64
  else if 64 ≤ y then 0 else (x.toUInt64 <<< y.toUInt64).toInt64

section Operators

def UnaryOp.apply : UnaryOp → Datum → Option Datum
  | .neg, .int n => some (.int (-n))
  | .not, v => some (.bool (!v.isTrue))
  | _, _ => none

/-- What an operator makes of two integers. -/
def BinaryOp.applyInts : BinaryOp → Int64 → Int64 → Option Datum
  | .add, x, y => some (.int (x + y))
  | .sub, x, y => some (.int (x - y))
  | .mul, x, y => some (.int (x * y))
  | .band, x, y => some (.int (x &&& y))
  | .bor, x, y => some (.int (x ||| y))
  | .bxor, x, y => some (.int (x ^^^ y))
  | .shl, x, y => some (.int (shiftLeft x y))
  | .shr, x, y => some (.int (shiftLeft x (0 - y)))
  | .lt, x, y => some (.bool (x < y))
  | .le, x, y => some (.bool (x ≤ y))
  | _, _, _ => none

/-- Any two values can be compared for equality; all else asks for integers. -/
def BinaryOp.apply : BinaryOp → Datum → Datum → Option Datum
  | .eq, x, y => some (.bool (x = y))
  | op, .int x, .int y => op.applyInts x y
  | _, _, _ => none

/-- What an evaluation does. -/
inductive Event where
  | unary (op : UnaryOp) (operand : Datum)
  | binary (op : BinaryOp) (lhs rhs : Datum)
  /-- A value decides how to go on. -/
  | test (value : Datum)
deriving DecidableEq, Repr

def UnaryOp.perform (op : UnaryOp) (v : Datum) : Option (Traced Event Datum) :=
  (op.apply v).map (·, [.unary op v])

/-- Greater is less with the operands exchanged, and unequal is the negation of equal. -/
def BinaryOp.perform (op : BinaryOp) (x y : Datum) : Option (Traced Event Datum) :=
  match op with
  | .gt => (BinaryOp.lt.apply y x).map (·, [.binary .lt y x])
  | .ge => (BinaryOp.le.apply y x).map (·, [.binary .le y x])
  | .ne => do
    let equal ← BinaryOp.eq.apply x y
    return (← UnaryOp.not.apply equal, [.binary .eq x y, .unary .not equal])
  | op => (op.apply x y).map (·, [.binary op x y])

def BinaryOp.isLogical (op : BinaryOp) : Bool := op = .and ∨ op = .or

/-- The left operand of a logical operator is its value already. -/
def BinaryOp.decides : BinaryOp → Datum → Bool
  | .and, v => !v.isTrue
  | .or, v => v.isTrue
  | _, _ => false

end Operators

section Evaluation

variable (env : SymbolId → Option Datum)

mutual

/-- The value of an expression and the trace of its evaluation. -/
def Expr.evaluate : Expr → Option (Traced Event Datum)
  | ⟨_, kind⟩ => kind.evaluate

def ExprKind.evaluate : ExprKind → Option (Traced Event Datum)
  | .nil => some (.nil, [])
  | .true => some (.bool true, [])
  | .false => some (.bool false, [])
  | .integer n => some (.int n, [])
  | .symbol id => (env id).map (·, [])
  | .unary op operand => do
    let (v, before) ← operand.evaluate
    let (w, last) ← op.perform v
    return (w, before ++ last)
  | .binary op lhs rhs => do
    let (x, left) ← lhs.evaluate
    if op.isLogical then
      if op.decides x then return (x, left ++ [.test x])
      let (y, right) ← rhs.evaluate
      return (y, left ++ .test x :: right)
    let (y, right) ← rhs.evaluate
    let (z, last) ← op.perform x y
    return (z, left ++ right ++ last)
  | _ => none

end

/-- Evaluating an expression evaluates this part of it. -/
inductive Expr.Evaluates : Expr → Expr → Prop
  | self (e : Expr) : Evaluates e e
  | operand {ty : Ty} {op : UnaryOp} {e part : Expr} (h : Evaluates e part) :
      Evaluates ⟨ty, .unary op e⟩ part
  | left {ty : Ty} {op : BinaryOp} {lhs rhs part : Expr} (h : Evaluates lhs part) :
      Evaluates ⟨ty, .binary op lhs rhs⟩ part
  | right {ty : Ty} {op : BinaryOp} {lhs rhs part : Expr} {x : Datum} {trace : List Event}
      (hl : lhs.evaluate env = some (x, trace)) (hx : op.decides x = false)
      (h : Evaluates rhs part) : Evaluates ⟨ty, .binary op lhs rhs⟩ part

/-- Whatever is evaluated and has the static type of an integer is one. -/
def Expr.IntegersHold (e : Expr) : Prop :=
  ∀ part, e.Evaluates env part → part.ty = .integer →
    ∃ n trace, part.evaluate env = some (.int n, trace)

end Evaluation

section Fragment

def UnaryOp.isScalar (op : UnaryOp) : Bool := op = .neg ∨ op = .not

/-- The operators on integers and the logical ones. -/
def BinaryOp.isScalar : BinaryOp → Bool
  | .div | .idiv | .mod | .pow | .concat => false
  | _ => true

variable (isLocal : SymbolId → Bool)

mutual

/-- Nothing but literals, locals and operators on nil, booleans and integers, and no float. -/
def Expr.isScalar : Expr → Bool
  | ⟨ty, kind⟩ => ty ≠ .number && kind.isScalar

def ExprKind.isScalar : ExprKind → Bool
  | .nil | .true | .false | .integer _ => true
  | .symbol id => isLocal id
  | .unary op operand => op.isScalar && operand.isScalar
  | .binary op lhs rhs => op.isScalar && lhs.isScalar && rhs.isScalar
  | _ => false

end

end Fragment

end ScriptC
