import ScriptC.Proofs.Induction
import ScriptC.Proofs.Pools

/-! # Use of generic temporaries

Which generic temporaries a tree takes and returns, in which order, and what it holds at each of
its calls depends on the tree alone. A use of temporaries is played on a pool, and the calls on the
way are collected.
-/

namespace ScriptC

/-- A call as it finds the generic temporaries: that of the callee, those that are passed, and
the pool. -/
structure CallView where
  callee : Option Nat
  passed : List Nat
  pool : Registers
deriving DecidableEq, Repr

/-- What is live and takes no part in the call lies below the callee. -/
def CallView.Clear (c : CallView) : Prop :=
  ∃ r, c.callee = some r ∧ ∀ q, c.pool.IsLive q → q ≠ r → q ∉ c.passed → q < r

/-- Only the registers that were handed out matter. -/
instance (c : CallView) : Decidable c.Clear :=
  decidable_of_iff (c.callee.any fun r => decide (∀ q < c.pool.next, q ∉ c.pool.free → q ≠ r →
      q ∉ c.passed → q < r)) (by
    simp only [Option.any_eq_true, decide_eq_true_eq]
    exact ⟨fun ⟨r, hr, h⟩ => ⟨r, hr, fun q hq => h q hq.1 hq.2⟩,
      fun ⟨r, hr, h⟩ => ⟨r, hr, fun q hq hf => h q ⟨hq, hf⟩⟩⟩)

def Usage (α : Type) := Registers → α × Registers × List CallView

namespace Usage

variable {α : Type}

instance : Monad Usage where
  pure a := fun p => (a, p, [])
  bind u f := fun p =>
    let (a, p₁, l₁) := u p
    let (b, p₂, l₂) := f a p₁
    (b, p₂, l₁ ++ l₂)

@[simp] theorem pure_apply (a : α) (p : Registers) : (pure a : Usage α) p = (a, p, []) := rfl

@[simp] theorem bind_apply {β : Type} (u : Usage α) (f : α → Usage β) (p : Registers) :
    (u >>= f) p = ((f (u p).1 (u p).2.1).1, (f (u p).1 (u p).2.1).2.1,
      (u p).2.2 ++ (f (u p).1 (u p).2.1).2.2) := rfl

instance : LawfulMonad Usage := LawfulMonad.mk' _
  (fun u => funext fun p => by
    change ((u p).1, (u p).2.1, (u p).2.2 ++ []) = u p
    rw [List.append_nil])
  (fun _ _ => rfl)
  (fun u f g => funext fun p => by simp)

section Registers

def hold : Usage Nat := fun p => (p.alloc.2, p.alloc.1, [])

/-- Only generic temporaries count. -/
def holdAs : TempKind → Usage (Option Nat)
  | .any => do return some (← hold)
  | _ => pure none

def drop : Option Nat → Usage Unit
  | some r => fun p => ((), { p with free := r :: p.free }, [])
  | none => pure ()

def claim (r : Nat) : Usage Unit := fun p =>
  ((), if r ∈ p.free then { p with free := p.free.erase r }
    else ⟨r + 1, List.range' p.next (r - p.next) ++ p.free⟩, [])

def each : List (Usage Unit) → Usage Unit
  | [] => pure ()
  | u :: us => do
    u
    each us

theorem each_singleton (u : Usage Unit) : each [u] = u := bind_pure_unit

theorem each_append (us vs : List (Usage Unit)) :
    each (us ++ vs) = (do each us; each vs) := by
  induction us with
  | nil => rfl
  | cons u us ih => rw [List.cons_append, each, ih, each, bind_assoc]

def collect : List (Usage α) → Usage (List α)
  | [] => pure []
  | u :: us => do
    let a ← u
    let as ← collect us
    return a :: as

/-- Return registers, the last first. -/
def dropAll (rs : List (Option Nat)) : Usage Unit := each (rs.reverse.map drop)

def emitCall (base : Nat) (passed : List Nat) : Usage Unit := fun p =>
  ((), p, [⟨some base, passed, p⟩])

end Registers

section Expressions

def index (object key : Usage (Option Nat)) (result : TempKind) : Usage (Option Nat) := do
  let container ← object
  let k ← key
  drop k
  drop container
  holdAs result

def unary (operand : Usage (Option Nat)) (result : TempKind) : Usage (Option Nat) := do
  let value ← operand
  drop value
  holdAs result

def logical (lhs rhs : Usage (Option Nat)) : Usage (Option Nat) := do
  let left ← lhs
  drop left
  let result ← hold
  let right ← rhs
  drop right
  return some result

def arithmetic (lhs rhs : Usage (Option Nat)) (result : TempKind) (negate : Bool) :
    Usage (Option Nat) := do
  let a ← lhs
  let b ← rhs
  drop b
  drop a
  let target ← holdAs result
  if negate then do
    drop target
    holdAs .any
  else pure target

def callWith (base : Nat) (held : List (Option Nat)) (args : List (Usage (Option Nat))) :
    Usage (Option Nat) := do
  let args ← collect args
  emitCall base ((held ++ args).filterMap id)
  dropAll (held ++ args)
  return some base

/-- The callee is copied to a generic temporary; one that is there already stays. -/
def callee (func : Usage (Option Nat)) : Usage Nat := do
  let value ← func
  drop value
  hold

def call (func : Usage (Option Nat)) (args : List (Usage (Option Nat))) : Usage (Option Nat) := do
  let base ← callee func
  callWith base [] args

/-- The member that is called and the object above it. -/
def member (object : Usage (Option Nat)) : Usage (Nat × Nat) := do
  let value ← object
  drop value
  let base ← hold
  let receiver ← hold
  return (base, receiver)

def methodCall (object : Usage (Option Nat)) (args : List (Usage (Option Nat))) :
    Usage (Option Nat) := do
  let (base, receiver) ← member object
  callWith base [some receiver] args

/-- A function has a pool of its own. -/
def nested (body : Usage Unit) : Usage Unit := fun p => ((), p, (body {}).2.2)

def closure (child : Usage Unit) : Usage (Option Nat) := do
  child
  holdAs .any

/-- An item of a constructor, with its key if that is evaluated. -/
def item (key value : Usage (Option Nat)) : Usage Unit := do
  let k ← key
  let v ← value
  drop v
  drop k

def construct (items : List (Usage Unit)) : Usage (Option Nat) := do
  let table ← holdAs .any
  each items
  return table

end Expressions

section Statements

/-- What is known about a value before it is evaluated. -/
structure Value where
  use : Usage (Option Nat)
  /-- Its class as a key. -/
  key : KeyClass
  isCall : Bool
  /-- Where a multiple assignment copies it to, if it is a variable. -/
  copy : Option TempKind

/-- The contribution of one value: what to return afterwards, and where its values are copied
to. -/
def contribution (wanted : Nat) (isLast : Bool) (v : Value) (register : Option Nat) :
    Usage (List (Option Nat) × List (Option TempKind)) :=
  if wanted = 0 then pure ([register], [])
  else if v.isCall ∧ isLast ∧ 1 < wanted then do
    let beyond := List.range' (register.getD 0 + 1) (wanted - 1)
    each (beyond.map claim)
    return (register :: beyond.map some, List.replicate wanted none)
  else pure ([register], [v.copy])

def values : Nat → List Value → Usage (List (Option Nat) × List (Option TempKind))
  | _, [] => pure ([], [])
  | wanted, v :: rest => do
    let register ← v.use
    let head ← contribution wanted rest.isEmpty v register
    let tail ← values (wanted - 1) rest
    return (head.1 ++ tail.1, head.2 ++ tail.2)

def declare (count : Nat) (exprs : List Value) : Usage Unit := do
  let list ← values count exprs
  dropAll list.1

/-- Copies of the values that are variables. -/
def copies : List (Option TempKind) → Usage (List (Option Nat))
  | [] => pure []
  | none :: rest => copies rest
  | some kind :: rest => do
    let r ← holdAs kind
    let rs ← copies rest
    return r :: rs

/-- Each target holds registers until all values are written. -/
def assign (targets : List (Usage (List (Option Nat)))) (exprs : List Value) : Usage Unit := do
  let ts ← collect targets
  let list ← values targets.length exprs
  let more ← if 1 < targets.length then copies list.2 else pure []
  dropAll (list.1 ++ more)
  each (ts.reverse.map dropAll)

def element (object key : Usage (Option Nat)) (result : TempKind) : Usage (List (Option Nat)) := do
  let container ← object
  let k ← key
  let loaded ← holdAs result
  return [container, k, loaded]

def eval (expr : Usage (Option Nat)) : Usage Unit := do
  let value ← expr
  drop value

def ret (exprs : List (Usage (Option Nat))) : Usage Unit := do
  let os ← collect exprs
  dropAll os

def clause (cond : Usage (Option Nat)) (body : Usage Unit) : Usage Unit := do
  eval cond
  body

def repeatLoop (body : Usage Unit) (cond : Usage (Option Nat)) : Usage Unit := do
  body
  eval cond

/-- An outcome that is branched on at once. -/
def compare : Usage Unit := eval (holdAs .any)

/-- The index and the bound of an integer loop are no generic temporaries. -/
def integerFor (start limit : Usage (Option Nat)) (body : Usage Unit) : Usage Unit := do
  let first ← start
  let last ← limit
  drop last
  drop first
  compare
  body

/-- The bounds are returned while the registers taken after them are held. -/
def taggedFor (start limit step : Usage (Option Nat)) (body : Usage Unit) : Usage Unit := do
  let first ← start
  let last ← limit
  let increment ← step
  let index ← holdAs .any
  let bound ← holdAs .any
  let stride ← holdAs .any
  drop increment
  drop last
  drop first
  compare
  compare
  compare
  body
  drop stride
  drop bound
  drop index

/-- Statements up to the first that ends the block. -/
def sequence : List (Bool × Usage Unit) → Usage Unit
  | [] => pure ()
  | (ends, u) :: rest => do
    u
    if ends then pure () else sequence rest

end Statements

end Usage

section Trees

variable (symbols : SymbolTable)

/-- The class of a key as far as the expression tells. -/
def Expr.keyClass : Expr → KeyClass
  | ⟨_, .string _⟩ => .stringConstant
  | ⟨_, .integer _⟩ => .int
  | ⟨ty, _⟩ => if ty.isInteger then .int else .other

def Expr.isCall : Expr → Bool
  | ⟨_, .call _ _⟩ | ⟨_, .methodCall _ _ _⟩ => true
  | _ => false

def isGlobal (id : SymbolId) : Bool := (symbols.get? id).any (·.kind = .global)

/-- Where a variable of this type is copied to. -/
def copyKind : TypeTag → TempKind
  | .integer => .int
  | .number => .float
  | _ => .any

/-- Where a variable other than a global is copied to. -/
def Expr.copy : Expr → Option TempKind
  | ⟨ty, .symbol id⟩ => if ScriptC.isGlobal symbols id then none else some (copyKind ty.tag)
  | _ => none

def symbolUsage (id : SymbolId) : Usage (Option Nat) :=
  if isGlobal symbols id then Usage.holdAs .any else pure none

/-- Where the result of an operator on two classes of operands is kept. -/
def operatorResult (op : BinaryOp) (lhs rhs : OperandClass) : TempKind :=
  let form := Canonical.of op lhs rhs
  (if form.swap then Selection.binary? form.op rhs lhs
    else Selection.binary? form.op lhs rhs).elim .any (·.result)

def arithmeticUsage (op : BinaryOp) (lhsTy rhsTy : Ty) (lhs rhs : Usage (Option Nat)) :
    Usage (Option Nat) :=
  Usage.arithmetic lhs rhs (operatorResult op (.of lhsTy) (.of rhsTy))
    (Canonical.of op (.of lhsTy) (.of rhsTy)).negate

def binaryUsage (op : BinaryOp) (lhsTy rhsTy : Ty) (lhs rhs : Usage (Option Nat)) :
    Usage (Option Nat) :=
  if op = .and ∨ op = .or then Usage.logical lhs rhs else arithmeticUsage op lhsTy rhsTy lhs rhs

/-- Whether the bounds of a numeric loop are kept in native registers. -/
def isIntegerFor (start limit : Expr) (step : Option Expr) : Bool :=
  (Lower.constantStep? step).isSome && start.ty.isInteger && limit.ty.isInteger

mutual

def Expr.usage (symbols : SymbolTable) : Expr → Usage (Option Nat)
  | ⟨_, kind⟩ => kind.usage symbols

def ExprKind.usage (symbols : SymbolTable) : ExprKind → Usage (Option Nat)
  | .symbol id => symbolUsage symbols id
  | .index object key => Usage.index (object.usage symbols) (key.usage symbols)
      (Selection.load object.ty key.keyClass).result
  | .call callee args => Usage.call (callee.usage symbols) (usages symbols args)
  | .methodCall object _ args => Usage.methodCall (object.usage symbols) (usages symbols args)
  | .unary op operand => Usage.unary (operand.usage symbols) (Selection.unary op operand.ty).result
  | .binary op lhs rhs =>
    binaryUsage op lhs.ty rhs.ty (lhs.usage symbols) (rhs.usage symbols)
  | .function func => Usage.closure (func.usage symbols)
  | .table items => Usage.construct (itemUsages symbols items)
  | _ => pure none

def usages (symbols : SymbolTable) : List Expr → List (Usage (Option Nat))
  | [] => []
  | e :: es => e.usage symbols :: usages symbols es

def valueUsages (symbols : SymbolTable) : List Expr → List Usage.Value
  | [] => []
  | e :: es =>
    ⟨e.usage symbols, e.keyClass, e.isCall, e.copy symbols⟩ :: valueUsages symbols es

def itemUsages (symbols : SymbolTable) : List TableItem → List (Usage Unit)
  | [] => []
  | .positional value :: rest =>
    Usage.item (pure none) (value.usage symbols) :: itemUsages symbols rest
  | .named _ value :: rest =>
    Usage.item (pure none) (value.usage symbols) :: itemUsages symbols rest
  | .keyed key value :: rest =>
    Usage.item (key.usage symbols) (value.usage symbols) :: itemUsages symbols rest

def targetUsages (symbols : SymbolTable) : List Expr → List (Usage (List (Option Nat)))
  | [] => []
  | ⟨_, .symbol id⟩ :: es =>
    (do return [← symbolUsage symbols id]) :: targetUsages symbols es
  | ⟨_, .index object key⟩ :: es =>
    Usage.element (object.usage symbols) (key.usage symbols)
      (Selection.load object.ty key.keyClass).result :: targetUsages symbols es
  | _ :: es => pure [] :: targetUsages symbols es

def Stmt.usage (symbols : SymbolTable) : Stmt → Usage Unit
  | .declare vars exprs => Usage.declare vars.length (valueUsages symbols exprs)
  | .declareFunction _ func => Usage.eval (Usage.closure (func.usage symbols))
  | .assign targets exprs => Usage.assign (targetUsages symbols targets) (valueUsages symbols exprs)
  | .eval expr => Usage.eval (expr.usage symbols)
  | .ret exprs => Usage.ret (usages symbols exprs)
  | .block body => Usage.sequence (stmtUsages symbols body)
  | .branch clauses otherwise =>
    Usage.each (clauseUsages symbols clauses ++ otherwiseUsages symbols otherwise)
  | .whileLoop cond body =>
    Usage.clause (cond.usage symbols) (Usage.sequence (stmtUsages symbols body))
  | .repeatLoop body cond =>
    Usage.repeatLoop (Usage.sequence (stmtUsages symbols body)) (cond.usage symbols)
  | .numericFor _ start limit step body =>
    if isIntegerFor start limit step then
      Usage.integerFor (start.usage symbols) (limit.usage symbols)
        (Usage.sequence (stmtUsages symbols body))
    else
      Usage.taggedFor (start.usage symbols) (limit.usage symbols) (stepUsage symbols step)
        (Usage.sequence (stmtUsages symbols body))
  | _ => pure ()

def stmtUsages (symbols : SymbolTable) : List Stmt → List (Bool × Usage Unit)
  | [] => []
  | s :: ss => (s.ends, s.usage symbols) :: stmtUsages symbols ss

def clauseUsages (symbols : SymbolTable) : List Clause → List (Usage Unit)
  | [] => []
  | ⟨cond, body⟩ :: rest =>
    Usage.clause (cond.usage symbols) (Usage.sequence (stmtUsages symbols body)) ::
      clauseUsages symbols rest

def otherwiseUsages (symbols : SymbolTable) : Option (List Stmt) → List (Usage Unit)
  | none => []
  | some body => [Usage.sequence (stmtUsages symbols body)]

def stepUsage (symbols : SymbolTable) : Option Expr → Usage (Option Nat)
  | none => pure none
  | some e => e.usage symbols

def Function.usage (symbols : SymbolTable) : Function → Usage Unit
  | ⟨_, _, _, _, _, body⟩ => Usage.nested (Usage.sequence (stmtUsages symbols body))

end

/-- What is known about an expression before it is evaluated. -/
def Expr.described (e : Expr) : Usage.Value :=
  ⟨e.usage symbols, e.keyClass, e.isCall, e.copy symbols⟩

def TableItem.usage : TableItem → Usage Unit
  | .positional value | .named _ value => Usage.item (pure none) (value.usage symbols)
  | .keyed key value => Usage.item (key.usage symbols) (value.usage symbols)

def Expr.targetUsage : Expr → Usage (List (Option Nat))
  | ⟨_, .symbol id⟩ => do return [← symbolUsage symbols id]
  | ⟨_, .index object key⟩ => Usage.element (object.usage symbols) (key.usage symbols)
      (Selection.load object.ty key.keyClass).result
  | _ => pure []

def blockUsage (body : List Stmt) : Usage Unit := Usage.sequence (stmtUsages symbols body)

theorem map_use_valueUsages (es : List Expr) :
    (valueUsages symbols es).map (·.use) = usages symbols es := by
  induction es with
  | nil => rfl
  | cons e es ih => rw [valueUsages, List.map_cons, ih, usages]

theorem valueUsages_eq_map (es : List Expr) :
    valueUsages symbols es = es.map (·.described symbols) := by
  induction es with
  | nil => rfl
  | cons e es ih => rw [valueUsages, ih, List.map_cons, Expr.described]

theorem itemUsages_eq_map (is : List TableItem) :
    itemUsages symbols is = is.map (·.usage symbols) := by
  induction is with
  | nil => rfl
  | cons i is ih => cases i <;> rw [itemUsages, ih, List.map_cons] <;> rfl

theorem targetUsages_eq_map (es : List Expr) :
    targetUsages symbols es = es.map (·.targetUsage symbols) := by
  induction es with
  | nil => rfl
  | cons e es ih =>
    obtain ⟨ty, kind⟩ := e
    cases kind <;> rw [targetUsages, ih, List.map_cons] <;> first | rfl | simp

theorem stmtUsages_eq_map (ss : List Stmt) :
    stmtUsages symbols ss = ss.map fun s => (s.ends, s.usage symbols) := by
  induction ss with
  | nil => rfl
  | cons s ss ih => rw [stmtUsages, ih, List.map_cons]

theorem clauseUsages_eq_map (cs : List Clause) : clauseUsages symbols cs =
    cs.map fun c => Usage.clause (c.cond.usage symbols) (blockUsage symbols c.body) := by
  induction cs with
  | nil => rfl
  | cons c cs ih =>
    obtain ⟨cond, body⟩ := c
    rw [clauseUsages, ih, List.map_cons, blockUsage]

theorem otherwiseUsages_eq (otherwise : Option (List Stmt)) :
    otherwiseUsages symbols otherwise = (otherwise.map (blockUsage symbols)).toList := by
  cases otherwise <;> rfl

theorem stepUsage_eq (step : Option Expr) : stepUsage symbols step =
    (step.map (·.described symbols)).elim (pure none) (·.use) := by
  cases step <;> rfl

end Trees

namespace Tree

/-- The calls of a tree in the order in which they are emitted. -/
def callViews (t : Tree) : List CallView := (t.main.usage t.symbols {}).2.2

/-- At every call of the tree, what is live and takes no part in it lies below the callee. -/
def CallsClear (t : Tree) : Prop := ∀ c ∈ t.callViews, c.Clear

instance (t : Tree) : Decidable t.CallsClear := inferInstanceAs (Decidable (∀ c ∈ _, _))

end Tree

end ScriptC
