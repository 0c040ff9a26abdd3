import ScriptC.Lowering

/-! # Induction over trees

Expressions, statements and functions contain each other. A property of all three holds of every
tree if each form passes it on from its parts.
-/

namespace ScriptC

/-- The expressions of an item. -/
def TableItem.exprs : TableItem → List Expr
  | positional value => [value]
  | named _ value => [value]
  | keyed key value => [key, value]

mutual

/-- Whether a statement always leaves the block it stands in. -/
def Stmt.ends : Stmt → Bool
  | .ret _ => true
  | .leave => true
  | .block body => anyEnds body
  | _ => false

def Stmt.anyEnds : List Stmt → Bool
  | [] => false
  | s :: ss => s.ends || anyEnds ss

end

theorem Stmt.anyEnds_eq_any (ss : List Stmt) : anyEnds ss = ss.any Stmt.ends := by
  induction ss with
  | nil => rfl
  | cons s ss ih => rw [anyEnds, ih, List.any_cons]

/-- Every form of tree passes the property on from its parts. An element that is assigned to is
not evaluated itself, only its container and its key are. -/
structure TreeCases (E : Expr → Prop) (S : Stmt → Prop) (F : Function → Prop) : Prop where
  nil : ∀ ty, E ⟨ty, .nil⟩
  true : ∀ ty, E ⟨ty, .true⟩
  false : ∀ ty, E ⟨ty, .false⟩
  integer : ∀ ty n, E ⟨ty, .integer n⟩
  number : ∀ ty x, E ⟨ty, .number x⟩
  string : ∀ ty s, E ⟨ty, .string s⟩
  vararg : ∀ ty, E ⟨ty, .vararg⟩
  symbol : ∀ ty id, E ⟨ty, .symbol id⟩
  index : ∀ ty object key, E object → E key → E ⟨ty, .index object key⟩
  call : ∀ ty callee args, E callee → (∀ e ∈ args, E e) → E ⟨ty, .call callee args⟩
  methodCall : ∀ ty object name args, E object → (∀ e ∈ args, E e) →
    E ⟨ty, .methodCall object name args⟩
  unary : ∀ ty op operand, E operand → E ⟨ty, .unary op operand⟩
  binary : ∀ ty op lhs rhs, E lhs → E rhs → E ⟨ty, .binary op lhs rhs⟩
  function : ∀ ty func, F func → E ⟨ty, .function func⟩
  table : ∀ ty items, (∀ i ∈ items, ∀ e ∈ i.exprs, E e) → E ⟨ty, .table items⟩
  declare : ∀ vars exprs, (∀ e ∈ exprs, E e) → S (.declare vars exprs)
  declareFunction : ∀ var func, F func → S (.declareFunction var func)
  assign : ∀ targets exprs,
    (∀ t ∈ targets, ∀ ty object key, t = ⟨ty, .index object key⟩ → E object ∧ E key) →
    (∀ e ∈ exprs, E e) → S (.assign targets exprs)
  eval : ∀ expr, E expr → S (.eval expr)
  ret : ∀ exprs, (∀ e ∈ exprs, E e) → S (.ret exprs)
  block : ∀ body, (∀ s ∈ body, S s) → S (.block body)
  branch : ∀ clauses otherwise, (∀ c ∈ clauses, E c.cond ∧ ∀ s ∈ c.body, S s) →
    (∀ body ∈ otherwise, ∀ s ∈ body, S s) → S (.branch clauses otherwise)
  whileLoop : ∀ cond body, E cond → (∀ s ∈ body, S s) → S (.whileLoop cond body)
  repeatLoop : ∀ body cond, (∀ s ∈ body, S s) → E cond → S (.repeatLoop body cond)
  numericFor : ∀ var start limit step body, E start → E limit → (∀ e ∈ step, E e) →
    (∀ s ∈ body, S s) → S (.numericFor var start limit step body)
  genericFor : ∀ vars exprs body, S (.genericFor vars exprs body)
  leave : S .leave
  jump : ∀ label, S (.jump label)
  label : ∀ name, S (.label name)
  body : ∀ f : Function, (∀ s ∈ f.body, S s) → F f

namespace TreeCases

variable {E : Expr → Prop} {S : Stmt → Prop} {F : Function → Prop}

mutual

theorem expr (h : TreeCases E S F) : ∀ e, E e
  | ⟨ty, kind⟩ => h.kinds kind ty

theorem kinds (h : TreeCases E S F) : ∀ (kind : ExprKind) (ty : Ty), E ⟨ty, kind⟩
  | .nil, ty => h.nil ty
  | .true, ty => h.true ty
  | .false, ty => h.false ty
  | .integer n, ty => h.integer ty n
  | .number x, ty => h.number ty x
  | .string s, ty => h.string ty s
  | .vararg, ty => h.vararg ty
  | .symbol id, ty => h.symbol ty id
  | .index object key, ty => h.index ty object key (h.expr object) (h.expr key)
  | .call callee args, ty => h.call ty callee args (h.expr callee) (h.exprs args)
  | .methodCall object name args, ty =>
    h.methodCall ty object name args (h.expr object) (h.exprs args)
  | .unary op operand, ty => h.unary ty op operand (h.expr operand)
  | .binary op lhs rhs, ty => h.binary ty op lhs rhs (h.expr lhs) (h.expr rhs)
  | .function func, ty => h.function ty func (h.func func)
  | .table contents, ty => h.table ty contents (h.items contents)

theorem exprs (h : TreeCases E S F) : ∀ es : List Expr, ∀ e ∈ es, E e
  | [] => by simp
  | e :: es => List.forall_mem_cons.2 ⟨h.expr e, h.exprs es⟩

theorem items (h : TreeCases E S F) : ∀ is : List TableItem, ∀ i ∈ is, ∀ e ∈ i.exprs, E e
  | [] => by simp
  | .positional value :: is =>
    List.forall_mem_cons.2 ⟨List.forall_mem_singleton.2 (h.expr value), h.items is⟩
  | .named _ value :: is =>
    List.forall_mem_cons.2 ⟨List.forall_mem_singleton.2 (h.expr value), h.items is⟩
  | .keyed key value :: is =>
    List.forall_mem_cons.2 ⟨List.forall_mem_cons.2 ⟨h.expr key,
      List.forall_mem_singleton.2 (h.expr value)⟩, h.items is⟩

theorem target (h : TreeCases E S F) : ∀ t : Expr, ∀ ty object key,
    t = ⟨ty, .index object key⟩ → E object ∧ E key
  | ⟨_, .index object key⟩, _, _, _, rfl => ⟨h.expr object, h.expr key⟩

theorem targets (h : TreeCases E S F) : ∀ ts : List Expr,
    ∀ t ∈ ts, ∀ ty object key, t = ⟨ty, .index object key⟩ → E object ∧ E key
  | [] => by simp
  | t :: ts => List.forall_mem_cons.2 ⟨h.target t, h.targets ts⟩

theorem stmt (h : TreeCases E S F) : ∀ s, S s
  | .declare vars es => h.declare vars es (h.exprs es)
  | .declareFunction var func => h.declareFunction var func (h.func func)
  | .assign ts es => h.assign ts es (h.targets ts) (h.exprs es)
  | .eval e => h.eval e (h.expr e)
  | .ret es => h.ret es (h.exprs es)
  | .block body => h.block body (h.stmts body)
  | .branch cs none => h.branch cs none (h.clauses cs) (by simp)
  | .branch cs (some body) =>
    h.branch cs (some body) (h.clauses cs) (by simpa using h.stmts body)
  | .whileLoop cond body => h.whileLoop cond body (h.expr cond) (h.stmts body)
  | .repeatLoop body cond => h.repeatLoop body cond (h.stmts body) (h.expr cond)
  | .numericFor var start limit none body =>
    h.numericFor var start limit none body (h.expr start) (h.expr limit) (by simp) (h.stmts body)
  | .numericFor var start limit (some step) body =>
    h.numericFor var start limit (some step) body (h.expr start) (h.expr limit)
      (by simpa using h.expr step) (h.stmts body)
  | .genericFor vars es body => h.genericFor vars es body
  | .leave => h.leave
  | .jump label => h.jump label
  | .label name => h.label name

theorem stmts (h : TreeCases E S F) : ∀ ss : List Stmt, ∀ s ∈ ss, S s
  | [] => by simp
  | s :: ss => List.forall_mem_cons.2 ⟨h.stmt s, h.stmts ss⟩

theorem clauses (h : TreeCases E S F) : ∀ cs : List Clause, ∀ c ∈ cs, E c.cond ∧ ∀ s ∈ c.body, S s
  | [] => by simp
  | ⟨cond, body⟩ :: cs => List.forall_mem_cons.2 ⟨⟨h.expr cond, h.stmts body⟩, h.clauses cs⟩

theorem func (h : TreeCases E S F) : ∀ f, F f
  | ⟨id, name, params, isVararg, upvalues, body⟩ =>
    h.body ⟨id, name, params, isVararg, upvalues, body⟩ (h.stmts body)

end

end TreeCases

namespace Lower

variable (symbols : SymbolTable)

/-- An item with its parts lowered. -/
def ofItem : TableItem → Item
  | .positional value => .positional (ofExpr symbols value)
  | .named name value => .named name (ofExpr symbols value)
  | .keyed key value => .keyed (ofExpr symbols key) (ofExpr symbols value)

theorem ofExpr_ty (e : Expr) : (ofExpr symbols e).ty = e.ty := by
  cases e
  rfl

@[simp] theorem ofExprs_eq_map (es : List Expr) : ofExprs symbols es = es.map (ofExpr symbols) := by
  induction es with
  | nil => rfl
  | cons e es ih => rw [ofExprs, ih, List.map_cons]

@[simp] theorem ofItems_eq_map (is : List TableItem) :
    ofItems symbols is = is.map (ofItem symbols) := by
  induction is with
  | nil => rfl
  | cons i is ih => cases i <;> rw [ofItems, ih, List.map_cons] <;> rfl

@[simp] theorem ofTargets_eq_map (es : List Expr) :
    ofTargets symbols es = es.map (ofTarget symbols) := by
  induction es with
  | nil => rfl
  | cons e es ih => rw [ofTargets, ih, List.map_cons]

@[simp] theorem ofStmts_eq_map (ss : List Stmt) : ofStmts symbols ss = ss.map (ofStmt symbols) := by
  induction ss with
  | nil => rfl
  | cons s ss ih => rw [ofStmts, ih, List.map_cons]

@[simp] theorem ofClauses_eq_map (cs : List Clause) :
    ofClauses symbols cs = cs.map fun c => (ofExpr symbols c.cond, ofBlock symbols c.body) := by
  induction cs with
  | nil => rfl
  | cons c cs ih =>
    obtain ⟨cond, body⟩ := c
    rw [ofClauses, ih, List.map_cons, ofBlock]

@[simp] theorem ofOtherwise_eq_map (otherwise : Option (List Stmt)) :
    ofOtherwise symbols otherwise = otherwise.map (ofBlock symbols) := by
  cases otherwise <;> rfl

@[simp] theorem ofStep_eq_map (step : Option Expr) :
    ofStep symbols step = step.map (ofExpr symbols) := by
  cases step <;> rfl

end Lower

end ScriptC
