import ScriptC.Proofs.Serialisation.Records

/-! # Trees that are read back from their text

Each form of tree is recovered from its JSON form if its parts are, and hence every tree is
recovered from its text: its symbols and types, its literals and names, and every field that may
be missing.
-/

namespace ScriptC

open Json

/-! ## Number literals -/

mutual

/-- The number literals of an expression. -/
def Expr.numbers : Expr → List Binary64
  | ⟨_, kind⟩ => kind.numbers

def ExprKind.numbers : ExprKind → List Binary64
  | .number x => [x]
  | .index object key => object.numbers ++ key.numbers
  | .call callee args => callee.numbers ++ exprsNumbers args
  | .methodCall object _ args => object.numbers ++ exprsNumbers args
  | .unary _ operand => operand.numbers
  | .binary _ lhs rhs => lhs.numbers ++ rhs.numbers
  | .function func => func.numbers
  | .table items => itemsNumbers items
  | _ => []

def TableItem.numbers : TableItem → List Binary64
  | .positional value => value.numbers
  | .named _ value => value.numbers
  | .keyed key value => key.numbers ++ value.numbers

def Stmt.numbers : Stmt → List Binary64
  | .declare _ exprs => exprsNumbers exprs
  | .declareFunction _ func => func.numbers
  | .assign targets exprs => exprsNumbers targets ++ exprsNumbers exprs
  | .eval expr => expr.numbers
  | .ret exprs => exprsNumbers exprs
  | .block body => stmtsNumbers body
  | .branch clauses none => clausesNumbers clauses
  | .branch clauses (some body) => clausesNumbers clauses ++ stmtsNumbers body
  | .whileLoop cond body => cond.numbers ++ stmtsNumbers body
  | .repeatLoop body cond => stmtsNumbers body ++ cond.numbers
  | .numericFor _ start limit none body => start.numbers ++ limit.numbers ++ stmtsNumbers body
  | .numericFor _ start limit (some step) body =>
    start.numbers ++ limit.numbers ++ step.numbers ++ stmtsNumbers body
  | .genericFor _ exprs body => exprsNumbers exprs ++ stmtsNumbers body
  | .leave | .jump _ | .label _ => []

def Clause.numbers : Clause → List Binary64
  | ⟨cond, body⟩ => cond.numbers ++ stmtsNumbers body

def Function.numbers : Function → List Binary64
  | ⟨_, _, _, _, _, body⟩ => stmtsNumbers body

def exprsNumbers : List Expr → List Binary64
  | [] => []
  | e :: es => e.numbers ++ exprsNumbers es

def itemsNumbers : List TableItem → List Binary64
  | [] => []
  | i :: is => i.numbers ++ itemsNumbers is

def stmtsNumbers : List Stmt → List Binary64
  | [] => []
  | s :: ss => s.numbers ++ stmtsNumbers ss

def clausesNumbers : List Clause → List Binary64
  | [] => []
  | c :: cs => c.numbers ++ clausesNumbers cs

end

/-- The number literals of a tree. -/
def Tree.numbers (t : Tree) : List Binary64 := t.main.numbers

/-! ## Types and symbols -/

theorem Ty.encodes (ty : Ty) : Encodes Ty.ofJson? ty.toJson ty := by
  cases ty with
  | userDefined name =>
    apply Encodes.tagged (.str name)
    intro d _
    rfl
  | _ => exact ⟨.str _, fun d _ => by cases d <;> rfl⟩

theorem UnaryOp.encodes (op : UnaryOp) : Encodes UnaryOp.ofJson? (.text op.name) op := by
  cases op <;> exact ⟨.str _, fun d _ => by cases d <;> rfl⟩

theorem BinaryOp.encodes (op : BinaryOp) : Encodes BinaryOp.ofJson? (.text op.name) op := by
  cases op <;> exact ⟨.str _, fun d _ => by cases d <;> rfl⟩

theorem SymbolKind.encodes (kind : SymbolKind) : Encodes SymbolKind.ofJson? kind.toJson kind := by
  cases kind with
  | localOf function =>
    apply Encodes.variant
    · simp [proper_nat]
    · intro d _
      simp [tagged, SymbolKind.ofJson?, fields?_record, word?_nat]
  | upvalue target index =>
    apply Encodes.variant
    · simp [proper_nat]
    · intro d _
      simp [tagged, SymbolKind.ofJson?, fields?_record, word?_nat]
  | global => exact ⟨.str _, fun d _ => by cases d with | zero => rfl | succ d => cases d <;> rfl⟩

theorem Symbol.encodes (s : Symbol) : Encodes Symbol.ofJson? s.toJson s := by
  have hty := s.ty.encodes
  have hkind := s.kind.encodes
  apply Encodes.record
  · simp [hty.proper, hkind.proper, text, Proper.str]
  · intro d hd
    simp only [List.forall_mem_cons] at hd
    simp [Symbol.ofJson?, fields?_record, text, string?, hty.reads, hkind.reads, hd]

theorem SymbolTable.encodes (t : SymbolTable) : Encodes SymbolTable.ofJson? t.toJson t := by
  apply Encodes.list fun s _ => Symbol.encodes s
  intro d h
  simp [SymbolTable.ofJson?, fields?_record, h]

/-! ## Lists -/

theorem exprsJson_eq_map (es : List Expr) : exprsJson es = es.map Expr.toJson := by
  induction es with
  | nil => rfl
  | cons e es ih => rw [exprsJson, ih, List.map_cons]

theorem itemsJson_eq_map (is : List TableItem) : itemsJson is = is.map TableItem.toJson := by
  induction is with
  | nil => rfl
  | cons i is ih => rw [itemsJson, ih, List.map_cons]

theorem stmtsJson_eq_map (ss : List Stmt) : stmtsJson ss = ss.map Stmt.toJson := by
  induction ss with
  | nil => rfl
  | cons s ss ih => rw [stmtsJson, ih, List.map_cons]

theorem clausesJson_eq_map (cs : List Clause) : clausesJson cs = cs.map Clause.toJson := by
  induction cs with
  | nil => rfl
  | cons c cs ih => rw [clausesJson, ih, List.map_cons]

/-! The JSON form of a tree is read as the tree. -/

def Expr.Recovered (e : Expr) : Prop := Encodes Expr.ofJson? e.toJson e

def ExprKind.Recovered (kind : ExprKind) : Prop := Encodes ExprKind.ofJson? kind.toJson kind

def TableItem.Recovered (i : TableItem) : Prop := Encodes TableItem.ofJson? i.toJson i

def Stmt.Recovered (s : Stmt) : Prop := Encodes Stmt.ofJson? s.toJson s

def Clause.Recovered (c : Clause) : Prop := Encodes Clause.ofJson? c.toJson c

def Function.Recovered (f : Function) : Prop := Encodes Function.ofJson? f.toJson f

section Lists

variable {es : List Expr} {is : List TableItem} {ss : List Stmt} {cs : List Clause}

theorem encodes_exprs (h : ∀ e ∈ es, e.Recovered) : Encodes exprsOfJson? (.arr (exprsJson es)) es := by
  rw [exprsJson_eq_map]
  exact .arr (fun _ _ => by rw [exprsOfJson?]) h

theorem encodes_items (h : ∀ i ∈ is, i.Recovered) : Encodes itemsOfJson? (.arr (itemsJson is)) is := by
  rw [itemsJson_eq_map]
  exact .arr (fun _ _ => by rw [itemsOfJson?]) h

theorem encodes_clauses (h : ∀ c ∈ cs, c.Recovered) :
    Encodes clausesOfJson? (.arr (clausesJson cs)) cs := by
  rw [clausesJson_eq_map]
  exact .arr (fun _ _ => by rw [clausesOfJson?]) h

theorem encodes_block (h : ∀ s ∈ ss, s.Recovered) :
    Encodes blockOfJson? (blockJson (stmtsJson ss)) ss := by
  rw [stmtsJson_eq_map]
  apply Encodes.list h
  intro d hread
  simp [blockOfJson?, fields?_record, hread]

end Lists

/-! ## Expressions -/

attribute [local simp] tagged Expr.Recovered ExprKind.Recovered TableItem.Recovered Stmt.Recovered
  Clause.Recovered Function.Recovered Expr.toJson ExprKind.toJson TableItem.toJson Stmt.toJson
  Clause.toJson Function.toJson Expr.ofJson? ExprKind.ofJson? TableItem.ofJson? Stmt.ofJson?
  Clause.ofJson? Function.ofJson?

namespace ExprKind

theorem recovered_nil : nil.Recovered :=
  ⟨.str _, fun d _ => by simp [toJson, text, ExprKind.ofJson?, name?]⟩

theorem recovered_true : ExprKind.true.Recovered :=
  ⟨.str _, fun d _ => by simp [toJson, text, ExprKind.ofJson?, name?]⟩

theorem recovered_false : ExprKind.false.Recovered :=
  ⟨.str _, fun d _ => by simp [toJson, text, ExprKind.ofJson?, name?]⟩

theorem recovered_vararg : vararg.Recovered :=
  ⟨.str _, fun d _ => by simp [toJson, text, ExprKind.ofJson?, name?]⟩

theorem recovered_integer (n : Int64) : (integer n).Recovered := by
  rw [Recovered, toJson]
  apply Encodes.tagged (proper_int n.toInt)
  intro d _
  rw [tagged, ExprKind.ofJson?]
  simp [int64?_int]

theorem recovered_number {x : Binary64} (hx : x.isFinite) : (number x).Recovered := by
  rw [Recovered, toJson]
  apply Encodes.tagged (Binary64.proper_toJson hx)
  intro d _
  rw [tagged, ExprKind.ofJson?]
  simp [Binary64.binary64?_toJson hx]

theorem recovered_string (s : String) : (string s).Recovered := by
  rw [Recovered, toJson]
  apply Encodes.tagged (.str s)
  intro d _
  rw [tagged, ExprKind.ofJson?]
  simp [string?]

theorem recovered_symbol (id : SymbolId) : (symbol id).Recovered := by
  rw [Recovered, toJson]
  apply Encodes.tagged (proper_nat id.toNat)
  intro d _
  rw [tagged, ExprKind.ofJson?]
  simp [word?_nat]

variable {object key callee operand lhs rhs : Expr} {args : List Expr}

theorem recovered_index (hobject : object.Recovered) (hkey : key.Recovered) :
    (index object key).Recovered := by
  rw [Recovered, toJson]
  apply Encodes.variant
  · simp [hobject.proper, hkey.proper]
  · intro d hd
    simp only [List.forall_mem_cons] at hd
    rw [tagged, ExprKind.ofJson?]
    simp [fields?_record, hobject.reads, hkey.reads, hd]

theorem recovered_call (hcallee : callee.Recovered) (hargs : ∀ e ∈ args, e.Recovered) :
    (call callee args).Recovered := by
  have hargs := encodes_exprs hargs
  rw [Recovered, toJson]
  apply Encodes.variant
  · simp [hcallee.proper, hargs.proper]
  · intro d hd
    simp only [List.forall_mem_cons] at hd
    rw [tagged, ExprKind.ofJson?]
    simp [fields?_record, hcallee.reads, hargs.reads, hd]

theorem recovered_methodCall (method : String) (hobject : object.Recovered)
    (hargs : ∀ e ∈ args, e.Recovered) : (methodCall object method args).Recovered := by
  have hargs := encodes_exprs hargs
  rw [Recovered, toJson]
  apply Encodes.variant
  · simp [hobject.proper, hargs.proper, text, Proper.str]
  · intro d hd
    simp only [List.forall_mem_cons] at hd
    rw [tagged, ExprKind.ofJson?]
    simp [fields?_record, text, string?, hobject.reads, hargs.reads, hd]

theorem recovered_unary (op : UnaryOp) (hoperand : operand.Recovered) :
    (unary op operand).Recovered := by
  have hop := op.encodes
  rw [Recovered, toJson]
  apply Encodes.variant
  · simp [hop.proper, hoperand.proper]
  · intro d hd
    simp only [List.forall_mem_cons] at hd
    rw [tagged, ExprKind.ofJson?]
    simp [fields?_record, hop.reads, hoperand.reads, hd]

theorem recovered_binary (op : BinaryOp) (hlhs : lhs.Recovered) (hrhs : rhs.Recovered) :
    (binary op lhs rhs).Recovered := by
  have hop := op.encodes
  rw [Recovered, toJson]
  apply Encodes.variant
  · simp [hop.proper, hlhs.proper, hrhs.proper]
  · intro d hd
    simp only [List.forall_mem_cons] at hd
    rw [tagged, ExprKind.ofJson?]
    simp [fields?_record, hop.reads, hlhs.reads, hrhs.reads, hd]

theorem recovered_function {func : Function} (h : func.Recovered) : (function func).Recovered := by
  rw [Recovered, toJson]
  apply Encodes.tagged h.proper
  intro d hd
  rw [tagged, ExprKind.ofJson?]
  simp [h.reads, hd]

theorem recovered_table {items : List TableItem} (h : ∀ i ∈ items, i.Recovered) :
    (table items).Recovered := by
  have h := encodes_items h
  rw [Recovered, toJson]
  apply Encodes.tagged h.proper
  intro d hd
  rw [tagged, ExprKind.ofJson?]
  simp [h.reads, hd]

end ExprKind

theorem Expr.recovered_of_kind (ty : Ty) {kind : ExprKind} (hkind : kind.Recovered) :
    Expr.Recovered ⟨ty, kind⟩ := by
  have hty := ty.encodes
  rw [Recovered, toJson]
  apply Encodes.record
  · simp [hty.proper, hkind.proper]
  · intro d hd
    simp only [List.forall_mem_cons] at hd
    rw [Expr.ofJson?]
    simp [fields?_record, hty.reads, hkind.reads, hd]

namespace TableItem

variable {key value : Expr}

theorem recovered_positional (h : value.Recovered) : (positional value).Recovered := by
  rw [Recovered, toJson]
  apply Encodes.tagged h.proper
  intro d hd
  rw [tagged, TableItem.ofJson?]
  simp [h.reads, hd]

theorem recovered_named (name : String) (h : value.Recovered) : (named name value).Recovered := by
  rw [Recovered, toJson]
  apply Encodes.tagged
  · exact .arr (by simp [h.proper, text, Proper.str])
  · intro d hd
    obtain ⟨n, rfl, hn⟩ := depth_arr_le.1 hd
    simp only [List.forall_mem_cons] at hn
    rw [tagged, TableItem.ofJson?]
    simp [text, string?, h.reads, hn]

theorem recovered_keyed (hkey : key.Recovered) (hvalue : value.Recovered) :
    (keyed key value).Recovered := by
  rw [Recovered, toJson]
  apply Encodes.tagged
  · exact .arr (by simp [hkey.proper, hvalue.proper])
  · intro d hd
    obtain ⟨n, rfl, hn⟩ := depth_arr_le.1 hd
    simp only [List.forall_mem_cons] at hn
    rw [tagged, TableItem.ofJson?]
    simp [hkey.reads, hvalue.reads, hn]

end TableItem

/-! ## Statements -/

namespace Stmt

variable {expr cond start limit step : Expr} {exprs targets : List Expr} {body : List Stmt}
  {func : Function} {clauses : List Clause}

theorem recovered_declare (vars : List SymbolId) (h : ∀ e ∈ exprs, e.Recovered) :
    (declare vars exprs).Recovered := by
  have hvars := SymbolId.encodes_listJson vars
  have hexprs := encodes_exprs h
  rw [Recovered, toJson]
  apply Encodes.variant
  · simp [hvars.proper, hexprs.proper]
  · intro d hd
    simp only [List.forall_mem_cons] at hd
    rw [tagged, Stmt.ofJson?]
    simp [fields?_record, hvars.reads, hexprs.reads, hd]

theorem recovered_declareFunction (var : SymbolId) (h : func.Recovered) :
    (declareFunction var func).Recovered := by
  rw [Recovered, toJson]
  apply Encodes.variant
  · simp [proper_nat, h.proper]
  · intro d hd
    simp only [List.forall_mem_cons] at hd
    rw [tagged, Stmt.ofJson?]
    simp [fields?_record, word?_nat, h.reads, hd]

theorem recovered_assign (htargets : ∀ e ∈ targets, e.Recovered)
    (hexprs : ∀ e ∈ exprs, e.Recovered) : (assign targets exprs).Recovered := by
  have htargets := encodes_exprs htargets
  have hexprs := encodes_exprs hexprs
  rw [Recovered, toJson]
  apply Encodes.variant
  · simp [htargets.proper, hexprs.proper]
  · intro d hd
    simp only [List.forall_mem_cons] at hd
    rw [tagged, Stmt.ofJson?]
    simp [fields?_record, htargets.reads, hexprs.reads, hd]

theorem recovered_eval (h : expr.Recovered) : (eval expr).Recovered := by
  rw [Recovered, toJson]
  apply Encodes.tagged h.proper
  intro d hd
  rw [tagged, Stmt.ofJson?]
  simp [h.reads, hd]

theorem recovered_ret (h : ∀ e ∈ exprs, e.Recovered) : (ret exprs).Recovered := by
  have h := encodes_exprs h
  rw [Recovered, toJson]
  apply Encodes.tagged h.proper
  intro d hd
  rw [tagged, Stmt.ofJson?]
  simp [h.reads, hd]

theorem recovered_block (h : ∀ s ∈ body, s.Recovered) : (block body).Recovered := by
  have h := encodes_block h
  rw [Recovered, toJson]
  apply Encodes.tagged h.proper
  intro d hd
  rw [tagged, Stmt.ofJson?]
  simp [h.reads, hd]

theorem recovered_branch (hclauses : ∀ c ∈ clauses, c.Recovered) :
    (branch clauses none).Recovered := by
  have hclauses := encodes_clauses hclauses
  rw [Recovered, toJson]
  apply Encodes.variant
  · simp [hclauses.proper, Proper.null]
  · intro d hd
    simp only [List.forall_mem_cons] at hd
    rw [tagged, Stmt.ofJson?]
    simp [fields?_record, hclauses.reads, hd]

theorem recovered_branch_else (hclauses : ∀ c ∈ clauses, c.Recovered)
    (hbody : ∀ s ∈ body, s.Recovered) : (branch clauses (some body)).Recovered := by
  have hclauses := encodes_clauses hclauses
  have hbody := encodes_block hbody
  have hnull : blockJson (stmtsJson body) ≠ .null := nofun
  rw [Recovered, toJson]
  apply Encodes.variant
  · simp [hclauses.proper, hbody.proper]
  · intro d hd
    simp only [List.forall_mem_cons] at hd
    rw [tagged, Stmt.ofJson?]
    simp [fields?_record, hclauses.reads, hbody.reads, hd]

theorem recovered_whileLoop (hcond : cond.Recovered) (hbody : ∀ s ∈ body, s.Recovered) :
    (whileLoop cond body).Recovered := by
  have hbody := encodes_block hbody
  rw [Recovered, toJson]
  apply Encodes.variant
  · simp [hcond.proper, hbody.proper]
  · intro d hd
    simp only [List.forall_mem_cons] at hd
    rw [tagged, Stmt.ofJson?]
    simp [fields?_record, hcond.reads, hbody.reads, hd]

theorem recovered_repeatLoop (hbody : ∀ s ∈ body, s.Recovered) (hcond : cond.Recovered) :
    (repeatLoop body cond).Recovered := by
  have hbody := encodes_block hbody
  rw [Recovered, toJson]
  apply Encodes.variant
  · simp [hcond.proper, hbody.proper]
  · intro d hd
    simp only [List.forall_mem_cons] at hd
    rw [tagged, Stmt.ofJson?]
    simp [fields?_record, hcond.reads, hbody.reads, hd]

theorem recovered_numericFor (var : SymbolId) (hstart : start.Recovered) (hlimit : limit.Recovered)
    (hbody : ∀ s ∈ body, s.Recovered) : (numericFor var start limit none body).Recovered := by
  have hbody := encodes_block hbody
  rw [Recovered, toJson]
  apply Encodes.variant
  · simp [proper_nat, hstart.proper, hlimit.proper, Proper.null, hbody.proper]
  · intro d hd
    simp only [List.forall_mem_cons] at hd
    rw [tagged, Stmt.ofJson?]
    simp [fields?_record, word?_nat, hstart.reads, hlimit.reads, hbody.reads,
      hd]

theorem recovered_numericFor_step (var : SymbolId) (hstart : start.Recovered)
    (hlimit : limit.Recovered) (hstep : step.Recovered) (hbody : ∀ s ∈ body, s.Recovered) :
    (numericFor var start limit (some step) body).Recovered := by
  have hbody := encodes_block hbody
  have hnull : step.toJson ≠ .null := by
    cases step
    rw [Expr.toJson]
    nofun
  rw [Recovered, toJson]
  apply Encodes.variant
  · simp [proper_nat, hstart.proper, hlimit.proper, hstep.proper, hbody.proper]
  · intro d hd
    simp only [List.forall_mem_cons] at hd
    rw [tagged, Stmt.ofJson?]
    simp [fields?_record, word?_nat, hstart.reads, hlimit.reads, hstep.reads,
      hbody.reads, hd]

theorem recovered_genericFor (vars : List SymbolId) (hexprs : ∀ e ∈ exprs, e.Recovered)
    (hbody : ∀ s ∈ body, s.Recovered) : (genericFor vars exprs body).Recovered := by
  have hvars := SymbolId.encodes_listJson vars
  have hexprs := encodes_exprs hexprs
  have hbody := encodes_block hbody
  rw [Recovered, toJson]
  apply Encodes.variant
  · simp [hvars.proper, hexprs.proper, hbody.proper]
  · intro d hd
    simp only [List.forall_mem_cons] at hd
    rw [tagged, Stmt.ofJson?]
    simp [fields?_record, hvars.reads, hexprs.reads, hbody.reads, hd]

theorem recovered_leave : leave.Recovered :=
  ⟨.str _, fun d _ => by simp [toJson, text, Stmt.ofJson?, name?]⟩

theorem recovered_jump (name : String) : (jump name).Recovered := by
  rw [Recovered, toJson]
  apply Encodes.tagged (.str name)
  intro d _
  rw [tagged, Stmt.ofJson?]
  simp [string?]

theorem recovered_label (name : String) : (label name).Recovered := by
  rw [Recovered, toJson]
  apply Encodes.tagged (.str name)
  intro d _
  rw [tagged, Stmt.ofJson?]
  simp [string?]

end Stmt

theorem Clause.recovered_of_parts {cond : Expr} {body : List Stmt} (hcond : cond.Recovered)
    (hbody : ∀ s ∈ body, s.Recovered) : Clause.Recovered ⟨cond, body⟩ := by
  have hbody := encodes_block hbody
  rw [Recovered, toJson]
  apply Encodes.record
  · simp [hcond.proper, hbody.proper]
  · intro d hd
    simp only [List.forall_mem_cons] at hd
    rw [Clause.ofJson?]
    simp [fields?_record, hcond.reads, hbody.reads, hd]

theorem proper_nameJson (name : Option String) : (nameJson name).Proper := by
  cases name with
  | none => exact .null
  | some s => exact .str s

theorem optionalName?_nameJson (name : Option String) :
    optionalName? (some (nameJson name)) = some name := by
  cases name <;> rfl

theorem Function.recovered_of_body (id : FunctionId) (name : Option String) (params : List SymbolId)
    (isVararg : Bool) (upvalues : List SymbolId) {body : List Stmt} (h : ∀ s ∈ body, s.Recovered) :
    Function.Recovered ⟨id, name, params, isVararg, upvalues, body⟩ := by
  have hparams := SymbolId.encodes_listJson params
  have hupvalues := SymbolId.encodes_listJson upvalues
  have hbody := encodes_block h
  rw [Recovered, toJson]
  apply Encodes.record
  · simp [proper_nat, proper_nameJson, Proper.bool, hparams.proper, hupvalues.proper, hbody.proper]
  · intro d hd
    simp only [List.forall_mem_cons] at hd
    rw [Function.ofJson?]
    simp [fields?_record, word?_nat, optionalName?_nameJson, bool?, hparams.reads,
      hupvalues.reads, hbody.reads, hd]

/-! ## Trees -/

/-- All numbers in a list are finite. -/
def AllFinite (xs : List Binary64) : Prop := ∀ x ∈ xs, x.isFinite = true

theorem allFinite_append {xs ys : List Binary64} :
    AllFinite (xs ++ ys) ↔ AllFinite xs ∧ AllFinite ys :=
  List.forall_mem_append

mutual

theorem Expr.recovered : ∀ e : Expr, AllFinite e.numbers → e.Recovered
  | ⟨ty, kind⟩, h => by
    rw [Expr.numbers] at h
    exact Expr.recovered_of_kind ty (kind.recovered h)

theorem ExprKind.recovered : ∀ kind : ExprKind, AllFinite kind.numbers → kind.Recovered
  | .nil, _ => ExprKind.recovered_nil
  | .true, _ => ExprKind.recovered_true
  | .false, _ => ExprKind.recovered_false
  | .integer n, _ => ExprKind.recovered_integer n
  | .number x, h => by
    rw [ExprKind.numbers] at h
    exact ExprKind.recovered_number (h x List.mem_cons_self)
  | .string s, _ => ExprKind.recovered_string s
  | .vararg, _ => ExprKind.recovered_vararg
  | .symbol id, _ => ExprKind.recovered_symbol id
  | .index object key, h => by
    rw [ExprKind.numbers, allFinite_append] at h
    exact ExprKind.recovered_index (object.recovered h.1) (key.recovered h.2)
  | .call callee args, h => by
    rw [ExprKind.numbers, allFinite_append] at h
    exact ExprKind.recovered_call (callee.recovered h.1) (exprs_recovered args h.2)
  | .methodCall object method args, h => by
    rw [ExprKind.numbers, allFinite_append] at h
    exact ExprKind.recovered_methodCall method (object.recovered h.1) (exprs_recovered args h.2)
  | .unary op operand, h => by
    rw [ExprKind.numbers] at h
    exact ExprKind.recovered_unary op (operand.recovered h)
  | .binary op lhs rhs, h => by
    rw [ExprKind.numbers, allFinite_append] at h
    exact ExprKind.recovered_binary op (lhs.recovered h.1) (rhs.recovered h.2)
  | .function func, h => by
    rw [ExprKind.numbers] at h
    exact ExprKind.recovered_function (func.recovered h)
  | .table items, h => by
    rw [ExprKind.numbers] at h
    exact ExprKind.recovered_table (items_recovered items h)

theorem TableItem.recovered : ∀ i : TableItem, AllFinite i.numbers → i.Recovered
  | .positional value, h => by
    rw [TableItem.numbers] at h
    exact TableItem.recovered_positional (value.recovered h)
  | .named name value, h => by
    rw [TableItem.numbers] at h
    exact TableItem.recovered_named name (value.recovered h)
  | .keyed key value, h => by
    rw [TableItem.numbers, allFinite_append] at h
    exact TableItem.recovered_keyed (key.recovered h.1) (value.recovered h.2)

theorem Stmt.recovered : ∀ s : Stmt, AllFinite s.numbers → s.Recovered
  | .declare vars exprs, h => by
    rw [Stmt.numbers] at h
    exact Stmt.recovered_declare vars (exprs_recovered exprs h)
  | .declareFunction var func, h => by
    rw [Stmt.numbers] at h
    exact Stmt.recovered_declareFunction var (func.recovered h)
  | .assign targets exprs, h => by
    rw [Stmt.numbers, allFinite_append] at h
    exact Stmt.recovered_assign (exprs_recovered targets h.1) (exprs_recovered exprs h.2)
  | .eval expr, h => by
    rw [Stmt.numbers] at h
    exact Stmt.recovered_eval (expr.recovered h)
  | .ret exprs, h => by
    rw [Stmt.numbers] at h
    exact Stmt.recovered_ret (exprs_recovered exprs h)
  | .block body, h => by
    rw [Stmt.numbers] at h
    exact Stmt.recovered_block (stmts_recovered body h)
  | .branch clauses none, h => by
    rw [Stmt.numbers] at h
    exact Stmt.recovered_branch (clauses_recovered clauses h)
  | .branch clauses (some body), h => by
    rw [Stmt.numbers, allFinite_append] at h
    exact Stmt.recovered_branch_else (clauses_recovered clauses h.1) (stmts_recovered body h.2)
  | .whileLoop cond body, h => by
    rw [Stmt.numbers, allFinite_append] at h
    exact Stmt.recovered_whileLoop (cond.recovered h.1) (stmts_recovered body h.2)
  | .repeatLoop body cond, h => by
    rw [Stmt.numbers, allFinite_append] at h
    exact Stmt.recovered_repeatLoop (stmts_recovered body h.1) (cond.recovered h.2)
  | .numericFor var start limit none body, h => by
    rw [Stmt.numbers, allFinite_append, allFinite_append] at h
    exact Stmt.recovered_numericFor var (start.recovered h.1.1) (limit.recovered h.1.2)
      (stmts_recovered body h.2)
  | .numericFor var start limit (some step) body, h => by
    rw [Stmt.numbers, allFinite_append, allFinite_append, allFinite_append] at h
    exact Stmt.recovered_numericFor_step var (start.recovered h.1.1.1) (limit.recovered h.1.1.2)
      (step.recovered h.1.2) (stmts_recovered body h.2)
  | .genericFor vars exprs body, h => by
    rw [Stmt.numbers, allFinite_append] at h
    exact Stmt.recovered_genericFor vars (exprs_recovered exprs h.1) (stmts_recovered body h.2)
  | .leave, _ => Stmt.recovered_leave
  | .jump name, _ => Stmt.recovered_jump name
  | .label name, _ => Stmt.recovered_label name

theorem Clause.recovered : ∀ c : Clause, AllFinite c.numbers → c.Recovered
  | ⟨cond, body⟩, h => by
    rw [Clause.numbers, allFinite_append] at h
    exact Clause.recovered_of_parts (cond.recovered h.1) (stmts_recovered body h.2)

theorem Function.recovered : ∀ f : Function, AllFinite f.numbers → f.Recovered
  | ⟨id, name, params, isVararg, upvalues, body⟩, h => by
    rw [Function.numbers] at h
    exact Function.recovered_of_body id name params isVararg upvalues (stmts_recovered body h)

theorem exprs_recovered : ∀ es : List Expr, AllFinite (exprsNumbers es) → ∀ e ∈ es, e.Recovered
  | [], _ => nofun
  | e :: es, h => by
    rw [exprsNumbers, allFinite_append] at h
    exact List.forall_mem_cons.2 ⟨e.recovered h.1, exprs_recovered es h.2⟩

theorem items_recovered : ∀ is : List TableItem, AllFinite (itemsNumbers is) → ∀ i ∈ is, i.Recovered
  | [], _ => nofun
  | i :: is, h => by
    rw [itemsNumbers, allFinite_append] at h
    exact List.forall_mem_cons.2 ⟨i.recovered h.1, items_recovered is h.2⟩

theorem stmts_recovered : ∀ ss : List Stmt, AllFinite (stmtsNumbers ss) → ∀ s ∈ ss, s.Recovered
  | [], _ => nofun
  | s :: ss, h => by
    rw [stmtsNumbers, allFinite_append] at h
    exact List.forall_mem_cons.2 ⟨s.recovered h.1, stmts_recovered ss h.2⟩

theorem clauses_recovered : ∀ cs : List Clause, AllFinite (clausesNumbers cs) →
    ∀ c ∈ cs, c.Recovered
  | [], _ => nofun
  | c :: cs, h => by
    rw [clausesNumbers, allFinite_append] at h
    exact List.forall_mem_cons.2 ⟨c.recovered h.1, clauses_recovered cs h.2⟩

end

theorem Tree.encodes (t : Tree) (h : AllFinite t.numbers) : Encodes Tree.ofJson? t.toJson t := by
  have hsymbols := t.symbols.encodes
  have hmain := t.main.recovered h
  apply Encodes.record
  · simp [hsymbols.proper, hmain.proper]
  · intro d hd
    simp only [List.forall_mem_cons] at hd
    rw [Tree.ofJson?]
    simp [fields?_record, hsymbols.reads, hmain.reads, hd]

end ScriptC
