import ScriptC.Proofs.Policies.Statements

/-! # Policies and trees

What occurs in a tree can be listed. The lowering of a tree observes a lawful family of policies if
all its expressions are known to occur.
-/

namespace ScriptC

section Occurrences

mutual

/-- All expressions of an expression, itself and those of nested functions included. -/
def Expr.occurrences : Expr → List Expr
  | ⟨ty, kind⟩ => ⟨ty, kind⟩ :: kind.occurrences

def ExprKind.occurrences : ExprKind → List Expr
  | .index object key => object.occurrences ++ key.occurrences
  | .call callee args => callee.occurrences ++ Expr.occurrencesOf args
  | .methodCall object _ args => object.occurrences ++ Expr.occurrencesOf args
  | .unary _ operand => operand.occurrences
  | .binary _ lhs rhs => lhs.occurrences ++ rhs.occurrences
  | .function func => func.occurrences
  | .table items => TableItem.occurrencesOf items
  | _ => []

def Expr.occurrencesOf : List Expr → List Expr
  | [] => []
  | e :: es => e.occurrences ++ Expr.occurrencesOf es

def TableItem.occurrencesOf : List TableItem → List Expr
  | [] => []
  | .positional value :: rest => value.occurrences ++ TableItem.occurrencesOf rest
  | .named _ value :: rest => value.occurrences ++ TableItem.occurrencesOf rest
  | .keyed key value :: rest =>
    key.occurrences ++ value.occurrences ++ TableItem.occurrencesOf rest

def Stmt.occurrences : Stmt → List Expr
  | .declare _ exprs | .ret exprs => Expr.occurrencesOf exprs
  | .declareFunction _ func => func.occurrences
  | .assign targets exprs => Expr.occurrencesOf targets ++ Expr.occurrencesOf exprs
  | .eval expr => expr.occurrences
  | .block body => Stmt.occurrencesOf body
  | .branch clauses none => Clause.occurrencesOf clauses
  | .branch clauses (some body) => Clause.occurrencesOf clauses ++ Stmt.occurrencesOf body
  | .whileLoop cond body | .repeatLoop body cond => cond.occurrences ++ Stmt.occurrencesOf body
  | .numericFor _ start limit none body =>
    start.occurrences ++ limit.occurrences ++ Stmt.occurrencesOf body
  | .numericFor _ start limit (some step) body =>
    start.occurrences ++ limit.occurrences ++ step.occurrences ++ Stmt.occurrencesOf body
  | .genericFor _ exprs body => Expr.occurrencesOf exprs ++ Stmt.occurrencesOf body
  | _ => []

def Stmt.occurrencesOf : List Stmt → List Expr
  | [] => []
  | s :: ss => s.occurrences ++ Stmt.occurrencesOf ss

def Clause.occurrencesOf : List Clause → List Expr
  | [] => []
  | ⟨cond, body⟩ :: rest =>
    cond.occurrences ++ Stmt.occurrencesOf body ++ Clause.occurrencesOf rest

def Function.occurrences : Function → List Expr
  | ⟨_, _, _, _, _, body⟩ => Stmt.occurrencesOf body

end

/-- All expressions of a tree. -/
def Tree.occurrences (t : Tree) : List Expr := t.main.occurrences

variable {Occurs : Expr → Prop}

theorem Expr.forall_occurrencesOf {es : List Expr} : (∀ e ∈ Expr.occurrencesOf es, Occurs e) ↔
    ∀ e ∈ es, ∀ x ∈ e.occurrences, Occurs x := by
  induction es with
  | nil => simp [Expr.occurrencesOf]
  | cons e es ih => rw [Expr.occurrencesOf, List.forall_mem_append, ih, List.forall_mem_cons]

theorem TableItem.forall_occurrencesOf {items : List TableItem} :
    (∀ e ∈ TableItem.occurrencesOf items, Occurs e) ↔
      ∀ item ∈ items, ∀ e ∈ item.exprs, ∀ x ∈ e.occurrences, Occurs x := by
  induction items with
  | nil => simp [TableItem.occurrencesOf]
  | cons item rest ih =>
    rw [List.forall_mem_cons, ← ih]
    cases item <;> simp [TableItem.occurrencesOf, TableItem.exprs, or_imp, forall_and, and_assoc]

theorem Stmt.forall_occurrencesOf {ss : List Stmt} : (∀ e ∈ Stmt.occurrencesOf ss, Occurs e) ↔
    ∀ s ∈ ss, ∀ x ∈ s.occurrences, Occurs x := by
  induction ss with
  | nil => simp [Stmt.occurrencesOf]
  | cons s ss ih => rw [Stmt.occurrencesOf, List.forall_mem_append, ih, List.forall_mem_cons]

theorem Clause.forall_occurrencesOf {cs : List Clause} :
    (∀ e ∈ Clause.occurrencesOf cs, Occurs e) ↔ ∀ c ∈ cs,
      (∀ x ∈ c.cond.occurrences, Occurs x) ∧ ∀ s ∈ c.body, ∀ x ∈ s.occurrences, Occurs x := by
  induction cs with
  | nil => simp [Clause.occurrencesOf]
  | cons c cs ih =>
    obtain ⟨cond, body⟩ := c
    simp only [Clause.occurrencesOf, List.forall_mem_append, ih, List.forall_mem_cons,
      Stmt.forall_occurrencesOf]

theorem Expr.mem_occurrences (e : Expr) : e ∈ e.occurrences := by
  cases e
  exact List.mem_cons_self

end Occurrences

namespace Policy

open Lower

variable {ι : Type} {symbols : SymbolTable} {Occurs : Expr → Prop} {F : ι → Policy}

theorem evaluates_plain {ty : Ty} {kind : ExprKind} {operand : Lower Operand}
    (he : Occurs ⟨ty, kind⟩) (hk : ofKind symbols ty kind = plain operand)
    (ho : ∀ i, (F i).Observes True operand (F i).Owns) : Evaluates symbols Occurs F ⟨ty, kind⟩ where
  occurs := he
  value i := by
    rw [ofExpr, hk]
    exact (ho i).bind fun o => observes_pure fun hP => ⟨hP.2, by rintro _ ⟨⟩⟩

namespace Lawful

variable (h : Lawful symbols Occurs F)

include h

omit h in
theorem ofBlock {body : List Stmt}
    (hb : ∀ s ∈ body, (∀ x ∈ s.occurrences, Occurs x) → Executes F (ofStmt symbols s))
    (ho : ∀ s ∈ body, ∀ x ∈ s.occurrences, Occurs x) : Executes F (ofBlock symbols body) := by
  intro i
  refine Lawful.sequence fun x hx => ?_
  rw [ofStmts_eq_map] at hx
  obtain ⟨s, hs, rfl⟩ := List.mem_map.mp hx
  exact hb s hs (ho s hs)

/-- Each form of tree observes the policies if its parts do and its expressions are known. -/
theorem treeCases : TreeCases
    (fun e => (∀ x ∈ e.occurrences, Occurs x) → Evaluates symbols Occurs F e)
    (fun s => (∀ x ∈ s.occurrences, Occurs x) → Executes F (ofStmt symbols s))
    (fun f => (∀ x ∈ f.occurrences, Occurs x) →
      ∀ i, (F i).Observes True (Lower.ofFunction symbols f) (F i).Child) where
  nil ty hx := evaluates_plain (hx _ (Expr.mem_occurrences _)) rfl fun i =>
    observes_pure fun _ => h.owns i (by simp)
  true ty hx := evaluates_plain (hx _ (Expr.mem_occurrences _)) rfl fun i =>
    observes_pure fun _ => h.owns i (by simp)
  false ty hx := evaluates_plain (hx _ (Expr.mem_occurrences _)) rfl fun i =>
    observes_pure fun _ => h.owns i (by simp)
  integer ty n hx := evaluates_plain (hx _ (Expr.mem_occurrences _)) rfl fun i =>
    (h.intern _).mono id fun _ _ hk => hk.1
  number ty x hx := evaluates_plain (hx _ (Expr.mem_occurrences _)) rfl fun i =>
    (h.intern _).mono id fun _ _ hk => hk.1
  string ty s hx := evaluates_plain (hx _ (Expr.mem_occurrences _)) rfl fun i =>
    (h.intern _).mono id fun _ _ hk => hk.1
  vararg ty hx := ⟨hx _ (Expr.mem_occurrences _), fun i => observes_throw⟩
  symbol ty id hx := evaluates_plain (hx _ (Expr.mem_occurrences _)) rfl fun i =>
    (h.readSymbol id).mono (fun hP => hP) fun _ _ ho => ho.1
  index ty object key ho hk hx := by
    simp only [Expr.occurrences, ExprKind.occurrences, List.forall_mem_cons,
      List.forall_mem_append] at hx
    exact evaluates_plain hx.1 rfl fun i => h.index hx.1 (ho hx.2.1) (hk hx.2.2)
  call ty callee args hc ha hx := by
    simp only [Expr.occurrences, ExprKind.occurrences, List.forall_mem_cons,
      List.forall_mem_append, Expr.forall_occurrencesOf] at hx
    refine ⟨hx.1, fun i => ?_⟩
    rw [ofExpr, ofKind, ofExprs_eq_map]
    exact h.call (hc hx.2.1) fun e he => ha e he (hx.2.2 e he)
  methodCall ty object name args ho ha hx := by
    simp only [Expr.occurrences, ExprKind.occurrences, List.forall_mem_cons,
      List.forall_mem_append, Expr.forall_occurrencesOf] at hx
    refine ⟨hx.1, fun i => ?_⟩
    rw [ofExpr, ofKind, ofExprs_eq_map]
    exact h.methodCall name (ho hx.2.1) fun e he => ha e he (hx.2.2 e he)
  unary ty op operand ho hx := by
    simp only [Expr.occurrences, ExprKind.occurrences, List.forall_mem_cons] at hx
    exact evaluates_plain hx.1 rfl fun i => h.unary op (ho hx.2)
  binary ty op lhs rhs hl hr hx := by
    simp only [Expr.occurrences, ExprKind.occurrences, List.forall_mem_cons,
      List.forall_mem_append] at hx
    exact evaluates_plain hx.1 rfl fun i => h.binary op (hl hx.2.1) (hr hx.2.2)
  function ty func hf hx := by
    simp only [Expr.occurrences, ExprKind.occurrences, List.forall_mem_cons] at hx
    exact evaluates_plain hx.1 rfl fun i =>
      (h.closure (hf hx.2 i)).mono (fun hP => hP) fun _ _ ho => ho.1
  table ty items hi hx := by
    simp only [Expr.occurrences, ExprKind.occurrences, List.forall_mem_cons,
      TableItem.forall_occurrencesOf] at hx
    refine evaluates_plain hx.1 (by rw [ofKind, ofItems_eq_map]) fun i => h.construct hx.1 ?_
    exact fun item hm e he => hi item hm e he (hx.2 item hm e he)
  declare vars exprs he hx i := by
    simp only [Stmt.occurrences, Expr.forall_occurrencesOf] at hx
    rw [ofStmt, ofExprs_eq_map]
    exact h.declare vars fun e hm => he e hm (hx e hm)
  declareFunction var func hf hx i := h.declareFunction var (hf hx i)
  assign targets exprs ht he hx i := by
    simp only [Stmt.occurrences, List.forall_mem_append, Expr.forall_occurrencesOf] at hx
    obtain ⟨hxt, hxe⟩ := hx
    rw [ofStmt, ofExprs_eq_map, ofTargets_eq_map]
    refine h.assign (fun t hm => hxt t hm t t.mem_occurrences) ?_ fun e hm => he e hm (hxe e hm)
    rintro t hm ty object key rfl
    obtain ⟨ho, hk⟩ := ht _ hm ty object key rfl
    have hparts := hxt _ hm
    simp only [Expr.occurrences, ExprKind.occurrences, List.forall_mem_cons,
      List.forall_mem_append] at hparts
    exact ⟨ho hparts.2.1, hk hparts.2.2⟩
  eval expr he hx i := h.eval (he hx)
  ret exprs he hx i := by
    simp only [Stmt.occurrences, Expr.forall_occurrencesOf] at hx
    rw [ofStmt, ofExprs_eq_map]
    exact h.ret fun e hm => he e hm (hx e hm)
  block body hb hx i := by
    simp only [Stmt.occurrences, Stmt.forall_occurrencesOf] at hx
    exact h.inScope (ofBlock hb hx i)
  branch clauses otherwise hc ho hx i := by
    rw [ofStmt, ofClauses_eq_map, ofOtherwise_eq_map]
    have hparts : (∀ c ∈ clauses, (∀ x ∈ c.cond.occurrences, Occurs x) ∧
        ∀ s ∈ c.body, ∀ x ∈ s.occurrences, Occurs x) ∧
        ∀ body ∈ otherwise, ∀ s ∈ body, ∀ x ∈ s.occurrences, Occurs x := by
      cases otherwise <;>
        simpa [Stmt.occurrences, or_imp, forall_and, Clause.forall_occurrencesOf,
          Stmt.forall_occurrencesOf] using hx
    obtain ⟨hxc, hxo⟩ := hparts
    exact h.branch (fun c hm => ⟨(hc c hm).1 (hxc c hm).1, ofBlock (hc c hm).2 (hxc c hm).2⟩)
      fun body hm => ofBlock (ho body hm) (hxo body hm)
  whileLoop cond body hc hb hx i := by
    simp only [Stmt.occurrences, List.forall_mem_append, Stmt.forall_occurrencesOf] at hx
    exact h.whileLoop (hc hx.1) (ofBlock hb hx.2)
  repeatLoop body cond hb hc hx i := by
    simp only [Stmt.occurrences, List.forall_mem_append, Stmt.forall_occurrencesOf] at hx
    exact h.repeatLoop (ofBlock hb hx.2) (hc hx.1)
  numericFor var start limit step body hs hl hp hb hx i := by
    rw [ofStmt, ofStep_eq_map]
    have hparts : (((∀ x ∈ start.occurrences, Occurs x) ∧ ∀ x ∈ limit.occurrences, Occurs x) ∧
        ∀ e ∈ step, ∀ x ∈ e.occurrences, Occurs x) ∧
        ∀ s ∈ body, ∀ x ∈ s.occurrences, Occurs x := by
      cases step <;>
        simpa [Stmt.occurrences, or_imp, forall_and, Stmt.forall_occurrencesOf, and_assoc] using hx
    obtain ⟨⟨⟨hxs, hxl⟩, hxp⟩, hxb⟩ := hparts
    exact h.numericFor var _ (hs hxs) (hl hxl) (fun e hm => hp e hm (hxp e hm)) (ofBlock hb hxb)
  genericFor vars exprs body _ i := observes_throw
  leave _ i := h.leave
  jump label _ i := observes_throw
  label name _ i := observes_throw
  body f hb hx i := by
    refine h.ofFunction f (ofBlock hb ?_)
    obtain ⟨id, name, params, isVararg, upvalues, body⟩ := f
    exact Stmt.forall_occurrencesOf.mp hx

end Lawful

end Policy

end ScriptC
