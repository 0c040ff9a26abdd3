import ScriptC.Proofs.Evaluation.Expressions

/-! # Correctness of lowered expressions

The code of a scalar expression computes what the expression evaluates to: from the block that was
current to the block that is current afterwards, with the trace of the evaluation, and without
touching the locals or any temporary that was in use.
-/

namespace ScriptC

section Evaluation

variable {env : SymbolId → Option Datum} {ty : Ty} {v : Datum} {trace : List Event}

theorem evaluate_unary {op : UnaryOp} {operand : Expr}
    (h : Expr.evaluate env ⟨ty, .unary op operand⟩ = some (v, trace)) :
    ∃ x before last, operand.evaluate env = some (x, before) ∧ op.perform x = some (v, last) ∧
      trace = before ++ last := by
  rw [Expr.evaluate, ExprKind.evaluate] at h
  obtain ⟨⟨x, before⟩, hx, h⟩ := Option.bind_eq_some_iff.mp h
  obtain ⟨⟨w, last⟩, hw, h⟩ := Option.bind_eq_some_iff.mp h
  cases h
  exact ⟨x, before, last, hx, hw, rfl⟩

theorem evaluate_logical {op : BinaryOp} {lhs rhs : Expr} (hop : op.isLogical = true)
    (h : Expr.evaluate env ⟨ty, .binary op lhs rhs⟩ = some (v, trace)) :
    ∃ x before, lhs.evaluate env = some (x, before) ∧
      if op.decides x then v = x ∧ trace = before ++ [.test x]
      else ∃ after, rhs.evaluate env = some (v, after) ∧ trace = before ++ .test x :: after := by
  rw [Expr.evaluate, ExprKind.evaluate] at h
  obtain ⟨⟨x, before⟩, hx, h⟩ := Option.bind_eq_some_iff.mp h
  refine ⟨x, before, hx, ?_⟩
  simp only [hop, if_true] at h
  split at h <;> rename_i hd
  · cases h
    simp [hd]
  · obtain ⟨⟨y, after⟩, hy, h⟩ := Option.bind_eq_some_iff.mp h
    cases h
    simp [hd, hy]

theorem evaluate_strict {op : BinaryOp} {lhs rhs : Expr} (hop : op.isLogical = false)
    (h : Expr.evaluate env ⟨ty, .binary op lhs rhs⟩ = some (v, trace)) :
    ∃ x y left right last, lhs.evaluate env = some (x, left) ∧
      rhs.evaluate env = some (y, right) ∧ op.perform x y = some (v, last) ∧
      trace = left ++ right ++ last := by
  rw [Expr.evaluate, ExprKind.evaluate] at h
  obtain ⟨⟨x, left⟩, hx, h⟩ := Option.bind_eq_some_iff.mp h
  simp only [hop, Bool.false_eq_true, if_false] at h
  obtain ⟨⟨y, right⟩, hy, h⟩ := Option.bind_eq_some_iff.mp h
  obtain ⟨⟨z, last⟩, hz, h⟩ := Option.bind_eq_some_iff.mp h
  cases h
  exact ⟨x, y, left, right, last, hx, hy, hz, rfl⟩

/-- An integer type is no empty promise. -/
theorem Expr.IntegersHold.isInt {e : Expr} (h : e.IntegersHold env)
    (he : e.evaluate env = some (v, trace)) (ht : e.ty = .integer) : v.isInt = true := by
  obtain ⟨n, t, hn⟩ := h e (.self e) ht
  rw [he] at hn
  cases hn
  rfl

theorem BinaryOp.decides_of_not_logical {op : BinaryOp} (h : op.isLogical = false) (v : Datum) :
    op.decides v = false := by
  cases op <;> first | rfl | cases h

end Evaluation

namespace Lower

variable (symbols : SymbolTable) (scopes : List (List (SymbolId × Nat)))

/-- The values of the locals in scope. -/
def environment (locals : Nat → Datum) (id : SymbolId) : Option Datum :=
  (register? symbols scopes id).map locals

/-- What the code of an expression has to deliver. -/
def meaning (e : Expr) : Meaning Datum := fun locals v trace =>
  e.evaluate (environment symbols scopes locals) = some (v, trace) ∧
    e.IntegersHold (environment symbols scopes locals)

variable {symbols scopes}

theorem supplies_plain {ty : Ty} {x : Lower Operand} {R : Meaning Datum} (h : Supplies scopes x R) :
    Supplies scopes (one ⟨ty, plain x⟩) R := by
  intro pending s hs
  simp only [one, plain, ends_bind, ends_pure]
  exact h hs

section Forms

variable {ty : Ty} {operand lhs rhs : Expr}

theorem supplies_ofUnary {op : UnaryOp} (hop : op.isScalar = true) (hf : operand.ty ≠ .number)
    (h : Supplies scopes (one (ofExpr symbols operand)) (meaning symbols scopes operand)) :
    Supplies scopes (unary op (ofExpr symbols operand))
      (meaning symbols scopes ⟨ty, .unary op operand⟩) := by
  refine supplies_unary h ?_
  rintro l v trace ⟨he, hi⟩
  obtain ⟨x, before, last, hx, hp, rfl⟩ := evaluate_unary he
  have hi' : operand.IntegersHold (environment symbols scopes l) :=
    fun part hpart => hi part (.operand hpart)
  obtain ⟨hc, ht⟩ := Selection.compute?_unary hop hf (hi'.isInt hx) hp
  rw [ofExpr_ty]
  exact ⟨x, before, last, ⟨hx, hi'⟩, hc, ht, rfl⟩

theorem supplies_ofBinary {op : BinaryOp} (hop : op.isScalar = true) (hlf : lhs.ty ≠ .number)
    (hrf : rhs.ty ≠ .number)
    (hl : Supplies scopes (one (ofExpr symbols lhs)) (meaning symbols scopes lhs))
    (hr : Supplies scopes (one (ofExpr symbols rhs)) (meaning symbols scopes rhs)) :
    Supplies scopes (binary op (ofExpr symbols lhs) (ofExpr symbols rhs))
      (meaning symbols scopes ⟨ty, .binary op lhs rhs⟩) := by
  have hleft : ∀ l, Expr.IntegersHold (environment symbols scopes l) ⟨ty, .binary op lhs rhs⟩ →
      lhs.IntegersHold (environment symbols scopes l) :=
    fun l hi part hpart => hi part (.left hpart)
  rw [binary]
  split <;> rename_i hlog
  · have hlog : op.isLogical = true := by simpa [BinaryOp.isLogical] using hlog
    refine supplies_logical hlog hl hr ?_
    rintro l v trace ⟨he, hi⟩
    obtain ⟨x, before, hx, hcase⟩ := evaluate_logical hlog he
    refine ⟨x, before, ⟨hx, hleft l hi⟩, ?_⟩
    split <;> rename_i hd
    · simpa [hd] using hcase
    · obtain ⟨after, hy, rfl⟩ : ∃ after, _ := by simpa [hd] using hcase
      refine ⟨after, ⟨hy, fun part hpart => ?_⟩, rfl⟩
      exact hi part (.right hx (by simpa using hd) hpart)
  · have hlog : op.isLogical = false := by simpa [BinaryOp.isLogical] using hlog
    refine supplies_arithmetic hop hlog hl hr (by rwa [ofExpr_ty]) (by rwa [ofExpr_ty]) ?_
    rintro l v trace ⟨he, hi⟩
    obtain ⟨x, y, left, right, last, hx, hy, hp, rfl⟩ := evaluate_strict hlog he
    have hright : rhs.IntegersHold (environment symbols scopes l) := fun part hpart =>
      hi part (.right hx (BinaryOp.decides_of_not_logical hlog x) hpart)
    simp only [ofExpr_ty]
    exact ⟨x, y, left, right, last, ⟨hx, hleft l hi⟩, ⟨hy, hright⟩, hp, (hleft l hi).isInt hx,
      hright.isInt hy, rfl⟩

end Forms

section Induction

variable (symbols scopes)

/-- A scalar expression on the locals in scope. -/
def IsScalar (e : Expr) : Prop :=
  e.isScalar (fun id => (register? symbols scopes id).isSome) = true

instance (e : Expr) : Decidable (IsScalar symbols scopes e) := inferInstanceAs (Decidable (_ = true))

variable {symbols scopes}

theorem isScalar_iff {ty : Ty} {kind : ExprKind} : IsScalar symbols scopes ⟨ty, kind⟩ ↔
    ty ≠ .number ∧ kind.isScalar (fun id => (register? symbols scopes id).isSome) = true := by
  simp [IsScalar, Expr.isScalar]

theorem IsScalar.ne_number {e : Expr} (h : IsScalar symbols scopes e) : e.ty ≠ .number := by
  cases e
  exact (isScalar_iff.mp h).1

mutual

theorem supplies_ofExpr : ∀ e : Expr, IsScalar symbols scopes e →
    Supplies scopes (one (ofExpr symbols e)) (meaning symbols scopes e)
  | ⟨ty, kind⟩, h => by
    rw [ofExpr]
    exact supplies_ofKind kind ty (isScalar_iff.mp h).2

theorem supplies_ofKind : ∀ (kind : ExprKind) (ty : Ty),
    kind.isScalar (fun id => (register? symbols scopes id).isSome) = true →
    Supplies scopes (one ⟨ty, ofKind symbols ty kind⟩) (meaning symbols scopes ⟨ty, kind⟩)
  | .nil, ty, _ | .true, ty, _ | .false, ty, _ => by
    rw [ofKind]
    refine supplies_plain (supplies_pure rfl ?_)
    rintro p st v trace ⟨⟨⟩, -⟩
    exact ⟨rfl, rfl⟩
  | .integer n, ty, _ => by
    rw [ofKind]
    refine supplies_plain ((supplies_intConstant n).mono ?_)
    rintro l v trace ⟨⟨⟩, -⟩
    exact ⟨rfl, rfl⟩
  | .symbol id, ty, h => by
    rw [ofKind]
    obtain ⟨r, hr⟩ := Option.isSome_iff_exists.mp (by rwa [ExprKind.isScalar] at h)
    refine supplies_plain ((supplies_readSymbol hr).mono ?_)
    rintro l v trace ⟨he, -⟩
    rw [Expr.evaluate, ExprKind.evaluate, environment, hr] at he
    cases he
    exact ⟨rfl, rfl⟩
  | .unary op operand, ty, h => by
    rw [ExprKind.isScalar, Bool.and_eq_true] at h
    rw [ofKind]
    exact supplies_plain (supplies_ofUnary h.1 (IsScalar.ne_number h.2)
      (supplies_ofExpr operand h.2))
  | .binary op lhs rhs, ty, h => by
    rw [ExprKind.isScalar, Bool.and_eq_true, Bool.and_eq_true] at h
    rw [ofKind]
    exact supplies_plain (supplies_ofBinary h.1.1 (IsScalar.ne_number h.1.2)
      (IsScalar.ne_number h.2) (supplies_ofExpr lhs h.1.2) (supplies_ofExpr rhs h.2))
  | .number _, _, h | .string _, _, h | .vararg, _, h | .index _ _, _, h | .call _ _, _, h
  | .methodCall _ _ _, _, h | .function _, _, h | .table _, _, h => by
    simp [ExprKind.isScalar] at h

end

end Induction

/-- The code of a scalar expression, run from the end of the block that was current, gets to the end
of the block that is current afterwards with the value of the expression in the operand that is
returned. It applies the same operators and tests the same values in the same order, so the right
operand of a logical operator runs exactly if it is evaluated. No local changes, and no temporary
that was live before. -/
theorem one_ofExpr_evaluates (symbols : SymbolTable) (e : Expr) {Γ : Setting} {s : LoweringState}
    (hs : s.Within Γ) (hopen : s.fn.proc.isTerminated s.fn.block = false)
    (he : IsScalar symbols s.fn.scopes e) :
    ∃ o s', one (ofExpr symbols e) s = .ok o s' ∧ s.fn.proc.Extends s'.fn.proc ∧
      ∀ (st : Store) (v : Datum) (trace : List Event),
        e.evaluate (environment symbols s.fn.scopes st.locals) = some (v, trace) →
        e.IntegersHold (environment symbols s.fn.scopes st.locals) →
        ∃ n st', runFor s'.fn.proc.step n (s.fn.proc.atEnd s.fn.block st) =
            some (s'.fn.proc.atEnd s'.fn.block st', trace) ∧
          s'.fn.proc.read st' o = some v ∧ st'.locals = st.locals ∧
          ∀ kind r, (s.fn.proc.pool kind).IsLive r → st.SameTemp st' kind r := by
  have hready : s.Prepared s.fn.scopes Γ.pending :=
    ⟨⟨hs.laid, hs.laid.isOpen_of_not_terminated (by simp [hopen]), hs.pools⟩, rfl⟩
  have hrun := supplies_ofExpr e he hready
  unfold Ends at hrun
  split at hrun
  · rename_i o s' hok
    obtain ⟨-, hd⟩ := hrun
    refine ⟨o, s', hok, hd.code, fun st v trace hev hint => ?_⟩
    obtain ⟨st', ⟨n, hn⟩, hread, hk⟩ := hd.runs st v trace ⟨hev, hint⟩
    exact ⟨n, st', hn, hread, hk.locals, hk.temps⟩
  · exact hrun.elim

section Witness

/-- A function with one local in scope. -/
def oneLocal : LoweringState where
  stats := {}
  module := {}
  fn :=
    { proc := { id := 0, parent := none, locals := ⟨1, []⟩ }
      function := 0
      scopes := [[(0, 0)]] }

/-- The negation of the local if that is less than three. -/
def guardedNegation : Expr :=
  ⟨.any, .binary .and ⟨.boolean, .binary .lt ⟨.integer, .symbol 0⟩ ⟨.integer, .integer 3⟩⟩
    ⟨.integer, .unary .neg ⟨.integer, .symbol 0⟩⟩⟩

theorem one_ofExpr_evaluates_guardedNegation :
    let symbols : SymbolTable := ⟨#[⟨"x", .integer, .localOf 0⟩]⟩
    let st : Store := ⟨fun _ => .int 2, fun _ => 0, fun _ => ⟨0⟩, fun _ => .nil⟩
    ∃ o s' n st', one (ofExpr symbols guardedNegation) oneLocal = .ok o s' ∧
      runFor s'.fn.proc.step n ⟨0, 0, st⟩ = some (s'.fn.proc.atEnd s'.fn.block st',
        [.binary .lt (.int 2) (.int 3), .test (.bool true), .unary .neg (.int 2)]) ∧
      s'.fn.proc.read st' o = some (.int (-2)) := by
  intro symbols st
  have hs : oneLocal.Within ⟨[], [], 0, #[], 0, true⟩ :=
    { laid := .fresh rfl rfl
      opened := fun _ => by simp [Proc.IsOpen, Proc.ids, oneLocal, entryBlock]
      size_le := Nat.zero_le _
      exits_eq := rfl
      exits_lt := by simp
      id_eq := rfl
      pools := fun kind => by cases kind <;> exact Registers.wellFormed_empty
      procs_le := Nat.le_refl _
      procs_kept := fun _ _ => rfl
      finished := by simp [oneLocal] }
  have hints : guardedNegation.IntegersHold (environment symbols oneLocal.fn.scopes st.locals) := by
    intro part hpart ht
    cases hpart with
    | self => cases ht
    | left h => cases h with
      | self => cases ht
      | left h => cases h; exact ⟨_, _, rfl⟩
      | right _ _ h => cases h; exact ⟨_, _, rfl⟩
    | right _ _ h => cases h with
      | self => exact ⟨_, _, rfl⟩
      | operand h => cases h; exact ⟨_, _, rfl⟩
  obtain ⟨o, s', hok, -, h⟩ := one_ofExpr_evaluates symbols guardedNegation hs rfl (by decide)
  obtain ⟨n, st', hn, hr, -⟩ := h st (.int (-2)) _ rfl hints
  exact ⟨o, s', n, st', hok, hn, hr⟩

end Witness

end Lower

end ScriptC
