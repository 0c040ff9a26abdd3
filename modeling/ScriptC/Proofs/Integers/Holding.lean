import ScriptC.Proofs.Integers.Keys
import ScriptC.Proofs.Control.Expressions

/-! # Where values are held

The opcode of an operator is selected by the types of its operands, but the code that reads them goes
by where they are held. An expression tells where its value will be.
-/

namespace ScriptC

open Lower

/-- How much is known of an operand by its form: it is an integer, it is a float, or neither. -/
def Proc.heldAs (p : Proc) : Operand → TempKind
  | .tempInt _ => .int
  | .tempFloat _ => .float
  | .constant k =>
    match p.constants.get? k with
    | some (.integer _) => .int
    | some (.number _) => .float
    | _ => .any
  | .symbol ref => if ref.tag = .integer then .int else .any
  | _ => .any

/-- Where the value of an expression will be held. Variables are only known to be integers, and what
the runtime works out is not known at all. -/
def Expr.heldAs (symbols : SymbolTable) : Expr → TempKind
  | ⟨_, .integer _⟩ => .int
  | ⟨_, .number _⟩ => .float
  | ⟨_, .symbol id⟩ =>
    if (symbols.get? id).any fun s => s.kind ≠ .global ∧ s.ty = .integer then .int else .any
  | ⟨_, .index object key⟩ => (Selection.load object.ty key.keyClass).result
  | ⟨_, .unary op operand⟩ => (Selection.unary op operand.ty).result
  | ⟨_, .binary op lhs rhs⟩ => operatorResult op (.of lhs.ty) (.of rhs.ty)
  | _ => .any

/-- What the value of an expression is to the code. -/
def Expr.form (symbols : SymbolTable) (e : Expr) : Form :=
  match e.kind with
  | .nil => .nil
  | .true | .false => .boolean
  | .string _ => .string
  | .symbol _ => .slot
  | _ => (e.heldAs symbols).form

/-- A tagged value that has an address. -/
def Operand.isSlot : Operand → Bool
  | symbol (.localVar ..) | symbol (.upvalue ..) | tempAny _ | select _ _ => Bool.true
  | _ => Bool.false

/-- The operand is what the expression tells: it has the form and is held as foreseen, and is a
constant if the expression is one. -/
structure Expr.Foretells (symbols : SymbolTable) (e : Expr) (p : Proc) (o : Operand) : Prop where
  form : p.form? o = some (e.form symbols) ∨ e.form symbols = .slot ∧ o.isSlot = true
  heldAs : p.heldAs o = e.heldAs symbols
  keyClass : keyOf e.ty (p.constant? o) = e.keyClass

theorem Ty.tag_eq_integer {ty : Ty} : ty.tag = .integer ↔ ty = .integer := by
  cases ty <;> simp [Ty.tag]

section Runs

variable {α β : Type} {s : LoweringState}

theorem ends_bind_anything {x : Lower α} {f : α → Lower β} {Q : β → LoweringState → Prop}
    (h : ∀ a s', Ends (f a) s' Q fun _ _ => True) : Ends (x >>= f) s Q fun _ _ => True := by
  rw [ends_bind]
  exact (ends_anything x s).imp fun a s' _ => h a s'

/-- An expression with one value is that value. -/
theorem ends_one_plain {ty : Ty} {x : Lower Operand} {Q : Operand → LoweringState → Prop} :
    Ends (one ⟨ty, plain x⟩) s Q (fun _ _ => True) ↔ Ends x s Q fun _ _ => True := by
  simp [one, plain, single]

/-- A result is taken and filled by an instruction. -/
theorem ends_result {kind : TempKind} {opcode : Opcode} {operands : List Operand} :
    Ends (do let target ← allocTemp kind; emit opcode operands [target]; return target : Lower _) s
      (fun o _ => ∃ r, o = .temp kind r) fun _ _ => True := by
  rw [ends_bind, allocTemp, ends_onProc]
  exact ends_bind_anything fun _ _ => ⟨_, rfl⟩

end Runs

section Expressions

variable {symbols : SymbolTable} {s : LoweringState} {p : Proc} {e : Expr}

theorem Expr.Foretells.of_temp {kind : TempKind} {o : Operand} (ho : ∃ r, o = .temp kind r)
    (hf : e.form symbols = kind.form) (hk : kind = e.heldAs symbols)
    (hc : keyOf e.ty none = e.keyClass) : e.Foretells symbols p o := by
  obtain ⟨r, rfl⟩ := ho
  constructor
  · rw [hf]
    cases kind with
    | int | float => exact .inl rfl
    | any => exact .inr ⟨rfl, rfl⟩
  · rw [← hk]
    cases kind <;> rfl
  · rw [← hc]
    cases kind <;> rfl

theorem Expr.Foretells.of_constant {c : Constant} {k : Nat} (h : p.constants.get? k = some c)
    (hf : e.form symbols = c.form) (hk : p.heldAs (.constant k) = e.heldAs symbols)
    (hc : keyOf e.ty (some c) = e.keyClass) :
    e.Foretells symbols p (.constant k) := by
  constructor
  · rw [hf]
    exact .inl (Option.map_eq_some_iff.mpr ⟨c, h, rfl⟩)
  · exact hk
  · rw [← hc, ← h]
    rfl

theorem ends_foretells_constant {c : Constant} (hf : e.form symbols = c.form)
    (hk : ∀ p : Proc, ∀ k, p.constants.get? k = some c →
      p.heldAs (.constant k) = e.heldAs symbols) (hc : keyOf e.ty (some c) = e.keyClass) :
    Ends (constant c) s (fun o s' => ∀ p, s'.fn.proc.Becomes p → e.Foretells symbols p o)
      fun _ _ => True := by
  simp only [constant, ends_bind, ends_onProc]
  have hget := s.fn.proc.constants.get?_intern c
  split <;>
    exact fun p hp => .of_constant (hp.constants _ _ hget) hf (hk p _ (hp.constants _ _ hget)) hc

theorem ends_foretells_symbol (ty : Ty) (id : SymbolId) :
    Ends (readSymbol symbols id) s (fun o _ => ∀ p, (⟨ty, .symbol id⟩ : Expr).Foretells symbols p o)
      fun _ _ => True := by
  cases hs : symbols.get? id with
  | none => simp [readSymbol, symbol, hs]
  | some sym =>
    have hheld {ref : SymbolRef} (hs' : (Operand.symbol ref).isSlot = true)
        (hg : sym.kind ≠ .global) (ht : ref.tag = sym.ty.tag) (p : Proc) :
        (⟨ty, .symbol id⟩ : Expr).Foretells symbols p (.symbol ref) := by
      refine ⟨.inr ⟨rfl, hs'⟩, ?_, rfl⟩
      simp [Proc.heldAs, Expr.heldAs, hs, hg, ht, Ty.tag_eq_integer]
    simp only [readSymbol, symbol, hs, pure_bind]
    split
    · rename_i hkind
      refine ends_bind_anything fun reg s' => ?_
      cases reg with
      | some reg => exact hheld rfl (by simp [hkind]) rfl
      | none => trivial
    · rename_i hkind
      exact hheld rfl (by simp [hkind]) rfl
    · rename_i hkind
      simp only [loadGlobal, bind_assoc]
      refine ends_bind_anything fun k s₁ => ?_
      rw [ends_bind, allocTemp, ends_onProc]
      have htemp : ∃ r, (s₁.fn.proc.allocTemp .any).2 = .temp .any r := ⟨_, rfl⟩
      refine ends_bind_anything fun load s₂ p => .of_temp htemp rfl ?_ rfl
      simp [Expr.heldAs, hs, hkind]

/-- What was taken first is the result, whatever happens to it. -/
theorem ends_allocTemp_bind {kind : TempKind} {f : Operand → Lower Operand}
    (h : ∀ r s', Ends (f (.temp kind r)) s' (fun o _ => o = .temp kind r) fun _ _ => True) :
    Ends (allocTemp kind >>= f) s (fun o _ => ∃ r, o = .temp kind r) fun _ _ => True := by
  rw [ends_bind, allocTemp, ends_onProc]
  exact (h _ _).imp fun o _ ho => ⟨_, ho⟩

theorem ends_logical (op : BinaryOp) (lhs rhs : Part) :
    Ends (logical op lhs rhs) s (fun o _ => ∃ r, o = .temp .any r) fun _ _ => True := by
  refine ends_bind_anything fun left s₁ => ends_bind_anything fun _ s₂ => ?_
  refine ends_allocTemp_bind fun r s₃ => ?_
  refine ends_bind_anything fun _ s₄ => ends_bind_anything fun rhsBlock s₅ => ?_
  refine ends_bind_anything fun endBlock s₆ => ?_
  extract_lets rest
  have hrest (u : PUnit) (s' : LoweringState) :
      Ends (rest u) s' (fun o _ => o = .temp .any r) fun _ _ => True := by
    refine ends_bind_anything fun _ _ => ends_bind_anything fun _ _ => ?_
    exact ends_bind_anything fun _ _ => ends_bind_anything fun _ _ =>
      ends_bind_anything fun _ _ => rfl
  split
  · exact ends_bind_anything hrest
  · exact ends_bind_anything hrest

theorem Canonical.result_of_negate {op : BinaryOp} {l r : OperandClass}
    (h : (Canonical.of op l r).negate = true) : operatorResult op l r = .any := by
  cases op <;> cases l <;> cases r <;> first | rfl | cases h

theorem ends_arithmetic (op : BinaryOp) (lhs rhs : Part) :
    Ends (arithmetic op lhs rhs) s (fun o _ => ∃ r,
      o = .temp (operatorResult op (.of lhs.ty) (.of rhs.ty)) r) fun _ _ => True := by
  have hnegate : (Canonical.of op (.of lhs.ty) (.of rhs.ty)).negate = true →
      operatorResult op (.of lhs.ty) (.of rhs.ty) = .any := Canonical.result_of_negate
  simp only [arithmetic, operatorResult] at hnegate ⊢
  generalize Canonical.of op (.of lhs.ty) (.of rhs.ty) = form at hnegate ⊢
  refine ends_bind_anything fun a s₁ => ends_bind_anything fun b s₂ => ?_
  generalize hq : (if form.swap = true then (b, a, OperandClass.of rhs.ty, OperandClass.of lhs.ty)
    else (a, b, OperandClass.of lhs.ty, OperandClass.of rhs.ty)) = q
  -- the result is selected by the classes in the order in which the operands are passed
  have hclasses : (if form.swap = true then Selection.binary? form.op (.of rhs.ty) (.of lhs.ty)
      else Selection.binary? form.op (.of lhs.ty) (.of rhs.ty)) =
        Selection.binary? form.op q.2.2.1 q.2.2.2 := by
    rw [← hq]
    split <;> rfl
  rw [hclasses] at hnegate ⊢
  split
  · trivial
  · rename_i sel hsel
    rw [hsel] at hnegate ⊢
    refine ends_bind_anything fun _ s₃ => ends_bind_anything fun _ s₄ => ?_
    split
    · rename_i hneg
      refine ends_bind_anything fun target s₅ => ends_bind_anything fun _ s₆ => ?_
      refine ends_bind_anything fun _ s₇ => ?_
      rw [hnegate hneg]
      exact ends_result
    · exact ends_result

/-- The results of a call are open. -/
theorem ends_callWith (function : Operand) (held : List Operand) (args : List Part) :
    Ends (callWith function held args) s
      (fun v _ => ∃ base call, v = ⟨.range base (-1), some call⟩) fun _ _ => True := by
  unfold callWith
  split
  · refine ends_bind_anything fun _ _ => ends_bind_anything fun _ _ => ?_
    exact ends_bind_anything fun call _ => ends_bind_anything fun _ _ => ⟨_, call, rfl⟩
  · trivial

/-- Of open results the first is taken, of which nothing is known. -/
theorem ends_foretells_results {x : Lower Value} (hf : e.form symbols = .slot)
    (hk : e.heldAs symbols = .any)
    (hc : keyOf e.ty none = e.keyClass) (h : ∀ s, Ends x s
      (fun v _ => ∃ base call, v = ⟨.range base (-1), some call⟩) fun _ _ => True) :
    Ends (one ⟨e.ty, x⟩) s (fun o s' => ∀ p, s'.fn.proc.Becomes p → e.Foretells symbols p o)
      fun _ _ => True := by
  rw [one, ends_bind]
  refine (h s).imp ?_
  rintro v s₁ ⟨base, call, rfl⟩
  exact ends_bind_anything fun _ _ p _ => ⟨.inr ⟨hf, rfl⟩, hk.symm, hc⟩

/-- The value of an expression is what the expression tells. -/
theorem ends_foretells (symbols : SymbolTable) (e : Expr) (s : LoweringState) :
    Ends (one (ofExpr symbols e)) s (fun o s' => ∀ p, s'.fn.proc.Becomes p →
      e.Foretells symbols p o) fun _ _ => True := by
  -- the opcode that reads an element, and so where it is held, depends on its key
  induction hn : sizeOf e using Nat.strongRecOn generalizing e s with
  | _ n ih =>
  subst hn
  obtain ⟨ty, kind⟩ := e
  rw [ofExpr]
  cases kind with
  | nil | true | false => exact fun _ _ => ⟨.inl rfl, rfl, rfl⟩
  | integer n =>
    rw [ofKind, ends_one_plain]
    exact ends_foretells_constant rfl (fun p k h => by simp [Proc.heldAs, Expr.heldAs, h]) rfl
  | number x =>
    rw [ofKind, ends_one_plain]
    exact ends_foretells_constant rfl (fun p k h => by simp [Proc.heldAs, Expr.heldAs, h]) rfl
  | string x =>
    rw [ofKind, ends_one_plain]
    exact ends_foretells_constant rfl (fun p k h => by simp [Proc.heldAs, Expr.heldAs, h]) rfl
  | vararg => trivial
  | symbol id =>
    rw [ofKind, ends_one_plain]
    exact (ends_foretells_symbol ty id).mono (fun o _ h p _ => h p) fun _ _ _ => trivial
  | index object key =>
    rw [ofKind, ends_one_plain]
    refine ends_bind_anything fun container s₁ => ?_
    rw [ends_bind]
    refine (ih (sizeOf key) (by simp; omega) key s₁ rfl).imp fun k s₂ hk => ?_
    have hclass : Ends (keyClass k (ofExpr symbols key).ty) s₂ (fun c _ => c = key.keyClass)
        fun _ _ => True := by
      rw [ofExpr_ty, ← (hk _ (.refl _)).keyClass]
      simp only [keyClass, ends_bind, ends_get]
      split <;> rename_i hconst <;> simp [hconst, keyOf]
    rw [ends_bind]
    refine hclass.imp fun c s₃ hc => ?_
    refine ends_bind_anything fun _ s₄ => ends_bind_anything fun _ s₅ => ?_
    refine ends_result.imp fun o _ ho p _ => ?_
    rw [hc, ofExpr_ty] at ho
    exact .of_temp ho rfl rfl rfl
  | call func args =>
    rw [ofKind]
    exact ends_foretells_results rfl rfl rfl fun s =>
      ends_bind_anything fun _ _ => ends_callWith _ _ _
  | methodCall object name args =>
    rw [ofKind]
    exact ends_foretells_results rfl rfl rfl fun s =>
      ends_bind_anything fun _ _ => ends_callWith _ _ _
  | unary op operand =>
    rw [ofKind, ends_one_plain]
    refine ends_bind_anything fun value s₁ => ends_bind_anything fun _ s₂ => ?_
    refine ends_result.imp fun o _ ho p _ => ?_
    rw [ofExpr_ty] at ho
    exact .of_temp ho rfl rfl rfl
  | binary op lhs rhs =>
    rw [ofKind, ends_one_plain, binary]
    split
    · rename_i hop
      refine (ends_logical op _ _).imp fun o _ ho p _ => ?_
      rcases hop with rfl | rfl <;> exact .of_temp ho rfl rfl rfl
    · refine (ends_arithmetic op _ _).imp fun o _ ho p _ => ?_
      rw [ofExpr_ty, ofExpr_ty] at ho
      exact .of_temp ho rfl rfl rfl
  | function func =>
    rw [ofKind, ends_one_plain]
    refine ends_bind_anything fun child s₁ => ?_
    exact ends_result.imp fun o _ ho p _ => .of_temp ho rfl rfl rfl
  | table contents =>
    rw [ofKind, ends_one_plain]
    refine (ends_allocTemp_bind fun r s₁ => ?_).imp fun o _ ho p _ => .of_temp ho rfl rfl rfl
    exact ends_bind_anything fun _ _ => ends_bind_anything fun _ _ => rfl

theorem Expr.LowersTo.foretells {o : Operand} (h : e.LowersTo symbols p o) :
    e.Foretells symbols p o := by
  obtain ⟨s, s', hrun, hleads⟩ := h
  exact (ends_foretells symbols e s).of_ok hrun p hleads

end Expressions

end ScriptC
