import ScriptC.Proofs.Calls.Usage
import ScriptC.Proofs.Generation.Signatures
import ScriptC.Proofs.Induction

/-! # Typed trees

The types in a tree come from a front end. They are consistent if literals have the types of their
values, and if an operation that leaves a native number has the type of that number. An operand with
a type of such a tree is what the opcodes that are selected by its type ask for.
-/

namespace ScriptC

section Trees

/-- The type of what is kept in a temporary of this kind. -/
def TempKind.agrees : TempKind → Ty → Bool
  | .int, ty => ty = .integer
  | .float, ty => ty = .number
  | .any, _ => true

mutual

/-- Literals have their own types, and native results the types of numbers. The keys of an array
are integers. -/
def Expr.isTyped : Expr → Bool
  | ⟨ty, kind⟩ => kind.isTyped ty

def ExprKind.isTyped (ty : Ty) : ExprKind → Bool
  | .nil => ty = .nil
  | .true | .false => ty = .boolean
  | .integer _ => ty = .integer
  | .number _ => ty = .number
  | .string _ => ty = .string
  | .vararg | .symbol _ => true
  | .index object key =>
    (Selection.load object.ty key.keyClass).result.agrees ty && object.isTyped && key.isTyped
  | .call callee args => callee.isTyped && Expr.areTyped args
  | .methodCall object _ args => object.isTyped && Expr.areTyped args
  | .unary op operand => (Selection.unary op operand.ty).result.agrees ty && operand.isTyped
  | .binary op lhs rhs =>
    (operatorResult op (.of lhs.ty) (.of rhs.ty)).agrees ty && lhs.isTyped && rhs.isTyped
  | .function func => func.isTyped
  | .table items => TableItem.areTyped ty items

def Expr.areTyped : List Expr → Bool
  | [] => true
  | e :: es => e.isTyped && Expr.areTyped es

def TableItem.areTyped (ty : Ty) : List TableItem → Bool
  | [] => true
  | .positional value :: rest | .named _ value :: rest =>
    value.isTyped && TableItem.areTyped ty rest
  | .keyed key value :: rest =>
    (!ty.isArray || key.ty = .integer) && key.isTyped && value.isTyped &&
      TableItem.areTyped ty rest

def Stmt.isTyped : Stmt → Bool
  | .declare _ exprs | .ret exprs => Expr.areTyped exprs
  | .declareFunction _ func => func.isTyped
  | .assign targets exprs => Expr.areTyped targets && Expr.areTyped exprs
  | .eval expr => expr.isTyped
  | .block body => Stmt.areTyped body
  | .branch clauses otherwise => Clause.areTyped clauses && Stmt.otherwiseIsTyped otherwise
  | .whileLoop cond body => cond.isTyped && Stmt.areTyped body
  | .repeatLoop body cond => Stmt.areTyped body && cond.isTyped
  | .numericFor _ start limit step body =>
    start.isTyped && limit.isTyped && Expr.stepIsTyped step && Stmt.areTyped body
  | .genericFor _ exprs body => Expr.areTyped exprs && Stmt.areTyped body
  | .leave | .jump _ | .label _ => true

def Stmt.areTyped : List Stmt → Bool
  | [] => true
  | s :: ss => s.isTyped && Stmt.areTyped ss

def Clause.areTyped : List Clause → Bool
  | [] => true
  | ⟨cond, body⟩ :: rest => cond.isTyped && Stmt.areTyped body && Clause.areTyped rest

def Stmt.otherwiseIsTyped : Option (List Stmt) → Bool
  | none => true
  | some body => Stmt.areTyped body

def Expr.stepIsTyped : Option Expr → Bool
  | none => true
  | some e => e.isTyped

def Function.isTyped : Function → Bool
  | ⟨_, _, _, _, _, body⟩ => Stmt.areTyped body

end

/-- All types in the tree are consistent. -/
def Tree.isTyped (t : Tree) : Bool := t.main.isTyped

end Trees

section Operands

/-- A value that is not in a slot has the type of its form. -/
def Form.suits : Form → Ty → Bool
  | .int, ty => ty = .integer
  | .float, ty => ty = .number
  | .string, ty => ty = .string
  | .nil, ty => ty = .nil
  | .boolean, ty => ty = .boolean
  | .slot, _ => true

def TempKind.form : TempKind → Form
  | .int => .int
  | .float => .float
  | .any => .slot

namespace Proc

variable {p : Proc} {ty : Ty} {o : Operand}

/-- The operand is a value of an expression of this type. -/
def Carries (p : Proc) (ty : Ty) (o : Operand) : Prop :=
  ∃ φ, p.form? o = some φ ∧ φ.suits ty = true

theorem Carries.value (h : p.Carries ty o) : p.Gives .value o := by
  obtain ⟨φ, hφ, -⟩ := h
  exact .of_form? hφ rfl

end Proc

end Operands

section Selections

def OperandClass.demand : OperandClass → Demand
  | int => .int
  | float => .float
  | other => .value

def KeyClass.demand : KeyClass → Demand
  | int => .int
  | stringConstant => .stringKey
  | other => .value

def TypeTag.demand : TypeTag → Demand
  | integer => .int
  | number => .float
  | _ => .value

variable {p : Proc} {ty : Ty} {o : Operand}

theorem Proc.Carries.gives_class (h : p.Carries ty o) : p.Gives (OperandClass.of ty).demand o := by
  obtain ⟨φ, hφ, hs⟩ := h
  refine .of_form? hφ ?_
  cases ty <;> cases φ <;> first | rfl | cases hs

theorem Proc.Carries.gives_tag (h : p.Carries ty o) : p.Gives ty.tag.demand o := by
  obtain ⟨φ, hφ, hs⟩ := h
  refine .of_form? hφ ?_
  cases ty <;> cases φ <;> first | rfl | cases hs

theorem Proc.Carries.address (h : p.Carries ty o) (ht : ty.isArray = true) :
    p.Gives .address o := by
  obtain ⟨φ, hφ, hs⟩ := h
  refine .of_form? hφ ?_
  cases ty with
  | integerArray | numberArray => cases φ <;> first | rfl | cases hs
  | _ => cases ht

theorem Proc.Gives.of_tag {tag : TypeTag} (h : p.Gives tag.demand o) : p.Gives .value o :=
  h.of_covers (by cases tag <;> rfl)

theorem Selection.signature_load (container : Ty) (key : KeyClass) :
    (load container key).opcode.signature =
      some ⟨[.value, key.demand], some (load container key).result⟩ := by
  cases container <;> cases key <;> rfl

theorem Selection.signature_unary (op : UnaryOp) (ty : Ty) :
    ∃ d, (unary op ty).opcode.signature = some ⟨[d], some (unary op ty).result⟩ ∧
      ∀ p o, Proc.Carries p ty o → p.Gives d o := by
  cases op with
  | neg =>
    refine ⟨(OperandClass.of ty).demand, ?_, fun p o h => h.gives_class⟩
    cases ty <;> rfl
  | len =>
    cases ha : ty.isArray with
    | true => exact ⟨.address, by simp [unary, ha, Opcode.signature], fun p o h => h.address ha⟩
    | false => exact ⟨.value, by simp [unary, ha, Opcode.signature], fun p o h => h.value⟩
  | _ => exact ⟨.value, rfl, fun p o h => h.value⟩

theorem Selection.signature_binary? {op : BinaryOp} {x y : OperandClass} {sel : Selection}
    (h : binary? op x y = some sel) :
    ∃ d e, sel.opcode.signature = some ⟨[d, e], some sel.result⟩ ∧ x.demand.covers d = true ∧
      y.demand.covers e = true := by
  cases op <;> cases x <;> cases y <;> cases h <;> exact ⟨_, _, rfl, rfl, rfl⟩

theorem signature_moveOpcode (dest src : TypeTag) :
    ∃ d, (moveOpcode dest src).signature = some ⟨[d], some (copyKind dest)⟩ ∧
      src.demand.covers d = true := by
  cases dest <;> cases src <;> exact ⟨_, rfl, rfl⟩

theorem signature_guardOpcode? {tag : TypeTag} {guard : Opcode} (h : guardOpcode? tag = some guard) :
    guard.signature = some ⟨[.value], some (copyKind tag)⟩ := by
  cases tag <;> cases h <;> rfl

end Selections

end ScriptC
