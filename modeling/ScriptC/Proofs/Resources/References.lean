import ScriptC.Code.Generation
import ScriptC.Code.Printer

/-! # References in generated code

Everything in the code of a proc that can lie outside of what its function declares: native
variables, scratch values, slots of the frame, constants and children of the prototype. The slots of
a call are counted from the callee, which is set at the start of its code.
-/

namespace ScriptC

inductive Ref where
  /-- A native integer `i_N`. -/
  | int (reg : Nat)
  | float (reg : Nat)
  | slot (index : Nat)
  | scratch (index : Nat)
  /-- A string constant of the prototype. -/
  | constant (index : Nat)
  /-- A child of the prototype. -/
  | child (index : Nat)
  /-- A slot above a callee that was not set. -/
  | adrift
deriving DecidableEq, Repr

/-- The slot at some distance above the callee. -/
def Ref.above (func : Option Nat) (offset : Nat) : Ref :=
  match func with
  | some s => slot (s + offset)
  | none => adrift

def Address.refs (func : Option Nat) : Address → List Ref
  | slot s => [.slot s]
  | constant h => [.constant h]
  | scratch d | floatScratch d => [.scratch d]
  | argument j => [.above func j]
  | upvalue _ | kept _ | result _ => []

/-- A variable is an integer or a float. -/
def Variable.refs (native : Nat → Ref) : Variable → List Ref
  | temp r => [native r]
  | converted | element => []

section

variable (func : Option Nat)

def IntExpr.refs : IntExpr → List Ref
  | var v => v.refs .int
  | literal _ => []
  | tagged a | length a => a.refs func
  | binary _ x y | shift x y => x.refs ++ y.refs
  | negate x => x.refs

def FloatExpr.refs : FloatExpr → List Ref
  | var v => v.refs .float
  | literal _ => []
  | tagged a => a.refs func
  | ofInt x => x.refs func
  | binary _ x y => x.refs ++ y.refs
  | negate x => x.refs

def BoolExpr.refs : BoolExpr → List Ref
  | constant _ => []
  | isFalse a => a.refs func
  | ints _ x y => x.refs func ++ y.refs func
  | floats _ x y => x.refs func ++ y.refs func
  | tagged _ x y => x.refs func ++ y.refs func

def Check.refs : Check → List Ref
  | floatToInt x out => x.refs func ++ out.refs .int
  | taggedToInt a | taggedToFloat a | hasType a _ | hasTypeOrNil a _ | isInt a => a.refs func
  | loadElement _ a i | storeElement _ a i => a.refs func ++ i.refs func

/-- The only number that is passed on is the index of a child. -/
def Argument.refs : Argument → List Ref
  | state | closure | base | operator _ => []
  | address a => a.refs func
  | int x => x.refs func
  | number n => [.child n]

end

/-- The callee after a statement. -/
def Code.calleeAfter (func : Option Nat) : Code → Option Nat
  | setCallee s => some s
  | _ => func

mutual

/-- What a statement refers to. A call refers to the slots of all results that it expects. -/
def Code.refs (func : Option Nat) : Code → List Ref
  | .comment _ | .goto _ | .raise _ | .keep _ | .copyTail _ _ | .setResults _ _ | .setTop _ _
  | .reloadBase | .restoreTop => []
  | .branch a _ _ | .storeNil a | .readNumber a => a.refs func
  | .setInt v x => v.refs .int ++ x.refs func
  | .setFloat v x => v.refs .float ++ x.refs func
  | .storeInt a x => a.refs func ++ x.refs func
  | .storeFloat a x => a.refs func ++ x.refs func
  | .storeBool a x => a.refs func ++ x.refs func
  | .copy dest src => dest.refs func ++ src.refs func
  | .guard failed _ => failed.refs func
  | .invoke _ args => args.flatMap (·.refs func)
  | .declareInt v => v.refs .int
  | .declareFloat v => v.refs .float
  | .countTail s | .setCallee s => [.slot s]
  | .call n => (List.range n.toInt.toNat).map (.above func)
  | .scope body => Code.refsOf func body

def Code.refsOf (func : Option Nat) : List Code → List Ref
  | [] => []
  | c :: cs => c.refs func ++ Code.refsOf (c.calleeAfter func) cs

end

/-- What the function of a proc refers to. -/
def CodeUnit.refs (u : CodeUnit) : List Ref := u.blocks.flatMap fun b => Code.refsOf none b.2

namespace Code

variable {P : Ref → Prop} {func : Option Nat}

/-- All that a statement refers to has `P`, and the callee stays the same. -/
structure Keeps (P : Ref → Prop) (func : Option Nat) (c : Code) : Prop where
  callee : ∀ s, c ≠ .setCallee s
  refs : ∀ x ∈ c.refs func, P x

theorem Keeps.calleeAfter_eq {c : Code} (h : c.Keeps P func) : c.calleeAfter func = func := by
  cases c with
  | setCallee s => exact absurd rfl (h.callee s)
  | _ => rfl

theorem forall_mem_refsOf {cs : List Code} (h : ∀ c ∈ cs, c.Keeps P func) :
    ∀ x ∈ refsOf func cs, P x := by
  induction cs with
  | nil => simp [refsOf]
  | cons c cs ih =>
    obtain ⟨hc, hcs⟩ := List.forall_mem_cons.mp h
    rw [refsOf, hc.calleeAfter_eq]
    exact List.forall_mem_append.mpr ⟨hc.refs, ih hcs⟩

/-- All that statements outside of a call refer to has `P`. -/
def AllKeep (P : Ref → Prop) (cs : List Code) : Prop := ∀ c ∈ cs, c.Keeps P none

theorem keeps_scope {cs : List Code} (h : ∀ c ∈ cs, c.Keeps P func) : (scope cs).Keeps P func where
  callee := by simp
  refs := forall_mem_refsOf h

end Code

end ScriptC
