import Mathlib.Tactic.Common
import ScriptC.Lowering.Expr

/-! # Opcodes of computations

The opcodes that are chosen by operators, types and shapes compute, load or store. None of them
ends a block or is a call.
-/

namespace ScriptC

/-- An opcode after which the block goes on, and which is no call. -/
def Opcode.IsStraight (opcode : Opcode) : Prop := opcode.isTerminator = false ∧ opcode ≠ .call

instance (opcode : Opcode) : Decidable opcode.IsStraight :=
  inferInstanceAs (Decidable (_ ∧ _))

theorem moveOpcode_isStraight (dest src : TypeTag) : (moveOpcode dest src).IsStraight := by
  cases dest <;> cases src <;> decide

theorem guardOpcode?_isStraight {tag : TypeTag} {guard : Opcode} (h : guardOpcode? tag = some guard) :
    guard.IsStraight := by
  cases tag <;> simp only [guardOpcode?, reduceCtorEq, Option.some.injEq] at h <;> subst h <;> decide

theorem Opcode.isStraight_of_storeCounterpart? {opcode store : Opcode}
    (h : opcode.storeCounterpart? = some store) : opcode.IsStraight ∧ store.IsStraight := by
  unfold storeCounterpart? at h
  split at h <;> simp only [reduceCtorEq, Option.some.injEq] at h <;> subst h <;> decide

namespace Selection

theorem load_isStraight (container : Ty) (key : KeyClass) :
    (Selection.load container key).opcode.IsStraight := by
  unfold Selection.load
  split <;> decide

/-- Every load of an element can become a store. -/
theorem load_storeCounterpart? (container : Ty) (key : KeyClass) :
    ∃ store, (Selection.load container key).opcode.storeCounterpart? = some store := by
  unfold Selection.load
  split <;> exact ⟨_, rfl⟩

theorem unary_isStraight (op : UnaryOp) (operand : Ty) :
    (Selection.unary op operand).opcode.IsStraight := by
  unfold Selection.unary
  split <;> (try split) <;> decide

theorem binary?_isStraight {op : BinaryOp} {x y : OperandClass} {sel : Selection}
    (h : Selection.binary? op x y = some sel) : sel.opcode.IsStraight := by
  unfold binary? at h
  split at h <;> simp only [reduceCtorEq, Option.some.injEq] at h <;> subst h <;> decide

end Selection

namespace Lower.Shape

theorem opcode_isStraight (shape : Shape) : shape.opcode.IsStraight := by
  cases shape <;> decide

theorem positional_isStraight (shape : Shape) : shape.positional.IsStraight := by
  cases shape <;> decide

theorem keyed_isStraight (shape : Shape) (key : KeyClass) : (shape.keyed key).IsStraight := by
  cases shape <;> cases key <;> decide

end Lower.Shape

end ScriptC
