import ScriptC.Decimal.Layout

/-! # Constant pools

Constants are numbered in the order of their first use. Two constants are one when they have the
same type and the same value; floats are compared by bit pattern, so that both zeros stay apart.
-/

namespace ScriptC

inductive Constant where
  | integer (value : Int64)
  | number (value : Binary64)
  | string (value : String)
deriving DecidableEq, Repr

/-- A constant at its position in a pool, as a listing shows it. -/
def Constant.text (index : Nat) : Constant → String
  | integer n => s!"{n.toInt} Kint({index})"
  | number x => s!"{x.listed} Kflt({index})"
  | string s => s!"'{s}' Ks({index})"

structure ConstantPool where
  entries : Array Constant := #[]
deriving DecidableEq, Repr, Inhabited

namespace ConstantPool

def get? (p : ConstantPool) (index : Nat) : Option Constant := p.entries[index]?

/-- The index of a constant, and whether it was added for it. -/
def intern (p : ConstantPool) (c : Constant) : ConstantPool × Nat × Bool :=
  match p.entries.idxOf? c with
  | some index => (p, index, false)
  | none => (⟨p.entries.push c⟩, p.entries.size, true)

end ConstantPool

end ScriptC
