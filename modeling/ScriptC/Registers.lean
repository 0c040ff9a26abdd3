import ScriptC.Operand

/-! # Register pools

A pool hands out registers from zero on. A register that was returned is the first to be handed
out again.
-/

namespace ScriptC

structure Registers where
  /-- Number of registers ever handed out. -/
  next : Nat := 0
  /-- Returned registers, the latest first. -/
  free : List Nat := []
deriving DecidableEq, Repr, Inhabited

namespace Registers

def alloc (p : Registers) : Registers × Nat :=
  match p.free with
  | r :: rs => ({ p with free := rs }, r)
  | [] => ({ p with next := p.next + 1 }, p.next)

def release (p : Registers) (r : Nat) : Except Breach Registers :=
  if p.next ≤ r then .error (.neverAllocated r)
  else if r ∈ p.free then .error (.freedTwice r)
  else .ok { p with free := r :: p.free }

/-- Claim one register. The registers skipped to reach it become free, the lowest first in
line. -/
def take (p : Registers) (r : Nat) : Except Breach Registers :=
  if r ∈ p.free then .ok { p with free := p.free.erase r }
  else if r < p.next then .error (.alreadyLive r)
  else if wordLimit ≤ r + 1 then .error .overflow
  else .ok ⟨r + 1, List.range' p.next (r - p.next) ++ p.free⟩

/-- Registers currently handed out. -/
def live (p : Registers) : Nat := p.next - p.free.length

end Registers

end ScriptC
