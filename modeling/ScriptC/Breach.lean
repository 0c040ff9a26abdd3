/-! # Broken contracts

Some operations are only defined for what their callers promise. A run that breaks such a promise
stops there.
-/

namespace ScriptC

/-- The promise that was broken. -/
inductive Breach where
  | neverAllocated (reg : Nat)
  | freedTwice (reg : Nat)
  | alreadyLive (reg : Nat)
  /-- An id that names nothing. -/
  | outOfBounds
  /-- A number that does not fit 32 bits. -/
  | overflow
deriving DecidableEq, Repr

/-- The complaint about a register; the other contracts are broken without a word. -/
def Breach.message? : Breach → Option String
  | neverAllocated r => some s!"register {r} was never allocated"
  | freedTwice r => some s!"register {r} freed twice"
  | alreadyLive r => some s!"register {r} is already live"
  | outOfBounds | overflow => none

end ScriptC
