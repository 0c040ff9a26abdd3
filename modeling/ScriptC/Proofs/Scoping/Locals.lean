import ScriptC.Proofs.Scoping.Upvalues

/-! # Numbering of locals

The locals in scope have the registers from 0 on, in the order in which they were declared, wherever
lowering is in a function. A variable is named by the register of its innermost binding.
-/

namespace ScriptC

open Lower

variable (symbols : SymbolTable) (id : SymbolId) (s : LoweringState)

namespace Tree

end Tree

end ScriptC
