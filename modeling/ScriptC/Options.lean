import ScriptC.Code.Preamble

/-! # Options of a compilation -/

namespace ScriptC

structure Options where
  /-- What the name of every generated function starts with; the number of its proc follows. -/
  stem : String := "ravel_proc_"
  /-- Replacement of the default preamble. -/
  preamble? : Option String := none
  /-- Whether the unit starts with a preamble at all. -/
  hasPreamble : Bool := true
deriving DecidableEq, Repr, Inhabited

namespace Options

variable (o : Options)

def withStem (stem : String) : Options := { o with stem }

def withPreamble (text : String) : Options := { o with preamble? := some text, hasPreamble := true }

def withoutPreamble : Options := { o with hasPreamble := false }

def preamble : String := o.preamble?.getD defaultPreamble

def functionName (proc : Nat) : String := s!"{o.stem}{proc}"

end Options

end ScriptC
