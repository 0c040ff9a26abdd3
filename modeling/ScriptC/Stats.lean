import ScriptC.Opcode

/-! # Statistics of a compilation -/

namespace ScriptC

structure Stats where
  procs : Nat := 0
  blocks : Nat := 0
  instructions : Nat := 0
  /-- How often each opcode was emitted, in the order of first emission. -/
  opcodes : List (String × Nat) := []
  constants : Nat := 0
  /-- Loads that assignments turned into stores. -/
  turnedLoads : Nat := 0
  graphs : Nat := 0
  edges : Nat := 0
  functions : Nat := 0
  /-- Bytes of generated code. -/
  sourceSize : Nat := 0
  largestSize : Nat := 0
  /-- Name of the largest function. -/
  largest : String := ""
deriving DecidableEq, Repr, Inhabited

/-- One more occurrence of a name. -/
def tally (name : String) : List (String × Nat) → List (String × Nat)
  | [] => [(name, 1)]
  | (k, n) :: rest => if k = name then (k, n + 1) :: rest else (k, n) :: tally name rest

namespace Stats

def procLowered (s : Stats) (blocks instructions : Nat) : Stats :=
  { s with
    procs := s.procs + 1
    blocks := s.blocks + blocks
    instructions := s.instructions + instructions }

def instruction (s : Stats) (opcode : String) : Stats :=
  { s with opcodes := tally opcode s.opcodes }

def constantInterned (s : Stats) : Stats := { s with constants := s.constants + 1 }

def loadTurned (s : Stats) : Stats := { s with turnedLoads := s.turnedLoads + 1 }

def graphBuilt (s : Stats) (edges : Nat) : Stats :=
  { s with graphs := s.graphs + 1, edges := s.edges + edges }

def functionGenerated (s : Stats) (name : String) (size : Nat) : Stats :=
  let s := { s with functions := s.functions + 1, sourceSize := s.sourceSize + size }
  if s.largestSize < size then { s with largestSize := size, largest := name } else s

/-- More frequent opcodes first, equally frequent ones by name. -/
def moreFrequent (a b : String × Nat) : Bool :=
  decide (b.2 < a.2) || (a.2 == b.2 && decide (a.1 ≤ b.1))

def report (s : Stats) : String :=
  let head := s!"Compilation Session Statistics:
  Procs linearized: {s.procs}
  Blocks created: {s.blocks}
  Instructions emitted: {s.instructions}
  Constants interned: {s.constants}
  Load/store rewrites: {s.turnedLoads}
  CFG edges: {s.edges} ({s.graphs} graphs)
  Functions generated: {s.functions}
  Total source size: {s.sourceSize} bytes\n"
  let largest :=
    if s.largest = "" then "" else s!"  Largest function: {s.largest} ({s.largestSize} bytes)\n"
  let breakdown :=
    if s.opcodes = [] then ""
    else "  Instruction breakdown:\n" ++ String.join
      (((s.opcodes.mergeSort moreFrequent).take 10).map fun (name, n) => s!"    {name}: {n}\n")
  head ++ largest ++ breakdown

end Stats

/-- The strings of one compilation, each kept once, and its statistics. -/
structure Session where
  strings : Array String := #[]
  stats : Stats := {}
deriving Inhabited

/-- The position of a string among the distinct ones, and whether it is new. -/
def Session.intern (s : Session) (text : String) : Session × Nat × Bool :=
  match s.strings.idxOf? text with
  | some i => (s, i, false)
  | none => ({ s with strings := s.strings.push text }, s.strings.size, true)

end ScriptC
