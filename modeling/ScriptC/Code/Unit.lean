import ScriptC.Code.Generation
import ScriptC.Code.Printer
import ScriptC.Flow
import ScriptC.Host
import ScriptC.Options

/-! # Generated units

The C of a module: a preamble, then one function for each proc, parents first. The prototype of a
proc is set up before its code is generated, since the code refers to string constants by their
position in the prototype.
-/

namespace ScriptC

/-- A generated function and the prototype it belongs to. -/
structure GeneratedFunction where
  proc : Nat
  name : String
  prototype : Nat
  frame : Frame
deriving DecidableEq, Repr

structure GeneratedUnit where
  source : String := ""
  functions : List GeneratedFunction := []
deriving DecidableEq, Repr

/-- What the generation of a unit changes. -/
structure GenerationState where
  host : Host
  stats : Stats
  unit : GeneratedUnit := {}

abbrev Generate := EStateM Failure GenerationState

namespace Generate

/-- Make a request to the host. -/
def request {α : Type} (f : Host → Except HostFault (Host × α)) : Generate α := do
  match f (← get).host with
  | .ok (host, a) =>
    modify fun s => { s with host }
    return a
  | .error e => throw (.refused (.host e))

def tell (f : Host → Except HostFault Host) : Generate Unit :=
  request fun h => return (← f h, ())

/-- The string constants of a proc with their indices in the pool. -/
def stringConstants (p : Proc) : List (Nat × String) :=
  p.constants.entries.toList.zipIdx.filterMap fun (c, k) =>
    match c with
    | .string s => some (k, s)
    | _ => none

/-- Generate the function of a proc whose prototype is `proto`. -/
def proc (options : Options) (m : Module) (p : Proc) (proto : Nat) : Generate Unit := do
  p.upvalues.forM fun u => tell (·.declareUpvalue proto u)
  tell (·.setParams proto p.params)
  let strings ← (stringConstants p).mapM fun (k, s) =>
    return (k, ← request (·.internString proto s))
  let frame ← match Frame.compute p with
    | .ok f => pure f
    | .error b => throw (.stopped b)
  let name := options.functionName p.id
  let context : CodeContext := ⟨p, m.children p.id, frame, strings⟩
  let text ← match context.unit name with
    | .ok f => pure f.text
    | .error e => throw e
  tell (·.setSlots proto frame.size)
  modify fun s =>
    { s with
      stats := s.stats.functionGenerated name text.utf8ByteSize
      unit := ⟨s.unit.source ++ text ++ "\n",
        s.unit.functions ++ [⟨p.id, name, proto, frame⟩]⟩ }

/-- The prototype of a proc: `root` for the one that has no parent here, otherwise a new child of
the prototype of its parent. -/
def prototype (root : Nat) (p : Proc) : Generate Nat := do
  match (← get).unit.functions.find? fun f => some f.proc == p.parent with
  | some f => request (·.newChild f.prototype)
  | none => return root

/-- Generate the given procs in order. -/
def procs (options : Options) (m : Module) (root : Nat) (ids : List Nat) : Generate Unit :=
  ids.forM fun id => do
    match m.procs[id]? with
    | some p => proc options m p (← prototype root p)
    | none => throw (.stopped .outOfBounds)

end Generate

/-- The unit of a module whose root has the prototype `root`, with the host and the statistics as
far as they got. -/
def Module.generate (m : Module) (options : Options) (host : Host) (root : Nat) (stats : Stats) :
    Host × Stats × Except Failure GeneratedUnit :=
  let source := if options.hasPreamble then options.preamble ++ "\n" else ""
  let ids := match m.root? with
    | some r => m.preorder m.procs.size r
    | none => []
  match Generate.procs options m root ids { host, stats, unit := { source } } with
  | .ok _ s => (s.host, s.stats, .ok s.unit)
  | .error e s => (s.host, s.stats, .error e)

end ScriptC
