import ScriptC.Failure
import ScriptC.Proc
import ScriptC.Stats

/-! # Control flow of procs

The blocks of a proc are the nodes of its control-flow graph; the last instruction of a block
gives the edges that leave it.
-/

namespace ScriptC

namespace Proc

variable (p : Proc)

/-- The blocks that control can reach from the end of block `b`. -/
def successors (b : Nat) : Except CompileError (List Nat) :=
  match p.lastInstr? b with
  | none => .error (.unterminatedBlock p.id b)
  | some i =>
    match i.opcode with
    | .br | .cbr =>
      match i.targets.filterMap Operand.block? with
      | [] => .error (.invalidOperand p.id (.noTargetBlock i.opcode b))
      | targets => .ok targets
    | .ret => .ok [exitBlock]
    | _ => .error (.unterminatedBlock p.id b)

/-- The edges of the control-flow graph, by block. Nothing leaves the exit. -/
def transfers : Except CompileError (List (Nat × Nat)) := do
  let blocks := (List.range p.blocks.size).filter (· != exitBlock)
  let edges ← blocks.mapM fun b => return (← p.successors b).map fun t => (b, t)
  return edges.flatten

def graph : Except CompileError Graph := do
  let start := (Graph.new entryBlock).addNode (p.blocks.size - 1)
  return ((← p.transfers).foldl (fun g (a, b) => (g.addEdge a b).1) start).classify

def analyse : Except CompileError Flow := do
  let graph ← p.graph
  return ⟨graph, .compute graph⟩

end Proc

namespace Module

/-- The procs below `p`, parents first. No chain of children is longer than the number of
procs. -/
def preorder (m : Module) : Nat → Nat → List Nat
  | 0, p => [p]
  | depth + 1, p => p :: (m.children p).flatMap (m.preorder depth)

/-- The given procs with their control flow. Work stops at the first proc that has none; what was
done before stays done. -/
def analyseAll (m : Module) (stats : Stats) : List Nat → (Module × Stats) × Except Failure Unit
  | [] => ((m, stats), .ok ())
  | id :: rest =>
    match m.procs[id]? with
    | none => ((m, stats), .error (.stopped .outOfBounds))
    | some p =>
      match p.analyse with
      | .error e => ((m, stats), .error (.refused e))
      | .ok flow =>
        analyseAll ⟨m.procs.modify id fun p => { p with flow := some flow }⟩
          (stats.graphBuilt flow.graph.edgeCount) rest

/-- Find the control flow of `p` and of all procs below it. -/
def analyse (m : Module) (stats : Stats) (p : Nat) : (Module × Stats) × Except Failure Unit :=
  m.analyseAll stats (m.preorder m.procs.size p)

end Module

end ScriptC
