import ScriptC.Code.Unit
import ScriptC.Lowering

/-! # Compilation of trees

A tree is lowered to procs, their control flow is found, C is generated and the host compiles it
once. Only then is every function looked up and attached to its prototype.
-/

namespace ScriptC

/-- What a compilation leaves behind, whether it succeeds or not. -/
structure Outcome (α : Type) where
  host : Host
  stats : Stats
  result : Except Failure α

structure CompiledUnit where
  module : Module
  unit : GeneratedUnit

/-- The procs of a tree with their control flow. -/
def Tree.analyse (t : Tree) (stats : Stats) : Stats × Except Failure Module :=
  match t.lower stats with
  | (stats, .error e) => (stats, .error e)
  | (stats, .ok m) =>
    match m.root? with
    | none => (stats, .ok m)
    | some root =>
      match m.analyse stats root with
      | ((m, stats), .ok ()) => (stats, .ok m)
      | ((_, stats), .error e) => (stats, .error e)

namespace GeneratedUnit

/-- Look up the functions in compiled C and attach each to its prototype. -/
def attachAll (source : String) (host : Host) : List GeneratedFunction → Host × Except Failure Unit
  | [] => (host, .ok ())
  | f :: rest =>
    match host.lookup source f.name with
    | (host, .error e) => (host, .error (.refused (.host e)))
    | (host, .ok ()) =>
      match host.attach f.prototype f.name with
      | .error e => (host, .error (.refused (.host e)))
      | .ok host => attachAll source host rest

/-- Have the host compile a unit and attach its functions. -/
def install (u : GeneratedUnit) (host : Host) : Host × Except Failure Unit :=
  match host.compile u.source with
  | .error e => (host, .error (.refused (.host e)))
  | .ok host => attachAll u.source host u.functions

end GeneratedUnit

/-- Compile a tree whose main function has the prototype `root`. -/
def Tree.compile (t : Tree) (options : Options) (host : Host) (root : Nat) (stats : Stats) :
    Outcome CompiledUnit :=
  match t.analyse stats with
  | (stats, .error e) => ⟨host, stats, .error e⟩
  | (stats, .ok module) =>
    match module.generate options host root stats with
    | (host, stats, .error e) => ⟨host, stats, .error e⟩
    | (host, stats, .ok unit) =>
      match unit.install host with
      | (host, .error e) => ⟨host, stats, .error e⟩
      | (host, .ok ()) => ⟨host, stats, .ok ⟨module, unit⟩⟩

end ScriptC
