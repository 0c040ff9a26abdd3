import ScriptC.Check
import ScriptC.Main
import ScriptC.Tree.Builder
import ScriptC.Proofs.Blocks.Discipline
import ScriptC.Proofs.Induction
import ScriptC.Proofs.Blocks.Actions
import ScriptC.Proofs.Blocks.Statements
import ScriptC.Proofs.Blocks.Trees
import ScriptC.Proofs.Calls.Tracking
import ScriptC.Proofs.Calls.Expressions
import ScriptC.Proofs.Calls.Statements
import ScriptC.Proofs.Calls.Trees
import ScriptC.Proofs.Calls.Values
import ScriptC.Proofs.Evaluation.Machine
import ScriptC.Proofs.Evaluation.Pieces
import ScriptC.Proofs.Evaluation.Expressions
import ScriptC.Proofs.Evaluation.Trees
import ScriptC.Proofs.Control.Courses
import ScriptC.Proofs.Control.Walks
import ScriptC.Proofs.Control.Expressions
import ScriptC.Proofs.Control.Statements
import ScriptC.Proofs.Control.Trees
import ScriptC.Proofs.Assignments.Conflicts
import ScriptC.Proofs.Safety.Trees
import ScriptC.Proofs.Search.Postorder
import ScriptC.Proofs.Dominance.Queries
import ScriptC.Proofs.Generation.Units
import ScriptC.Proofs.Results.Protocol
import ScriptC.Proofs.Scoping.Locals
import ScriptC.Proofs.Mirror.Units
import ScriptC.Proofs.Resources.Units
import ScriptC.Proofs.Installation.Atomicity
import ScriptC.Proofs.Jumps.Units
import ScriptC.Proofs.Serialisation.Trees
import ScriptC.Proofs.Safety.Balance
import ScriptC.Proofs.Moves.Machine
import ScriptC.Proofs.Moves.Sequencing
import ScriptC.Proofs.Resources.Returns
import ScriptC.Proofs.Policies.Upkeep
import ScriptC.Proofs.Assignments.Statements
import ScriptC.Proofs.Integers.Conversions
import ScriptC.Proofs.Loops.Integers
import ScriptC.Proofs.Pools.Histories
import ScriptC.Proofs.Blocks.Ownership
import ScriptC.Proofs.Search.Histories
import ScriptC.Proofs.Checks
