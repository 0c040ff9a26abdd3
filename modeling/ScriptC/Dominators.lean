import ScriptC.Graph.Walk

/-! # Dominator trees

The immediate dominators are refined in reverse postorder until a pass changes nothing. Two
candidates are merged where their chains of dominators meet.
-/

namespace ScriptC

structure Dominators where
  entry : Nat
  /-- Immediate dominator of each node; the entry is its own, an unreachable node has none. -/
  idom : Array (Option Nat)
deriving DecidableEq, Repr, Inhabited

namespace Dominators

section

variable (g : Graph)

/-- Position in reverse postorder; a node without one counts as last. -/
def position (n : Nat) : Nat := (g.node n).rpo.getD 4294967295

def up (idom : Array (Option Nat)) (n : Nat) : Nat := (idom.getD n none).getD g.entry

/-- The node where the chains of `a` and `b` meet. Each step moves the later of the two up. -/
def meet (idom : Array (Option Nat)) : Nat → Nat → Nat → Nat
  | 0, a, _ => a
  | steps + 1, a, b =>
    if a = b then a
    else if position g b < position g a then meet idom steps (up g idom a) b
    else meet idom steps a (up g idom b)

/-- Merge one more predecessor, unless nothing is known about it yet. -/
def merge (idom : Array (Option Nat)) (found : Option Nat) (pred : Nat) : Option Nat :=
  match idom.getD pred none, found with
  | none, _ => found
  | some _, none => some pred
  | some _, some d => some (meet g idom (2 * g.nodes.size) d pred)

/-- The immediate dominator of a node that follows from those of its predecessors. -/
def candidate (idom : Array (Option Nat)) (n : Nat) : Option Nat :=
  (g.preds n).foldl (merge g idom) none

/-- Refine one node; the flag records a change. -/
def refine : Array (Option Nat) × Bool → Nat → Array (Option Nat) × Bool
  | (idom, changed), n =>
    match candidate g idom n with
    | none => (idom, changed)
    | some d =>
      if idom.getD n none = some d then (idom, changed)
      else (idom.setIfInBounds n (some d), true)

def pass (idom : Array (Option Nat)) : Array (Option Nat) × Bool :=
  (g.rpo.filter (· != g.entry)).foldl (refine g) (idom, false)

/-- Passes until nothing changes. -/
def iterate : Nat → Array (Option Nat) → Array (Option Nat)
  | 0, idom => idom
  | n + 1, idom =>
    match pass g idom with
    | (idom, true) => iterate n idom
    | (idom, false) => idom

/-- The dominator tree of a graph, as far as its last walk reached. Every pass but the last moves
an immediate dominator to an earlier position, so the square of the number of nodes bounds the
passes. -/
def compute : Dominators :=
  let unknown : Array (Option Nat) := Array.replicate g.nodes.size none
  ⟨g.entry, iterate g (g.nodes.size * g.nodes.size + 1)
    (unknown.setIfInBounds g.entry (some g.entry))⟩

end

def idom? (t : Dominators) (n : Nat) : Option Nat := t.idom.getD n none

/-- Search the chain of dominators of `n` upwards. -/
def onChain (t : Dominators) (a : Nat) : Nat → Nat → Bool
  | 0, n => n == a
  | steps + 1, n =>
    n == a || match t.idom? n with
      | some d => d != n && onChain t a steps d
      | none => false

/-- Whether `a` is on the chain of dominators of `b`, `b` included. -/
def dominates (t : Dominators) (a b : Nat) : Bool := t.onChain a t.idom.size b

/-- Nodes other than `n` whose immediate dominator is `n`. -/
def children (t : Dominators) (n : Nat) : List Nat :=
  (List.range t.idom.size).filter fun m => t.idom? m == some n && m != n

def text (t : Dominators) : String :=
  String.join (t.idom.toList.zipIdx.map fun (d, n) =>
    match d with
    | some d => s!"IDOM(L{n}) = L{d}\n"
    | none => s!"IDOM(L{n}) = ?\n")

end Dominators

/-- The control flow of a proc. -/
structure Flow where
  graph : Graph
  dominators : Dominators
deriving DecidableEq, Repr, Inhabited

end ScriptC
