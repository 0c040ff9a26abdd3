/-! # Directed graphs

Nodes are numbered densely. A node keeps its predecessors and its outgoing edges in the order in
which they were inserted, and an edge is kept once.
-/

namespace ScriptC

/-- What an edge is to a depth-first walk. -/
inductive EdgeKind where
  /-- The walk has not met the edge. -/
  | unclassified
  | tree
  /-- To a proper descendant, but not a tree edge. -/
  | forward
  /-- To an ancestor or to the node itself. -/
  | backward
  /-- Between unrelated subtrees. -/
  | cross
deriving DecidableEq, Repr, Inhabited

def EdgeKind.text : EdgeKind → String
  | unclassified => "?"
  | tree => "tree"
  | forward => "forward"
  | backward => "backward"
  | cross => "cross"

structure Edge where
  target : Nat
  kind : EdgeKind
deriving DecidableEq, Repr, Inhabited

structure Node where
  preds : List Nat := []
  succs : List Edge := []
  /-- Discovery number. -/
  pre : Option Nat := none
  /-- Position in reverse postorder. -/
  rpo : Option Nat := none
deriving DecidableEq, Repr, Inhabited

structure Graph where
  entry : Nat
  nodes : Array Node
  /-- Reachable nodes in reverse postorder, as of the last walk. -/
  rpo : List Nat := []
  edgeCount : Nat := 0
deriving DecidableEq, Repr, Inhabited

namespace Graph

/-- Make `node` exist, and all nodes below it. -/
def addNode (g : Graph) (node : Nat) : Graph :=
  { g with nodes := g.nodes ++ Array.replicate (node + 1 - g.nodes.size) {} }

def new (entry : Nat) : Graph := addNode { entry, nodes := #[] } entry

def node (g : Graph) (n : Nat) : Node := g.nodes.getD n {}

def preds (g : Graph) (n : Nat) : List Nat := (g.node n).preds

def edges (g : Graph) (n : Nat) : List Edge := (g.node n).succs

def succs (g : Graph) (n : Nat) : List Nat := (g.edges n).map (·.target)

def hasEdge (g : Graph) (a b : Nat) : Bool := (g.succs a).contains b

/-- Insert an edge; the flag is false if it was there already. -/
def addEdge (g : Graph) (a b : Nat) : Graph × Bool :=
  let g := g.addNode (max a b)
  if g.hasEdge a b then (g, false)
  else
    let nodes := g.nodes.modify a fun n => { n with succs := n.succs ++ [⟨b, .unclassified⟩] }
    let nodes := nodes.modify b fun n => { n with preds := n.preds ++ [a] }
    ({ g with nodes, edgeCount := g.edgeCount + 1 }, true)

def edgeKind? (g : Graph) (a b : Nat) : Option EdgeKind :=
  ((g.edges a).find? (·.target == b)).map (·.kind)

def isReachable (g : Graph) (n : Nat) : Bool := (g.node n).rpo.isSome

def unreachable (g : Graph) : List Nat :=
  (List.range g.nodes.size).filter fun n => !g.isReachable n

def text (g : Graph) : String :=
  String.join (g.nodes.toList.zipIdx.map fun (node, id) =>
    s!"L{id} ->" ++ String.join (node.succs.map fun e => s!" L{e.target}[{e.kind.text}]") ++ "\n")

end Graph

end ScriptC
