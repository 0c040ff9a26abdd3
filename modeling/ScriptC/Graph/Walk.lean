import ScriptC.Graph

/-! # Depth-first walks

A walk from the entry numbers the nodes in the order of discovery and lists them in reverse
postorder. Both numberings together tell what every edge is to the walk.
-/

namespace ScriptC

structure Walk where
  /-- Discovery number of each node. -/
  pre : Array (Option Nat)
  /-- The node from which each node was discovered. -/
  parent : Array (Option Nat)
  /-- Number of nodes discovered. -/
  found : Nat := 0
  /-- Finished nodes, the latest first: the reverse postorder once the walk is done. -/
  order : List Nat := []
deriving Repr

namespace Walk

def start (size : Nat) : Walk := ⟨Array.replicate size none, Array.replicate size none, 0, []⟩

def isFound (w : Walk) (n : Nat) : Bool := (w.pre.getD n none).isSome

def discover (w : Walk) (n : Nat) (parent : Option Nat) : Walk :=
  { w with
    pre := w.pre.setIfInBounds n (some w.found)
    parent := w.parent.setIfInBounds n parent
    found := w.found + 1 }

def finish (w : Walk) (n : Nat) : Walk := { w with order := n :: w.order }

/-- Walk on from a discovered node. Every nested call has discovered one more node, so the
number of nodes bounds the depth. -/
def visit (succs : Nat → List Nat) : Nat → Nat → Walk → Walk
  | 0, _, w => w
  | depth + 1, n, w =>
    finish ((succs n).foldl (fun w v =>
      if w.isFound v then w else visit succs depth v (w.discover v (some n))) w) n

def number? (w : Walk) (n : Nat) : Option Nat := w.order.idxOf? n

/-- The kind of an edge, from the numbers of its ends. -/
def kind (w : Walk) (a b : Nat) : EdgeKind :=
  match w.pre.getD a none, w.number? a, w.pre.getD b none, w.number? b with
  | some preA, some rpoA, some preB, some rpoB =>
    if w.parent.getD b none = some a then .tree
    else if rpoB ≤ rpoA then if preB ≤ preA then .backward else .cross
    else if preA < preB then .forward
    else .cross
  | _, _, _, _ => .unclassified

end Walk

namespace Graph

def walk (g : Graph) : Walk :=
  Walk.visit g.succs g.nodes.size g.entry ((Walk.start g.nodes.size).discover g.entry none)

/-- Number the reachable nodes and tell the kind of every edge. -/
def classify (g : Graph) : Graph :=
  let w := g.walk
  { g with
    nodes := g.nodes.mapIdx fun a n =>
      { n with
        pre := w.pre.getD a none
        rpo := w.number? a
        succs := n.succs.map fun e => { e with kind := w.kind a e.target } }
    rpo := w.order }

end Graph

end ScriptC
