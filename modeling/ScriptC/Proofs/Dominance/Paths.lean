import Mathlib.Tactic.Common
import ScriptC.Graph.Walk

/-! # Paths from the entry

A node dominates another if every path from the entry to the other passes through it. Adding nodes
and edges keeps the two ends of every edge in agreement, so a path can be followed either way.
-/

namespace ScriptC.Graph

/-- Built from its entry by adding nodes and edges, with walks in between. -/
inductive Built : Graph → Prop
  | new (entry : Nat) : Built (new entry)
  | addNode {g : Graph} (n : Nat) : Built g → Built (g.addNode n)
  | addEdge {g : Graph} (a b : Nat) : Built g → Built (g.addEdge a b).1
  | classify {g : Graph} : Built g → Built g.classify

/-- The list holds the nodes of a path from the entry to the node, the last one first. -/
inductive PathTo (g : Graph) : Nat → List Nat → Prop
  | entry : PathTo g g.entry [g.entry]
  | step {a b : Nat} {l : List Nat} : PathTo g a l → b ∈ g.succs a → PathTo g b (b :: l)

def Reachable (g : Graph) (n : Nat) : Prop := ∃ l, g.PathTo n l

def Dominates (g : Graph) (d n : Nat) : Prop := ∀ l, g.PathTo n l → d ∈ l

def StrictlyDominates (g : Graph) (d n : Nat) : Prop := g.Dominates d n ∧ d ≠ n

/-- Both ends of an edge know it. -/
structure Linked (g : Graph) : Prop where
  entry_lt : g.entry < g.nodes.size
  target_lt : ∀ {a b : Nat}, b ∈ g.succs a → b < g.nodes.size
  mem_preds : ∀ {a b : Nat}, a ∈ g.preds b ↔ b ∈ g.succs a

section Building

variable {g : Graph}

theorem lt_size_addNode (g : Graph) (n : Nat) : n < (g.addNode n).nodes.size := by
  simp only [addNode, Array.size_append, Array.size_replicate]
  omega

theorem size_le_addNode (g : Graph) (n : Nat) : g.nodes.size ≤ (g.addNode n).nodes.size := by
  simp only [addNode, Array.size_append]
  omega

@[simp] theorem node_addNode (g : Graph) (n m : Nat) : (g.addNode n).node m = g.node m := by
  simp only [node, addNode, Array.getD_eq_getD_getElem?, Array.getElem?_append,
    Array.getElem?_replicate]
  split
  · rfl
  · rename_i h
    rw [Array.getElem?_eq_none (Nat.le_of_not_lt h)]
    split <;> rfl

theorem getD_modify {nodes : Array Node} {a : Nat} (ha : a < nodes.size) (f : Node → Node)
    (m : Nat) : (nodes.modify a f).getD m {} =
      if m = a then f (nodes.getD m {}) else nodes.getD m {} := by
  simp only [Array.getD_eq_getD_getElem?, Array.getElem?_modify, eq_comm (a := a)]
  split
  · subst m
    rw [Array.getElem?_eq_getElem ha]
    rfl
  · rfl

@[simp] theorem node_new (entry n : Nat) : (new entry).node n = {} := by
  rw [new, node_addNode]
  simp [node]

theorem linked_new (entry : Nat) : (new entry).Linked := by
  constructor
  · exact lt_size_addNode _ entry
  · intro a b hb
    simp [succs, edges] at hb
  · intro a b
    simp [succs, edges, preds]

theorem Linked.addNode (hg : g.Linked) (n : Nat) : (g.addNode n).Linked := by
  constructor
  · exact Nat.lt_of_lt_of_le hg.entry_lt (size_le_addNode g n)
  · intro a b hb
    simp only [succs, edges, node_addNode] at hb
    exact Nat.lt_of_lt_of_le (hg.target_lt hb) (size_le_addNode g n)
  · intro a b
    simp only [succs, edges, preds, node_addNode]
    exact hg.mem_preds

theorem addEdge_of_mem {a b : Nat} (h : b ∈ g.succs a) :
    (g.addEdge a b).1 = g.addNode (max a b) := by
  have hedge : (g.addNode (max a b)).hasEdge a b = true := by
    simpa [hasEdge, succs, edges, node_addNode] using h
  simp only [addEdge, hedge, if_true]

/-- A new edge is appended to the successors of its source and to the predecessors of its target. -/
theorem node_addEdge {a b : Nat} (h : b ∉ g.succs a) (n : Nat) : (g.addEdge a b).1.node n =
    { g.node n with
      succs := if n = a then (g.node n).succs ++ [⟨b, .unclassified⟩] else (g.node n).succs
      preds := if n = b then (g.node n).preds ++ [a] else (g.node n).preds } := by
  have hedge : (g.addNode (max a b)).hasEdge a b = false := by
    simpa [hasEdge, succs, edges, node_addNode] using h
  have hlt := lt_size_addNode g (max a b)
  have ha : a < (g.addNode (max a b)).nodes.size := by omega
  have hb : b < (g.addNode (max a b)).nodes.size := by omega
  simp only [addEdge, hedge, Bool.false_eq_true, if_false]
  rw [node, getD_modify (by simpa using hb), getD_modify ha]
  change (if n = b then _ else _) = _
  rw [← node_addNode g (max a b) n]
  split <;> split <;> rfl

theorem size_addEdge (g : Graph) (a b : Nat) :
    (g.addEdge a b).1.nodes.size = (g.addNode (max a b)).nodes.size := by
  unfold addEdge
  dsimp only
  split <;> simp

theorem succs_addEdge {a b : Nat} (h : b ∉ g.succs a) (n : Nat) :
    (g.addEdge a b).1.succs n = if n = a then g.succs n ++ [b] else g.succs n := by
  simp only [succs, edges, node_addEdge h]
  split <;> simp

theorem preds_addEdge {a b : Nat} (h : b ∉ g.succs a) (n : Nat) :
    (g.addEdge a b).1.preds n = if n = b then g.preds n ++ [a] else g.preds n := by
  simp only [preds, node_addEdge h]

@[simp] theorem entry_addEdge (g : Graph) (a b : Nat) : (g.addEdge a b).1.entry = g.entry := by
  unfold addEdge
  dsimp only
  split <;> rfl

theorem mem_succs_addEdge {a b n x : Nat} :
    x ∈ (g.addEdge a b).1.succs n ↔ x ∈ g.succs n ∨ n = a ∧ x = b := by
  by_cases h : b ∈ g.succs a
  · rw [addEdge_of_mem h, succs, edges, node_addNode]
    constructor
    · exact .inl
    · rintro (hx | ⟨rfl, rfl⟩)
      · exact hx
      · exact h
  · rw [succs_addEdge h]
    split <;> simp_all

theorem Linked.addEdge (hg : g.Linked) (a b : Nat) : (g.addEdge a b).1.Linked := by
  by_cases h : b ∈ g.succs a
  · rw [addEdge_of_mem h]
    exact hg.addNode (max a b)
  have hl := hg.addNode (max a b)
  have hlt := lt_size_addNode g (max a b)
  constructor
  · rw [size_addEdge, entry_addEdge]
    exact hl.entry_lt
  · intro x y hy
    rw [size_addEdge]
    rcases mem_succs_addEdge.mp hy with hy | ⟨-, rfl⟩
    · exact Nat.lt_of_lt_of_le (hg.target_lt hy) (size_le_addNode g _)
    · omega
  · intro x y
    rw [mem_succs_addEdge, preds_addEdge h]
    have := hg.mem_preds (a := x) (b := y)
    split <;> simp_all

theorem node_classify (g : Graph) (n : Nat) (hn : n < g.nodes.size) :
    g.classify.node n =
      { g.node n with
        pre := g.walk.pre.getD n none
        rpo := g.walk.number? n
        succs := (g.node n).succs.map fun e => { e with kind := g.walk.kind n e.target } } := by
  simp [node, classify, Array.getD_eq_getD_getElem?, hn]

theorem node_of_size_le (g : Graph) {n : Nat} (hn : g.nodes.size ≤ n) : g.node n = {} := by
  simp [node, Array.getD_eq_getD_getElem?, Array.getElem?_eq_none hn]

@[simp] theorem entry_classify (g : Graph) : g.classify.entry = g.entry := rfl

@[simp] theorem size_classify (g : Graph) : g.classify.nodes.size = g.nodes.size := by
  simp [classify]

@[simp] theorem preds_classify (g : Graph) (n : Nat) : g.classify.preds n = g.preds n := by
  rcases Nat.lt_or_ge n g.nodes.size with hn | hn
  · rw [preds, node_classify g n hn]
    rfl
  · rw [preds, preds, node_of_size_le g hn, node_of_size_le g.classify (by simpa using hn)]

@[simp] theorem succs_classify (g : Graph) (n : Nat) : g.classify.succs n = g.succs n := by
  rcases Nat.lt_or_ge n g.nodes.size with hn | hn
  · rw [succs, edges, node_classify g n hn, List.map_map]
    rfl
  · rw [succs, edges, succs, edges, node_of_size_le g hn,
      node_of_size_le g.classify (by simpa using hn)]

theorem Linked.classify (hg : g.Linked) : g.classify.Linked := by
  constructor
  · rw [size_classify]
    exact hg.entry_lt
  · intro a b hb
    rw [succs_classify] at hb
    rw [size_classify]
    exact hg.target_lt hb
  · intro a b
    rw [succs_classify, preds_classify]
    exact hg.mem_preds

theorem Built.linked (hg : g.Built) : g.Linked := by
  induction hg with
  | new entry => exact linked_new entry
  | addNode n _ ih => exact ih.addNode n
  | addEdge a b _ ih => exact ih.addEdge a b
  | classify _ ih => exact ih.classify

end Building

section Paths

variable {g : Graph}

theorem Reachable.entry (g : Graph) : g.Reachable g.entry := ⟨_, .entry⟩

theorem Reachable.step {a b : Nat} (ha : g.Reachable a) (hb : b ∈ g.succs a) : g.Reachable b := by
  obtain ⟨l, hl⟩ := ha
  exact ⟨_, hl.step hb⟩

/-- A dominator is passed before the last step. -/
theorem Dominates.of_mem_succs {d a b : Nat} (h : g.Dominates d b) (hne : d ≠ b)
    (hb : b ∈ g.succs a) : g.Dominates d a := by
  intro l hl
  rcases List.mem_cons.mp (h _ (hl.step hb)) with rfl | hd
  · exact absurd rfl hne
  · exact hd

theorem pathTo_classify {n : Nat} {l : List Nat} : g.classify.PathTo n l ↔ g.PathTo n l := by
  constructor
  · intro h
    induction h with
    | entry => exact .entry
    | step _ hb ih =>
      rw [succs_classify] at hb
      exact ih.step hb
  · intro h
    induction h with
    | entry => exact .entry (g := g.classify)
    | step _ hb ih =>
      rw [← succs_classify] at hb
      exact ih.step hb

theorem reachable_classify {n : Nat} : g.classify.Reachable n ↔ g.Reachable n :=
  exists_congr fun _ => pathTo_classify

theorem dominates_classify {d n : Nat} : g.classify.Dominates d n ↔ g.Dominates d n :=
  forall_congr' fun _ => imp_congr_left pathTo_classify

end Paths

end ScriptC.Graph
