import Mathlib.Data.List.Induction
import Mathlib.Data.List.Nodup
import ScriptC.Proofs.Dominance.Paths

/-! # Histories of graphs

Nodes, edges and walks may come in any order. The lists of a graph are those of the edges in the
order of their first insertion, and a walk forgets all that earlier walks have found.
-/

namespace ScriptC.Graph

inductive Operation where
  | addNode (n : Nat)
  | addEdge (a b : Nat)
  | classify
deriving DecidableEq, Repr

namespace Operation

def apply (g : Graph) : Operation → Graph
  | addNode n => g.addNode n
  | addEdge a b => (g.addEdge a b).1
  | classify => g.classify

def edge? : Operation → Option (Nat × Nat)
  | addEdge a b => some (a, b)
  | addNode _ | classify => none

end Operation

/-- The graph after all operations, the first one first. -/
def replay (entry : Nat) (history : List Operation) : Graph :=
  history.foldl Operation.apply (new entry)

/-- The edges of a history, each where it was inserted first. -/
def insertions (history : List Operation) : List (Nat × Nat) :=
  (history.filterMap Operation.edge?).eraseDups

theorem replay_concat (entry : Nat) (history : List Operation) (op : Operation) :
    replay entry (history ++ [op]) = op.apply (replay entry history) := by
  simp [replay]

section Insertions

variable {history : List Operation} {a b : Nat}

theorem mem_insertions : (a, b) ∈ insertions history ↔ .addEdge a b ∈ history := by
  rw [insertions, List.mem_eraseDups, List.mem_filterMap]
  constructor
  · rintro ⟨op, hop, he⟩
    cases op <;> cases he
    exact hop
  · intro h
    exact ⟨_, h, rfl⟩

theorem insertions_addEdge (history : List Operation) (a b : Nat) :
    insertions (history ++ [.addEdge a b]) =
      if (a, b) ∈ insertions history then insertions history
      else insertions history ++ [(a, b)] := by
  have hlast : [Operation.addEdge a b].filterMap Operation.edge? = [(a, b)] := rfl
  simp only [insertions, List.filterMap_append, List.eraseDups_append, hlast, List.mem_eraseDups]
  generalize history.filterMap Operation.edge? = es
  by_cases h : (a, b) ∈ es <;> simp [List.removeAll, List.eraseDups_cons, h]

theorem insertions_of_none {op : Operation} (h : op.edge? = none) :
    insertions (history ++ [op]) = insertions history := by
  simp [insertions, List.filterMap_append, h]

theorem nodup_insertions (history : List Operation) : (insertions history).Nodup := by
  induction history using List.reverseRecOn with
  | nil => exact List.nodup_nil
  | append_singleton history op ih =>
    cases op with
    | addNode n => rwa [insertions_of_none rfl]
    | classify => rwa [insertions_of_none rfl]
    | addEdge a b =>
      rw [insertions_addEdge]
      split <;> rename_i h
      · exact ih
      · rw [← List.concat_eq_append]
        exact ih.concat h

end Insertions

section AddEdge

variable {g : Graph} {a b : Nat}

theorem addEdge_flag (g : Graph) (a b : Nat) : (g.addEdge a b).2 = true ↔ b ∉ g.succs a := by
  have hedge : (g.addNode (max a b)).hasEdge a b = (g.succs a).contains b := by
    simp [hasEdge, succs, edges]
  unfold addEdge
  dsimp only
  rw [hedge]
  split <;> simp_all

theorem edgeCount_addEdge (h : b ∉ g.succs a) : (g.addEdge a b).1.edgeCount = g.edgeCount + 1 := by
  have hedge : (g.addNode (max a b)).hasEdge a b = false := by
    simpa [hasEdge, succs, edges] using h
  simp only [addEdge, hedge, Bool.false_eq_true, if_false]
  rfl

end AddEdge

/-- The successors and the predecessors of the graph are those of the edges, in their order, and the
edges are counted. -/
structure Lists (g : Graph) (es : List (Nat × Nat)) : Prop where
  succs : ∀ a, g.succs a = (es.filter (·.1 == a)).map (·.2)
  preds : ∀ b, g.preds b = (es.filter (·.2 == b)).map (·.1)
  count : g.edgeCount = es.length

namespace Lists

variable {g : Graph} {es : List (Nat × Nat)} {a b : Nat}

theorem mem_succs (h : g.Lists es) : b ∈ g.succs a ↔ (a, b) ∈ es := by
  simp [h.succs]

theorem mem_preds (h : g.Lists es) : a ∈ g.preds b ↔ (a, b) ∈ es := by
  simp [h.preds]

theorem new (entry : Nat) : (new entry).Lists [] := by
  constructor
  · simp [Graph.succs, edges]
  · simp [Graph.preds]
  · rfl

theorem addNode (h : g.Lists es) (n : Nat) : (g.addNode n).Lists es := by
  constructor
  · simpa [Graph.succs, edges] using h.succs
  · simpa [Graph.preds] using h.preds
  · exact h.count

theorem addEdge (h : g.Lists es) (he : (a, b) ∉ es) : (g.addEdge a b).1.Lists (es ++ [(a, b)]) := by
  have hs : b ∉ g.succs a := mt h.mem_succs.mp he
  constructor
  · intro n
    rw [succs_addEdge hs, h.succs, List.filter_append, List.map_append]
    by_cases hn : a = n
    · simp [hn]
    · simp [hn, Ne.symm hn]
  · intro n
    rw [preds_addEdge hs, h.preds, List.filter_append, List.map_append]
    by_cases hn : b = n
    · simp [hn]
    · simp [hn, Ne.symm hn]
  · rw [edgeCount_addEdge hs, h.count, List.length_append, List.length_singleton]

theorem classify (h : g.Lists es) : g.classify.Lists es := by
  constructor
  · simpa using h.succs
  · simpa using h.preds
  · exact h.count

/-- A history lists each edge where it came first. -/
theorem replay (entry : Nat) (history : List Operation) :
    (replay entry history).Lists (insertions history) := by
  induction history using List.reverseRecOn with
  | nil => exact .new entry
  | append_singleton history op ih =>
    rw [replay_concat]
    cases op with
    | addNode n =>
      rw [insertions_of_none rfl]
      exact ih.addNode n
    | addEdge a b =>
      rw [insertions_addEdge]
      split <;> rename_i h
      · rw [Operation.apply, addEdge_of_mem (ih.mem_succs.mpr h)]
        exact ih.addNode (max a b)
      · exact ih.addEdge h
    | classify =>
      rw [insertions_of_none rfl]
      exact ih.classify

theorem nodup_succs (h : g.Lists es) (hes : es.Nodup) (a : Nat) : (g.succs a).Nodup := by
  rw [h.succs]
  refine (hes.filter _).map_on fun x hx y hy hxy => Prod.ext ?_ hxy
  have hx := (List.mem_filter.mp hx).2
  have hy := (List.mem_filter.mp hy).2
  simp_all

theorem nodup_preds (h : g.Lists es) (hes : es.Nodup) (b : Nat) : (g.preds b).Nodup := by
  rw [h.preds]
  refine (hes.filter _).map_on fun x hx y hy hxy => Prod.ext hxy ?_
  have hx := (List.mem_filter.mp hx).2
  have hy := (List.mem_filter.mp hy).2
  simp_all

end Lists

/-- What a walk leaves of a graph: its entry, its lists and its count. -/
theorem classify_eq_lists (g : Graph) : g.classify =
    { entry := g.entry
      nodes := (Array.range g.nodes.size).map fun n =>
        ⟨g.preds n, (g.succs n).map fun t => ⟨t, g.walk.kind n t⟩, g.walk.pre.getD n none,
          g.walk.number? n⟩
      rpo := g.walk.order
      edgeCount := g.edgeCount } := by
  have hnodes : g.classify.nodes = (Array.range g.nodes.size).map fun n =>
      ⟨g.preds n, (g.succs n).map fun t => ⟨t, g.walk.kind n t⟩, g.walk.pre.getD n none,
        g.walk.number? n⟩ := by
    apply Array.ext
    · simp
    · intro n hn _
      rw [size_classify] at hn
      simp [classify, preds, succs, edges, node, hn]
  rw [← hnodes]
  rfl

/-- The graphs differ at most in what walks have found. -/
structure Alike (g h : Graph) : Prop where
  entry : g.entry = h.entry
  size : g.nodes.size = h.nodes.size
  succs : g.succs = h.succs
  preds : g.preds = h.preds
  count : g.edgeCount = h.edgeCount

namespace Alike

variable {g h : Graph}

theorem addNode (hg : Alike g h) (n : Nat) : Alike (g.addNode n) (h.addNode n) := by
  constructor
  · exact hg.entry
  · simp [Graph.addNode, hg.size]
  · funext m
    simpa [Graph.succs, edges] using congrFun hg.succs m
  · funext m
    simpa [Graph.preds] using congrFun hg.preds m
  · exact hg.count

theorem addEdge (hg : Alike g h) (a b : Nat) : Alike (g.addEdge a b).1 (h.addEdge a b).1 := by
  by_cases hs : b ∈ g.succs a
  · rw [addEdge_of_mem hs, addEdge_of_mem (hg.succs ▸ hs)]
    exact hg.addNode (max a b)
  · have hs' : b ∉ h.succs a := hg.succs ▸ hs
    constructor
    · simpa using hg.entry
    · simpa [size_addEdge] using (hg.addNode (max a b)).size
    · funext m
      rw [succs_addEdge hs, succs_addEdge hs', hg.succs]
    · funext m
      rw [preds_addEdge hs, preds_addEdge hs', hg.preds]
    · rw [edgeCount_addEdge hs, edgeCount_addEdge hs', hg.count]

theorem classify (hg : Alike g h) : Alike g.classify h := by
  constructor
  · simpa using hg.entry
  · simpa using hg.size
  · simpa [funext_iff] using congrFun hg.succs
  · simpa [funext_iff] using congrFun hg.preds
  · exact hg.count

/-- A walk depends on nothing that an earlier walk found. -/
theorem classify_eq (hg : Alike g h) : g.classify = h.classify := by
  have hwalk : g.walk = h.walk := by simp only [walk, hg.succs, hg.size, hg.entry]
  rw [classify_eq_lists, classify_eq_lists, hwalk, hg.entry, hg.size, hg.succs, hg.preds, hg.count]

theorem apply (hg : Alike g h) (op : Operation) (ho : op ≠ .classify) :
    Alike (op.apply g) (op.apply h) := by
  cases op with
  | addNode n => exact hg.addNode n
  | addEdge a b => exact hg.addEdge a b
  | classify => exact absurd rfl ho

/-- Leaving out walks changes only what walks have found. -/
theorem replay (entry : Nat) (history : List Operation) :
    Alike (replay entry history) (Graph.replay entry (history.filter (· != .classify))) := by
  induction history using List.reverseRecOn with
  | nil => exact ⟨rfl, rfl, rfl, rfl, rfl⟩
  | append_singleton history op ih =>
    rw [replay_concat, List.filter_append]
    by_cases ho : op = .classify
    · subst ho
      simpa [Operation.apply] using ih.classify
    · have hlast : [op].filter (· != .classify) = [op] := by simp [ho]
      rw [hlast, replay_concat]
      exact ih.apply op ho

end Alike

/-- A graph keeps every edge once, in the order in which the edges came, and what it knows of them
is what its last walk has found. -/
theorem replay_lists (entry : Nat) (history : List Operation) :
    (∀ a b, a ∈ (replay entry history).preds b ↔ b ∈ (replay entry history).succs a) ∧
      (∀ n, ((replay entry history).preds n).Nodup ∧ ((replay entry history).succs n).Nodup) ∧
      (replay entry history).Lists (insertions history) ∧
      (∀ a b, ((replay entry history).addEdge a b).2 = true ↔ .addEdge a b ∉ history) ∧
      replay entry (history ++ [.classify]) =
        replay entry (history.filter (· != .classify) ++ [.classify]) := by
  have h := Lists.replay entry history
  have hes := nodup_insertions history
  refine ⟨fun a b => h.mem_preds.trans h.mem_succs.symm, fun n => ⟨h.nodup_preds hes n,
    h.nodup_succs hes n⟩, h, fun a b => ?_, ?_⟩
  · rw [addEdge_flag, h.mem_succs, mem_insertions]
  · rw [replay_concat, replay_concat]
    exact (Alike.replay entry history).classify_eq

end ScriptC.Graph
