import ScriptC.Proofs.Search.Kinds

/-! # Reverse postorder

After a walk the nodes that can be reached stand in an order that begins with the entry and that only
backward edges run against. Each of them knows its place there, and the numbers of their discovery are
the same numbers in another order.
-/

namespace ScriptC.Graph

variable {g : Graph} {F : Forest} {a b n : Nat}

namespace Grows

theorem idxOf_rpo (h : g.Grows F) (hn : n ∈ F.nodes) :
    g.classify.rpo.idxOf n = F.finished.idxOf n := by
  have hnumber : g.classify.rpo.idxOf? n = some (F.finished.idxOf n) := h.number_eq n hn
  rw [List.idxOf_eq_getD_idxOf?, hnumber, Option.getD_some]

theorem pre_classify (h : g.Grows F) (hn : n ∈ F.nodes) (hlt : n < g.nodes.size) :
    (g.classify.node n).pre = some (F.nodes.idxOf n) := by
  rw [node_classify g n hlt]
  exact h.pre_eq n hn

/-- An edge that does not go back leads to a node that finishes earlier. -/
theorem finished_lt (h : g.Grows F) (ha : a ∈ F.nodes) (hb : b ∈ F.nodes) (hs : b ∈ g.succs a)
    (hk : g.walk.kind a b ≠ .backward) : F.finished.idxOf a < F.finished.idxOf b := by
  have hup : ¬ (b = a ∨ F.Above b a) := by
    intro hup
    by_cases htree : g.walk.kind a b = .tree
    · have hdown := ((h.kind_eq_tree_iff ha hb).mp htree).above.resolve_left (by simp)
      have hlt := ((Forest.above_iff h.nodup ha hb).mp hdown).1
      rcases hup with rfl | hup
      · exact Nat.lt_irrefl _ hlt
      · exact Nat.lt_asymm hlt ((Forest.above_iff h.nodup hb ha).mp hup).1
    · exact hk ((h.kind_iff ha hb htree).1.mpr hup)
  have hlt {a b : Nat} (hab : [a, b].Sublist F.finished) :=
    idxOf_lt_of_sublist hab (Forest.finished_nodup h.nodup)
  rcases Forest.related ha hb with rfl | hr | hr | hr | hr
  · exact absurd (.inl rfl) hup
  · exact hlt hr.sublist.2
  · exact absurd (.inr hr) hup
  · exact absurd hs (h.before a b hr)
  · exact hlt hr.sublist.2

end Grows

/-- The walk lists the nodes that can be reached, each once and the entry first, so that only
backward edges lead to a node that is listed no later. Places in the list and numbers of discovery
are noted at the nodes, and no other node has either. -/
theorem classify_reversePostorder (hg : g.Built) :
    g.classify.rpo.Nodup ∧ (∀ n, n ∈ g.classify.rpo ↔ g.Reachable n) ∧
      g.classify.rpo.head? = some g.entry ∧
      (∀ n, (g.classify.node n).rpo = g.classify.rpo.idxOf? n) ∧
      (∀ n, (g.classify.node n).rpo = none ↔ ¬ g.Reachable n) ∧
      (∀ n, n ∈ g.classify.unreachable ↔ n < g.nodes.size ∧ ¬ g.Reachable n) ∧
      (g.classify.rpo.map fun n => (g.classify.node n).pre).Perm
        ((List.range g.classify.rpo.length).map some) ∧
      (∀ n, (g.classify.node n).pre = none ↔ ¬ g.Reachable n) ∧
      ∀ a, g.Reachable a → ∀ e ∈ g.classify.edges a, e.kind ≠ .backward →
        g.classify.rpo.idxOf a < g.classify.rpo.idxOf e.target := by
  obtain ⟨F, h⟩ := hg.linked.exists_grows
  have ho := hg.linked.ordered_classify
  have hmem (n : Nat) : n ∈ g.classify.rpo ↔ g.Reachable n := ho.mem_rpo.trans reachable_classify
  have hlt {n : Nat} (hn : g.Reachable n) : n < g.nodes.size := by
    simpa using ho.lt_size (reachable_classify.mpr hn)
  have hnumber (n : Nat) : (g.classify.node n).rpo = g.classify.rpo.idxOf? n := by
    rcases Nat.lt_or_ge n g.nodes.size with hn | hn
    · exact ho.number (by simpa using hn)
    · rw [node_of_size_le g.classify (by simpa using hn), eq_comm, List.idxOf?_eq_none_iff, hmem]
      exact fun hr => absurd (hlt hr) (Nat.not_lt.mpr hn)
  have hnone (n : Nat) : (g.classify.node n).rpo = none ↔ ¬ g.Reachable n := by
    rw [hnumber, List.idxOf?_eq_none_iff, hmem]
  refine ⟨ho.nodup, hmem, ?_, hnumber, hnone, ?_, ?_, ?_, ?_⟩
  · obtain ⟨rest, hr⟩ := ho.head
    rw [hr]
    rfl
  · intro n
    simp [unreachable, isReachable, hnone]
  · have hperm : g.classify.rpo.Perm F.nodes :=
      (List.perm_ext_iff_of_nodup ho.nodup h.nodup).mpr fun n => (hmem n).trans (h.mem_nodes n).symm
    have hpre : F.nodes.map (fun n => (g.classify.node n).pre) =
        (List.range F.nodes.length).map some := by
      refine List.ext_getElem (by simp) fun i hi _ => ?_
      have hi : i < F.nodes.length := by simpa using hi
      have hin := List.getElem_mem hi
      rw [List.getElem_map, h.pre_classify hin (hlt ((h.mem_nodes _).mp hin)), h.nodup.idxOf_getElem,
        List.getElem_map, List.getElem_range]
    rw [hperm.length_eq, ← hpre]
    exact hperm.map _
  · intro n
    rw [← h.mem_nodes]
    constructor
    · intro hn hin
      rw [h.pre_classify hin (hlt ((h.mem_nodes n).mp hin))] at hn
      cases hn
    · intro hn
      rcases Nat.lt_or_ge n g.nodes.size with hsize | hsize
      · rw [node_classify g n hsize]
        exact h.pre_eq_none n hn
      · rw [node_of_size_le g.classify (by simpa using hsize)]
  · intro a ha e he hk
    obtain ⟨hs, hkind⟩ := mem_edges_classify.mp he
    have hina := (h.mem_nodes a).mpr ha
    have hinb := (h.mem_nodes e.target).mpr (ha.step hs)
    rw [h.idxOf_rpo hina, h.idxOf_rpo hinb]
    exact h.finished_lt hina hinb hs (hkind ▸ hk)

/-- Only the node that nothing leads to is missing. -/
theorem allKinds_reversePostorder : allKinds.Built ∧ allKinds.classify.rpo = [0, 3, 1, 2] ∧
    (∀ n, allKinds.Reachable n ↔ n ∈ [0, 3, 1, 2]) ∧ ¬ allKinds.Reachable 4 := by
  have hg : allKinds.Built := by
    repeat' apply Built.addEdge
    exact .new 0
  have hrpo : allKinds.classify.rpo = [0, 3, 1, 2] := by decide +kernel
  obtain ⟨-, hmem, -, -, hnone, -⟩ := classify_reversePostorder hg
  exact ⟨hg, hrpo, fun n => hrpo ▸ (hmem n).symm, (hnone 4).mp (by decide +kernel)⟩

end ScriptC.Graph
