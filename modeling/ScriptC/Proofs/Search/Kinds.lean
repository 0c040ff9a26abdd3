import ScriptC.Proofs.Dominance.Orders

/-! # Kinds of edges

The tree edges of a classified graph lead from the entry to every node that can be reached, along one
way each. Any other edge out of such a node goes back to an ancestor, forward to a descendant, or
across to a node of another subtree, and its kind says which.
-/

namespace ScriptC

theorem idxOf_lt_of_sublist {l : List Nat} {a b : Nat} (h : [a, b].Sublist l) (hl : l.Nodup) :
    l.idxOf a < l.idxOf b := by
  have hpw : l.Pairwise fun a b => l.idxOf a < l.idxOf b := by
    rw [List.pairwise_iff_getElem]
    intro i j hi hj hij
    rwa [hl.idxOf_getElem, hl.idxOf_getElem]
  exact List.pairwise_iff_forall_sublist.mp hpw h

namespace Forest

variable {F : Forest} {a b c : Nat}

theorem finished_nodup (h : F.nodes.Nodup) : F.finished.Nodup := F.finished_perm.nodup_iff.mpr h

/-- A node above another is discovered before it and finishes after it. -/
theorem above_iff (h : F.nodes.Nodup) (ha : a ∈ F.nodes) (hb : b ∈ F.nodes) :
    F.Above a b ↔ F.nodes.idxOf a < F.nodes.idxOf b ∧ F.finished.idxOf a < F.finished.idxOf b := by
  constructor
  · intro hab
    obtain ⟨hn, hf⟩ := hab.sublist
    exact ⟨idxOf_lt_of_sublist hn h, idxOf_lt_of_sublist hf (finished_nodup h)⟩
  · rintro ⟨hn, hf⟩
    rcases related ha hb with rfl | hr | hr | hr | hr
    · omega
    · exact hr
    all_goals
      have hn' := idxOf_lt_of_sublist hr.sublist.1 h
      have hf' := idxOf_lt_of_sublist hr.sublist.2 (finished_nodup h)
      omega

theorem Above.mem (h : F.Above a b) : a ∈ F.nodes ∧ b ∈ F.nodes := by
  constructor <;> apply h.sublist.1.subset <;> simp

theorem Above.trans (h : F.nodes.Nodup) (hab : F.Above a b) (hbc : F.Above b c) : F.Above a c := by
  obtain ⟨ha, hb⟩ := hab.mem
  obtain ⟨-, hc⟩ := hbc.mem
  obtain ⟨hn, hf⟩ := (above_iff h ha hb).mp hab
  obtain ⟨hn', hf'⟩ := (above_iff h hb hc).mp hbc
  exact (above_iff h ha hc).mpr ⟨by omega, by omega⟩

/-- The nodes above another are those from which steps to children lead to it. -/
theorem above_iff_transGen (h : F.nodes.Nodup) :
    F.Above a b ↔ Relation.TransGen (F.Child none) a b := by
  have hchild {a b : Nat} (hab : F.Child none a b) : F.Above a b :=
    hab.above.resolve_left (by simp)
  constructor
  · intro hab
    exact hab.transGen_child none
  · intro hab
    induction hab with
    | single hab => exact hchild hab
    | tail _ hbc ih => exact ih.trans h (hchild hbc)

end Forest

namespace Walk

variable {succs : Nat → List Nat} {w w' : Walk} {vs : List Nat} {parent : Option Nat} {F : Forest}

/-- What the walk notes of the nodes of a forest as it discovers them. -/
structure Records (parent : Option Nat) (w w' : Walk) (F : Forest) : Prop where
  size_eq : w'.parent.size = w.parent.size
  keeps : ∀ x, w.isFound x = true →
    w'.pre.getD x none = w.pre.getD x none ∧ w'.parent.getD x none = w.parent.getD x none
  found_eq : w'.found = w.found + F.nodes.length
  numbers : F.nodes.map (w'.pre.getD · none) = (List.range' w.found F.nodes.length).map some
  parents : ∀ b ∈ F.nodes, ∀ a, w'.parent.getD b none = some a ↔ F.Child parent a b

theorem pre_discover (hv : v < w.pre.size) (x : Nat) :
    (w.discover v parent).pre.getD x none = if x = v then some w.found else w.pre.getD x none := by
  simp only [discover, Array.getD_eq_getD_getElem?, Array.getElem?_setIfInBounds]
  grind

theorem parent_discover (hv : v < w.parent.size) (x : Nat) :
    (w.discover v parent).parent.getD x none = if x = v then parent else w.parent.getD x none := by
  simp only [discover, Array.getD_eq_getD_getElem?, Array.getElem?_setIfInBounds]
  grind

theorem Traces.isFound_iff (h : Traces succs parent vs w F w') (x : Nat) :
    w'.isFound x = true ↔ w.isFound x = true ∨ x ∈ F.nodes := by
  rw [h.adds.isFound_iff, Forest.mem_finished]

theorem Traces.nodup (h : Traces succs parent vs w F w') : F.nodes.Nodup :=
  F.finished_perm.nodup_iff.mp h.adds.nodup

theorem Traces.records (h : Traces succs parent vs w F w') (hs : w.parent.size = w.pre.size) :
    Records parent w w' F := by
  induction h with
  | nil => exact ⟨rfl, fun _ _ => ⟨rfl, rfl⟩, rfl, rfl, by simp [Forest.nodes]⟩
  | known _ _ ih =>
    obtain ⟨hsize, hkeeps, hfound, hnumbers, hparents⟩ := ih hs
    exact ⟨hsize, hkeeps, hfound, hnumbers, hparents⟩
  | @branch parent v vs w w₁ w' inner outer hv hf hi ho ihi iho =>
    have hv' : v < w.parent.size := hs ▸ hv
    have hri := ihi (by simp [discover, hs])
    have hs₁ : (w₁.finish v).parent.size = (w₁.finish v).pre.size := by
      change w₁.parent.size = w₁.pre.size
      rw [hri.size_eq, hi.size_eq]
      simp [discover, hs]
    have hro := iho hs₁
    have hnodup := (Traces.branch hv hf hi ho).nodup
    -- once found, a node keeps what was noted of it
    have hfound (x : Nat) (hx : x ∈ v :: inner.nodes) : w₁.isFound x = true := by
      rw [hi.isFound_iff, isFound_discover hv]
      grind
    have hlater (x : Nat) (hx : x ∈ v :: inner.nodes) :
        w'.pre.getD x none = w₁.pre.getD x none ∧ w'.parent.getD x none = w₁.parent.getD x none :=
      hro.keeps x (hfound x hx)
    have hroot := hri.keeps v ((isFound_discover hv parent v).mpr (.inr rfl))
    rw [pre_discover hv, parent_discover hv', if_pos rfl, if_pos rfl] at hroot
    constructor
    · rw [hro.size_eq, finish, hri.size_eq, discover, Array.size_setIfInBounds]
    · intro x hx
      have hne : x ≠ v := by
        rintro rfl
        rw [hf] at hx
        cases hx
      have hd := (isFound_discover hv parent x).mpr (.inl hx)
      have h₁ := hri.keeps x hd
      have h₂ := hro.keeps x (hi.isFound hd)
      rw [pre_discover hv, parent_discover hv', if_neg hne, if_neg hne] at h₁
      exact ⟨h₂.1.trans h₁.1, h₂.2.trans h₁.2⟩
    · have hroom : w₁.found = w.found + 1 + inner.nodes.length := hri.found_eq
      rw [hro.found_eq, finish, hroom, Forest.nodes, List.length_cons, List.length_append]
      omega
    · have hroom : w₁.found = w.found + 1 + inner.nodes.length := hri.found_eq
      have hpre : inner.nodes.map (w'.pre.getD · none) = inner.nodes.map (w₁.pre.getD · none) := by
        apply List.map_congr_left
        intro x hx
        exact (hlater x (List.mem_cons_of_mem v hx)).1
      rw [Forest.nodes, List.map_cons, List.map_append, hpre, hri.numbers, hro.numbers,
        (hlater v List.mem_cons_self).1.trans hroot.1, List.length_cons, List.length_append,
        List.range'_succ, List.map_cons, ← List.range'_append_1, List.map_append]
      change _ :: (_ ++ (List.range' w₁.found _).map some) = _
      rw [hroom]
      rfl
    · intro b hb a
      simp only [Forest.nodes, List.nodup_cons, List.mem_append, List.nodup_append, not_or] at hnodup
      simp only [Forest.nodes, List.mem_cons, List.mem_append] at hb
      obtain ⟨⟨hvi, hvo⟩, -, -, hdisjoint⟩ := hnodup
      have hi' (h : inner.Child (some v) a b) := h.mem
      have ho' (h : outer.Child parent a b) := h.mem
      rcases hb with rfl | hb | hb
      · rw [(hlater b List.mem_cons_self).2, hroot.2, Forest.Child]
        tauto
      · rw [(hlater b (List.mem_cons_of_mem v hb)).2, hri.parents b hb a, Forest.Child]
        grind
      · rw [hro.parents b hb a, Forest.Child]
        grind

/-- A node is discovered along an edge. -/
theorem Traces.child_mem (h : Traces succs parent vs w F w') {a b : Nat} (hc : F.Child parent a b) :
    (parent = some a ∧ b ∈ vs) ∨ b ∈ succs a := by
  induction h with
  | nil => exact hc.elim
  | known _ _ ih => exact (ih hc).imp_left fun hb => ⟨hb.1, List.mem_cons_of_mem _ hb.2⟩
  | branch _ _ _ _ ihi iho =>
    rcases hc with ⟨rfl, rfl⟩ | hc | hc
    · exact .inl ⟨rfl, List.mem_cons_self⟩
    · rcases ihi hc with ⟨hv, hb⟩ | hb
      · exact .inr (Option.some.inj hv ▸ hb)
      · exact .inr hb
    · exact (iho hc).imp_left fun hb => ⟨hb.1, List.mem_cons_of_mem _ hb.2⟩

/-- No edge leads from a node that has finished to one that is discovered later. -/
theorem Traces.not_mem_of_before (h : Traces succs parent vs w F w') {a b : Nat}
    (hab : F.Before a b) : b ∉ succs a := by
  induction h with
  | nil => exact hab.elim
  | known _ _ ih => exact ih hab
  | @branch parent v vs w w₁ w' inner outer hv hf hi ho ihi iho =>
    rcases hab with ⟨ha, hb⟩ | hab | hab
    · intro hs
      -- all that `a` leads to was found before the walk came to `outer`
      have hfound : w₁.isFound b = true := by
        rcases List.mem_cons.mp ha with rfl | ha
        · exact hi.adds.starts b hs
        · exact hi.adds.closed a (Forest.mem_finished.mpr ha) b hs
      have hhidden := ho.adds.hidden b (Forest.mem_finished.mpr hb)
      exact absurd hfound (Bool.eq_false_iff.mp hhidden)
    · exact ihi hab
    · exact iho hab

end Walk

namespace Graph

variable {g : Graph} {F : Forest} {a b n : Nat}

/-- The walk over the graph discovers this tree. -/
structure Grows (g : Graph) (F : Forest) : Prop where
  nodup : F.nodes.Nodup
  mem_nodes : ∀ n, n ∈ F.nodes ↔ g.Reachable n
  pre_eq_none : ∀ n, n ∉ F.nodes → g.walk.pre.getD n none = none
  pre_eq : ∀ n ∈ F.nodes, g.walk.pre.getD n none = some (F.nodes.idxOf n)
  number_eq : ∀ n ∈ F.nodes, g.walk.number? n = some (F.finished.idxOf n)
  parents : ∀ b ∈ F.nodes, ∀ a, g.walk.parent.getD b none = some a ↔ F.Child none a b
  child_mem : ∀ a b, F.Child none a b → b ∈ g.succs a
  before : ∀ a b, F.Before a b → b ∉ g.succs a
  below : ∀ n ∈ F.nodes, n = g.entry ∨ F.Above g.entry n

theorem Linked.exists_grows (hg : g.Linked) : ∃ F, g.Grows F := by
  obtain ⟨inner, h⟩ := hg.exists_traces
  have hr := h.records (by simp [Walk.start])
  have horder : g.walk.order = (Forest.tree g.entry inner .nil).finished := by
    rw [h.adds.order_eq]
    exact List.append_nil _
  have hbelow : ∀ n ∈ (Forest.tree g.entry inner .nil).nodes,
      n = g.entry ∨ (Forest.tree g.entry inner .nil).Above g.entry n := by
    intro n hn
    rcases List.mem_cons.mp hn with rfl | hn
    · exact .inl rfl
    · exact .inr (.inl ⟨rfl, by simpa [Forest.nodes] using hn⟩)
  generalize Forest.tree g.entry inner .nil = F at h hr horder hbelow
  refine ⟨F, ?_⟩
  constructor
  · exact h.nodup
  · intro n
    have hmem := hg.ordered_classify.mem_rpo (n := n)
    rw [reachable_classify] at hmem
    rw [← hmem, ← Forest.mem_finished, ← horder]
    rfl
  · intro n hn
    rw [← Option.not_isSome_iff_eq_none]
    intro hf
    rcases (h.isFound_iff n).mp hf with hf | hf
    · rw [Walk.isFound_start] at hf
      cases hf
    · exact hn hf
  · intro n hn
    have hlt := List.idxOf_lt_length_of_mem hn
    have hat := congrArg (·[F.nodes.idxOf n]?) hr.numbers
    simp only [List.getElem?_map, List.getElem?_eq_getElem hlt, List.getElem_idxOf,
      List.getElem?_range' hlt, Option.map_some, Option.some.injEq] at hat
    simpa [Walk.start] using hat
  · intro n hn
    rw [Walk.number?, horder]
    have hmem := Forest.mem_finished.mpr hn
    obtain ⟨k, hk⟩ := Option.isSome_iff_exists.mp (List.isSome_idxOf?.mpr hmem)
    rw [hk, List.idxOf_eq_getD_idxOf?, hk, Option.getD_some]
  · exact hr.parents
  · intro a b hab
    rcases h.child_mem hab with ⟨hnone, -⟩ | hb
    · cases hnone
    · exact hb
  · exact fun a b hab => h.not_mem_of_before hab
  · exact hbelow

namespace Grows

theorem kind_eq_tree_iff (h : g.Grows F) (ha : a ∈ F.nodes) (hb : b ∈ F.nodes) :
    g.walk.kind a b = .tree ↔ F.Child none a b := by
  rw [← h.parents b hb a, Walk.kind, h.pre_eq a ha, h.pre_eq b hb, h.number_eq a ha,
    h.number_eq b hb]
  dsimp only
  grind

/-- An edge that is no tree edge has the kind that the places of its ends in the tree call for. -/
theorem kind_iff (h : g.Grows F) (ha : a ∈ F.nodes) (hb : b ∈ F.nodes)
    (hne : g.walk.kind a b ≠ .tree) :
    (g.walk.kind a b = .backward ↔ b = a ∨ F.Above b a) ∧
      (g.walk.kind a b = .forward ↔ F.Above a b) ∧
      (g.walk.kind a b = .cross ↔ ¬ (b = a ∨ F.Above b a) ∧ ¬ F.Above a b) := by
  have hparent : g.walk.parent.getD b none ≠ some a := by
    intro hp
    exact hne ((h.kind_eq_tree_iff ha hb).mpr ((h.parents b hb a).mp hp))
  have heq : b = a ↔ F.nodes.idxOf b = F.nodes.idxOf a := (List.idxOf_inj hb).symm
  have heq' : b = a ↔ F.finished.idxOf b = F.finished.idxOf a :=
    (List.idxOf_inj (Forest.mem_finished.mpr hb)).symm
  rw [Forest.above_iff h.nodup ha hb, Forest.above_iff h.nodup hb ha, Walk.kind, h.pre_eq a ha,
    h.pre_eq b hb, h.number_eq a ha, h.number_eq b hb]
  dsimp only
  rw [if_neg hparent]
  grind

end Grows

/-- The target was discovered along the edge. -/
def TreeEdge (g : Graph) (a b : Nat) : Prop := ⟨b, .tree⟩ ∈ g.edges a

/-- The tree edges form a tree of the nodes that can be reached, with the entry as its root. -/
structure SpansTree (g : Graph) : Prop where
  source : ∀ a b, g.TreeEdge a b → g.Reachable a
  root : ∀ a, ¬ g.TreeEdge a g.entry
  unique : ∀ a b n, g.TreeEdge a n → g.TreeEdge b n → a = b
  spans : ∀ n, Relation.ReflTransGen g.TreeEdge g.entry n ↔ g.Reachable n

theorem mem_edges_classify {e : Edge} :
    e ∈ g.classify.edges a ↔ e.target ∈ g.succs a ∧ e.kind = g.walk.kind a e.target := by
  rcases Nat.lt_or_ge a g.nodes.size with ha | ha
  · rw [edges, node_classify g a ha, succs, edges]
    simp only [List.mem_map]
    constructor
    · rintro ⟨d, hd, rfl⟩
      exact ⟨⟨d, hd, rfl⟩, rfl⟩
    · rintro ⟨⟨d, hd, htarget⟩, hkind⟩
      refine ⟨d, hd, ?_⟩
      rw [htarget, ← hkind]
  · rw [edges, succs, edges, node_of_size_le g ha, node_of_size_le g.classify (by simpa using ha)]
    simp

namespace Grows

variable (h : g.Grows F)
include h

theorem treeEdge_iff : g.classify.TreeEdge a b ↔ F.Child none a b := by
  rw [TreeEdge, mem_edges_classify]
  constructor
  · rintro ⟨hb, hkind⟩
    have ha : a ∈ F.nodes := by
      by_contra ha
      rw [Walk.kind, h.pre_eq_none a ha] at hkind
      cases hkind
    have hb' : b ∈ F.nodes := (h.mem_nodes b).mpr (((h.mem_nodes a).mp ha).step hb)
    exact (h.kind_eq_tree_iff ha hb').mp hkind.symm
  · intro hc
    obtain ⟨ha, hb⟩ := (hc.above.resolve_left (by simp)).mem
    exact ⟨h.child_mem a b hc, ((h.kind_eq_tree_iff ha hb).mpr hc).symm⟩

theorem transGen_iff : Relation.TransGen g.classify.TreeEdge a b ↔ F.Above a b := by
  have hedge : g.classify.TreeEdge = F.Child none := by
    ext a b
    exact h.treeEdge_iff
  rw [hedge, Forest.above_iff_transGen h.nodup]

theorem reflTransGen_iff :
    Relation.ReflTransGen g.classify.TreeEdge a b ↔ b = a ∨ F.Above a b := by
  rw [Relation.reflTransGen_iff_eq_or_transGen, h.transGen_iff]

theorem spansTree : g.classify.SpansTree := by
  have habove {a b : Nat} (hab : g.classify.TreeEdge a b) : F.Above a b :=
    h.transGen_iff.mp (.single hab)
  constructor
  · intro a b hab
    rw [reachable_classify, ← h.mem_nodes]
    exact (habove hab).mem.1
  · intro a hroot
    -- the entry is above its parent as well, so it would be above itself
    have hup := habove hroot
    rcases h.below a hup.mem.1 with rfl | hdown
    · exact absurd ((Forest.above_iff h.nodup hup.mem.1 hup.mem.1).mp hup).1 (Nat.lt_irrefl _)
    · have hself := hdown.trans h.nodup hup
      exact absurd ((Forest.above_iff h.nodup hself.mem.1 hself.mem.1).mp hself).1
        (Nat.lt_irrefl _)
  · intro a b n ha hb
    have hn := (habove ha).mem.2
    have hpa := (h.parents n hn a).mpr (h.treeEdge_iff.mp ha)
    have hpb := (h.parents n hn b).mpr (h.treeEdge_iff.mp hb)
    exact Option.some.inj (hpa.symm.trans hpb)
  · intro n
    rw [reachable_classify, ← h.mem_nodes, entry_classify, h.reflTransGen_iff]
    constructor
    · rintro (rfl | hn)
      · exact (h.mem_nodes _).mpr (.entry g)
      · exact hn.mem.2
    · exact h.below n

end Grows

theorem edgeKind?_classify {e : Edge} (he : e ∈ g.classify.edges a) :
    g.classify.edgeKind? a e.target = some e.kind := by
  rw [edgeKind?, Option.map_eq_some_iff]
  cases hf : (g.classify.edges a).find? (·.target == e.target) with
  | none =>
    have := List.find?_eq_none.mp hf e he
    simp at this
  | some d =>
    have htarget : d.target = e.target := by simpa using List.find?_some hf
    have hd := (mem_edges_classify.mp (List.mem_of_find?_eq_some hf)).2
    have he := (mem_edges_classify.mp he).2
    exact ⟨d, rfl, by rw [hd, he, htarget]⟩

/-- A walk tells of every edge exactly what it is to the tree of the nodes that were discovered. -/
theorem classify_exact (hg : g.Built) :
    g.classify.entry = g.entry ∧ (∀ a, g.classify.succs a = g.succs a) ∧
      g.classify.SpansTree ∧
      ∀ a, ∀ e ∈ g.classify.edges a, g.classify.edgeKind? a e.target = some e.kind ∧
        (¬ g.Reachable a → e.kind = .unclassified) ∧
        (g.Reachable a → e.kind ≠ .tree →
          (e.kind = .backward ↔ Relation.ReflTransGen g.classify.TreeEdge e.target a) ∧
          (e.kind = .forward ↔ Relation.TransGen g.classify.TreeEdge a e.target) ∧
          (e.kind = .cross ↔ ¬ Relation.ReflTransGen g.classify.TreeEdge e.target a ∧
            ¬ Relation.ReflTransGen g.classify.TreeEdge a e.target)) := by
  obtain ⟨F, h⟩ := hg.linked.exists_grows
  refine ⟨entry_classify g, succs_classify g, h.spansTree, fun a e he => ⟨edgeKind?_classify he, ?_, ?_⟩⟩
  · intro hr
    rw [(mem_edges_classify.mp he).2, Walk.kind, h.pre_eq_none a (mt (h.mem_nodes a).mp hr)]
  · intro hr hne
    obtain ⟨ht, hkind⟩ := mem_edges_classify.mp he
    have ha := (h.mem_nodes a).mpr hr
    have hb := (h.mem_nodes e.target).mpr (hr.step ht)
    rw [hkind] at hne ⊢
    obtain ⟨hback, hforward, hcross⟩ := h.kind_iff ha hb hne
    rw [h.reflTransGen_iff, h.reflTransGen_iff, h.transGen_iff, hback, hforward, hcross,
      eq_comm (a := a)]
    tauto

/-- Edges of all kinds, with one that leaves a node nothing leads to. -/
def allKinds : Graph :=
  [(0, 1), (1, 2), (0, 3), (3, 2), (2, 0), (0, 2), (3, 3), (4, 2)].foldl
    (fun g (a, b) => (g.addEdge a b).1) (Graph.new 0)

theorem allKinds_exact : allKinds.Built ∧ ¬ allKinds.Reachable 4 ∧
    Relation.ReflTransGen allKinds.classify.TreeEdge 0 2 ∧
    Relation.TransGen allKinds.classify.TreeEdge 0 2 ∧
    ¬ Relation.ReflTransGen allKinds.classify.TreeEdge 3 2 := by
  have hg : allKinds.Built := by
    repeat' apply Built.addEdge
    exact .new 0
  obtain ⟨-, -, htree, hkinds⟩ := classify_exact hg
  have hfour : ⟨2, .unclassified⟩ ∈ allKinds.classify.edges 4 := by decide +kernel
  have hback : ⟨0, .backward⟩ ∈ allKinds.classify.edges 2 := by decide +kernel
  have hforward : ⟨2, .forward⟩ ∈ allKinds.classify.edges 0 := by decide +kernel
  have hcross : ⟨2, .cross⟩ ∈ allKinds.classify.edges 3 := by decide +kernel
  have hentry : allKinds.classify.entry = 0 := by decide +kernel
  have hreach (n : Nat) (hn : Relation.ReflTransGen allKinds.classify.TreeEdge 0 n) :
      allKinds.Reachable n :=
    reachable_classify.mp ((htree.spans n).mp (hentry ▸ hn))
  have h01 : allKinds.classify.TreeEdge 0 1 := by unfold TreeEdge; decide +kernel
  have h12 : allKinds.classify.TreeEdge 1 2 := by unfold TreeEdge; decide +kernel
  have h03 : allKinds.classify.TreeEdge 0 3 := by unfold TreeEdge; decide +kernel
  have htwo := hreach 2 (.tail (.single h01) h12)
  refine ⟨hg, ?_, ?_, ?_, ?_⟩
  · intro hr
    obtain ⟨hb, hf, hc⟩ := (hkinds 4 _ hfour).2.2 hr (by decide)
    have hb := mt hb.mpr (by decide)
    have hf := mt hf.mpr (by decide)
    refine absurd (hc.mpr ⟨hb, fun h => ?_⟩) (by decide)
    rcases Relation.reflTransGen_iff_eq_or_transGen.mp h with he | h
    · cases he
    · exact hf h
  · exact ((hkinds 2 _ hback).2.2 htwo (by decide)).1.mp rfl
  · exact ((hkinds 0 _ hforward).2.2 (hreach 0 .refl) (by decide)).2.1.mp rfl
  · exact (((hkinds 3 _ hcross).2.2 (hreach 3 (.single h03)) (by decide)).2.2.mp rfl).2

end Graph

end ScriptC
