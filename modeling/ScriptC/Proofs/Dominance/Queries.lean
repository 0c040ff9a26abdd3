import Mathlib.Logic.Relation
import ScriptC.Proofs.Dominance.Exactness

/-! # Queries of dominator trees

A query climbs the chain of a node until it finds what it looks for or can climb no further. Chains
go to earlier and earlier nodes, so every query ends. A finished tree answers with the dominators of
a node that can be reached, and knows of any other node only that it is on its own chain.
-/

namespace ScriptC

namespace Graph

/-- Walked since the last edge was added. -/
inductive Classified : Graph → Prop
  | classify {g : Graph} : g.Built → Classified g.classify
  | addNode {g : Graph} (n : Nat) : Classified g → Classified (g.addNode n)

variable {g : Graph}

theorem pathTo_addNode {n m : Nat} {l : List Nat} : (g.addNode n).PathTo m l ↔ g.PathTo m l := by
  have hs (a : Nat) : (g.addNode n).succs a = g.succs a := by rw [succs, edges, node_addNode]; rfl
  constructor
  · intro h
    induction h with
    | entry => exact .entry (g := g)
    | step _ hb ih => exact ih.step (hs _ ▸ hb)
  · intro h
    induction h with
    | entry => exact .entry (g := g.addNode n)
    | step _ hb ih => exact ih.step (hs _ ▸ hb)

theorem Ordered.addNode (hg : g.Ordered) (n : Nat) : (g.addNode n).Ordered := by
  refine ⟨hg.toLinked.addNode n, hg.nodup, fun {m} => ?_, hg.head, fun {m} _ => ?_, ?_⟩
  · exact hg.mem_rpo.trans (exists_congr fun _ => pathTo_addNode.symm)
  · rw [node_addNode]
    rcases Nat.lt_or_ge m g.nodes.size with hm | hm
    · exact hg.number hm
    · rw [node_of_size_le g hm, eq_comm, List.idxOf?_eq_none_iff]
      exact fun hin => absurd (hg.lt_size (hg.mem_rpo.mp hin)) (Nat.not_lt.mpr hm)
  · intro l x l' hl
    simp only [succs, edges, node_addNode]
    exact hg.parents l x l' hl

theorem Classified.ordered (hg : g.Classified) : g.Ordered := by
  induction hg with
  | classify hg => exact hg.linked.ordered_classify
  | addNode n _ ih => exact ih.addNode n

end Graph

namespace Dominators

variable {g : Graph} {t : Dominators} {a n m p : Nat}

/-- The search for `a` up the chain of a node, however long it takes. -/
inductive Search (t : Dominators) (a : Nat) : Nat → Bool → Prop
  | here : Search t a a true
  | up {n d : Nat} {found : Bool} : n ≠ a → t.idom? n = some d → d ≠ n → Search t a d found →
      Search t a n found
  | stop {n : Nat} : n ≠ a → (∀ d, t.idom? n = some d → d = n) → Search t a n false

section Searching

variable (hi : Sound g t.idom)
include hi

theorem Sound.ne_entry {d : Nat} (hd : t.idom? n = some d) (hne : d ≠ n) : n ≠ g.entry := by
  rintro rfl
  exact hne (Option.some.inj (hd.symm.trans hi.entry))

/-- As many steps as the position of the node are enough. -/
theorem search_onChain (a : Nat) {steps : Nat} (hn : Known t.idom n → position g n ≤ steps) :
    Search t a n (t.onChain a steps n) := by
  induction steps generalizing n with
  | zero =>
    by_cases hna : n = a
    · subst hna
      rw [onChain, beq_self_eq_true]
      exact .here
    · rw [onChain, beq_false_of_ne hna]
      refine .stop hna fun d hd => ?_
      by_contra hne
      have hlt := hi.descends hd (hi.ne_entry hd hne)
      have := hn (Option.isSome_iff_exists.mpr ⟨d, hd⟩)
      omega
  | succ steps ih =>
    by_cases hna : n = a
    · subst hna
      rw [onChain, beq_self_eq_true, Bool.true_or]
      exact .here
    · rw [onChain, beq_false_of_ne hna, Bool.false_or]
      cases hd : t.idom? n with
      | none => exact .stop hna (by simp [hd])
      | some d =>
        dsimp only
        by_cases hne : d = n
        · rw [hne, bne_self_eq_false, Bool.false_and]
          exact .stop hna (by simp [hd, hne])
        · have hlt := hi.descends hd (hi.ne_entry hd hne)
          have := hn (Option.isSome_iff_exists.mpr ⟨d, hd⟩)
          rw [bne_iff_ne.mpr hne, Bool.true_and]
          exact .up hna hd hne (ih fun _ => by omega)

/-- A search finds what the chain passes through. -/
theorem Search.eq_true_iff {found : Bool} (h : Search t a n found) :
    found = true ↔ Above g t.idom n a := by
  induction h with
  | here => exact iff_of_true rfl (.refl a)
  | @up n d _ hna hd hne _ ih =>
    rw [ih]
    constructor
    · exact .up hd (hi.ne_entry hd hne)
    · exact fun h => ((h.cases_up hd).resolve_left (Ne.symm hna)).2
  | @stop n hna hstop =>
    refine iff_of_false Bool.false_ne_true ?_
    rintro (_ | ⟨hd, hentry, _⟩)
    · exact hna rfl
    · have hlt := hi.descends hd hentry
      rw [hstop _ hd] at hlt
      exact Nat.lt_irrefl _ hlt

end Searching

theorem mem_children : m ∈ t.children p ↔ t.idom? m = some p ∧ m ≠ p := by
  have hlt (h : t.idom? m = some p) : m < t.idom.size := by
    by_contra hge
    rw [idom?, Array.getD_eq_getD_getElem?, Array.getElem?_eq_none (Nat.le_of_not_lt hge)] at h
    cases h
  simpa [children] using fun h _ => hlt h

/-- From the entry the children lead to everything that can be reached. -/
theorem Settled.reaches (hi : Settled g t.idom) (hn : g.Reachable n) :
    Relation.ReflTransGen (fun p m => m ∈ t.children p) g.entry n := by
  induction hk : position g n using Nat.strong_induction_on generalizing n with
  | _ k ih =>
    by_cases hne : n = g.entry
    · rw [hne]
    · have hup := hi.getD_up hn
      have hlt := hi.descends hup hne
      have hr := hi.reachable (hi.known hup hne)
      refine (ih _ (hk ▸ hlt) hr rfl).tail (mem_children.mpr ⟨hup, ?_⟩)
      intro heq
      rw [← heq] at hlt
      exact Nat.lt_irrefl _ hlt

/-- Every query ends. For a node that can be reached it tells the dominators from the other nodes,
and for any other node it tells the node itself. The children lead from the entry to each node that
can be reached, on one way only, and to nothing else. -/
theorem compute_queries (hg : g.Classified) :
    (∀ a b, Search (compute g) a b ((compute g).dominates a b)) ∧
      (∀ a b, g.Reachable b → ((compute g).dominates a b = true ↔ g.Dominates a b)) ∧
      (∀ a b, ¬ g.Reachable b → ((compute g).dominates a b = true ↔ a = b)) ∧
      (∀ b, g.nodes.size ≤ b → ¬ g.Reachable b) ∧
      (∀ n, Relation.ReflTransGen (fun p m => m ∈ (compute g).children p) g.entry n ↔
        g.Reachable n) ∧
      (∀ p, (compute g).children p ≠ [] → g.Reachable p) ∧
      (∀ p, ((compute g).children p).Nodup) ∧ (∀ p, g.entry ∉ (compute g).children p) ∧
      ∀ n, g.Reachable n → n ≠ g.entry → ∃! p, n ∈ (compute g).children p := by
  have ho := hg.ordered
  obtain ⟨-, hi, hr⟩ := exists_compute ho
  have hsearch (a b : Nat) : Search (compute g) a b ((compute g).dominates a b) := by
    refine search_onChain hi.toSound a fun hk => ?_
    rw [hi.size_eq]
    exact (ho.position_lt (hi.reachable hk)).le
  have hchild {p m : Nat} (h : m ∈ (compute g).children p) :
      m ≠ g.entry ∧ g.Reachable p ∧ g.Reachable m := by
    obtain ⟨hd, hne⟩ := mem_children.mp h
    have hentry := hi.ne_entry hd (Ne.symm hne)
    exact ⟨hentry, hi.reachable (hi.known hd hentry),
      hi.reachable (Option.isSome_iff_exists.mpr ⟨p, hd⟩)⟩
  refine ⟨hsearch, fun a b hb => ?_, fun a b hb => ?_, fun b hb h => ?_, fun n => ?_, fun p hp => ?_,
    fun p => ?_, fun p hp => (hchild hp).1 rfl, fun n hn hne => ?_⟩
  · rw [(hsearch a b).eq_true_iff hi.toSound]
    exact ⟨hr.dominates ho, above_of_dominates hi.toSound (hi.total hb)⟩
  · rw [(hsearch a b).eq_true_iff hi.toSound]
    constructor
    · rintro (_ | ⟨hd, _, _⟩)
      · rfl
      · exact absurd (hi.reachable (Option.isSome_iff_exists.mpr ⟨_, hd⟩)) hb
    · rintro rfl
      exact .refl a
  · exact absurd (ho.lt_size h) (Nat.not_lt.mpr hb)
  · refine ⟨fun h => ?_, hi.reaches⟩
    induction h with
    | refl => exact .entry g
    | tail _ h _ => exact (hchild h).2.2
  · obtain ⟨m, hm⟩ := List.exists_mem_of_ne_nil _ hp
    exact (hchild hm).2.1
  · exact List.nodup_range.filter _
  · obtain hroot | ⟨p, -, hp⟩ := (hi.reaches hn).cases_tail
    · exact absurd hroot hne
    · refine ⟨p, hp, fun q hq => ?_⟩
      have heq := (mem_children.mp hq).1.symm.trans (mem_children.mp hp).1
      exact Option.some.inj heq

/-- A node is added after the walk. Neither it nor the one that nothing leads to is in the tree. -/
theorem twoEntries_queries : (twoEntries.classify.addNode 6).Classified ∧
    (twoEntries.classify.addNode 6).Dominates 3 4 ∧
    ¬ (twoEntries.classify.addNode 6).Dominates 1 3 ∧
    ¬ (twoEntries.classify.addNode 6).Reachable 5 ∧
    (compute (twoEntries.classify.addNode 6)).dominates 0 6 = false ∧
    (compute (twoEntries.classify.addNode 6)).children 0 = [1, 2, 3] := by
  have hg : (twoEntries.classify.addNode 6).Classified := by
    refine .addNode 6 (.classify ?_)
    repeat' apply Graph.Built.addEdge
    exact .new 0
  have htree : compute (twoEntries.classify.addNode 6) =
      ⟨0, #[some 0, some 0, some 0, some 0, some 3, none, none]⟩ := by decide +kernel
  have hentry : (twoEntries.classify.addNode 6).entry = 0 := by decide +kernel
  obtain ⟨-, hdom, hself, -, hreach, hpar, -⟩ := compute_queries hg
  rw [htree, hentry] at *
  have hthree := (hreach 3).mp (.single (by decide))
  have hfour := (hreach 4).mp (.tail (.single (b := 3) (by decide)) (by decide))
  refine ⟨hg, (hdom 3 4 hfour).mp (by decide), fun h => ?_, fun h => ?_, by decide, by decide⟩
  · exact absurd ((hdom 1 3 hthree).mpr h) (by decide)
  · have hmem := (hreach 5).mpr h
    obtain hroot | ⟨p, -, hp⟩ := hmem.cases_tail
    · cases hroot
    · exact absurd (mem_children.mp hp).1 (by simp [idom?])

end Dominators

end ScriptC
