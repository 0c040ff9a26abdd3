import ScriptC.Dominators
import ScriptC.Proofs.Dominance.Paths
import ScriptC.Proofs.Search.Forests

/-! # The order of a walk

A node finishes after everything that was discovered from it, so in the order of a walk each node
but the entry comes after one of its predecessors. The order holds the reachable nodes, each once.
-/

namespace ScriptC

namespace Walk

variable {succs : Nat → List Nat} {w w' : Walk}

/-- What the walk adds when it goes on from the nodes `vs`. -/
structure Adds (succs : Nat → List Nat) (w w' : Walk) (vs new : List Nat) : Prop where
  order_eq : w'.order = new ++ w.order
  isFound_iff : ∀ x, w'.isFound x = true ↔ w.isFound x = true ∨ x ∈ new
  hidden : ∀ x ∈ new, w.isFound x = false
  nodup : new.Nodup
  starts : ∀ v ∈ vs, w'.isFound v = true
  closed : ∀ x ∈ new, ∀ v ∈ succs x, w'.isFound v = true
  parents : ∀ l x l', new = l ++ x :: l' → x ∈ vs ∨ ∃ p ∈ l, x ∈ succs p
  size_eq : w'.pre.size = w.pre.size

theorem Adds.nil (w : Walk) : Adds succs w w [] [] := by
  constructor <;> simp

theorem Adds.known {vs new : List Nat} {v : Nat} (h : Adds succs w w' vs new)
    (hv : w.isFound v = true) : Adds succs w w' (v :: vs) new := by
  constructor
  · exact h.order_eq
  · exact h.isFound_iff
  · exact h.hidden
  · exact h.nodup
  · rintro x (_ | ⟨_, hx⟩)
    · exact (h.isFound_iff v).mpr (.inl hv)
    · exact h.starts x hx
  · exact h.closed
  · intro l x l' hl
    exact (h.parents l x l' hl).imp_left (List.mem_cons_of_mem v)
  · exact h.size_eq

/-- Discover `v`, go on from its successors, finish it, and go on from `vs`. -/
theorem Adds.branch {vs inner outer : List Nat} {v : Nat} {parent : Option Nat} {w₁ : Walk}
    (hsize : v < w.pre.size) (hv : w.isFound v = false)
    (hi : Adds succs (w.discover v parent) w₁ (succs v) inner)
    (ho : Adds succs (w₁.finish v) w' vs outer) :
    Adds succs w w' (v :: vs) (outer ++ v :: inner) := by
  have hfound (x : Nat) : (w₁.finish v).isFound x = true ↔
      w.isFound x = true ∨ x ∈ v :: inner := by
    rw [show (w₁.finish v).isFound x = w₁.isFound x from rfl, hi.isFound_iff,
      isFound_discover hsize, List.mem_cons]
    tauto
  have hw (x : Nat) : w'.isFound x = true ↔ w.isFound x = true ∨ x ∈ outer ++ v :: inner := by
    rw [ho.isFound_iff, hfound, List.mem_append]
    tauto
  have hlater {x : Nat} (hx : (w₁.finish v).isFound x = true) : w'.isFound x = true :=
    (ho.isFound_iff x).mpr (.inl hx)
  have hinner {x : Nat} (hx : x ∈ inner) : w.isFound x = false ∧ x ≠ v := by
    have := hi.hidden x hx
    rw [Bool.eq_false_iff, Ne, isFound_discover hsize] at this
    grind
  constructor
  · rw [ho.order_eq, finish, hi.order_eq]
    simp [discover]
  · exact hw
  · intro x hx
    rcases List.mem_append.mp hx with hx | hx
    · have := ho.hidden x hx
      rw [Bool.eq_false_iff, Ne, hfound] at this
      grind
    · rcases List.mem_cons.mp hx with rfl | hx
      · exact hv
      · exact (hinner hx).1
  · rw [List.nodup_append, List.nodup_cons]
    refine ⟨ho.nodup, ⟨fun h => (hinner h).2 rfl, hi.nodup⟩, ?_⟩
    rintro x hx _ hy rfl
    have := ho.hidden x hx
    rw [Bool.eq_false_iff, Ne, hfound] at this
    exact this (.inr hy)
  · rintro x (_ | ⟨_, hx⟩)
    · exact (hw v).mpr (.inr (by simp))
    · exact ho.starts x hx
  · intro x hx y hy
    rcases List.mem_append.mp hx with hx | hx
    · exact ho.closed x hx y hy
    · rcases List.mem_cons.mp hx with rfl | hx
      · exact hlater (hi.starts y hy)
      · exact hlater (hi.closed x hx y hy)
  · intro l x l' hl
    -- a node of `inner` was discovered from one before it there, or from `v`, which comes before
    rcases List.append_eq_append_iff.mp hl with ⟨t, rfl, ht⟩ | ⟨t, rfl, ht⟩
    · rcases List.cons_eq_append_iff.mp ht with ⟨rfl, ht⟩ | ⟨s, rfl, hs⟩
      · exact .inl (by simp [(List.cons.inj ht).1])
      · refine .inr ?_
        rcases hi.parents s x l' hs with hx | ⟨p, hp, hx⟩
        · exact ⟨v, by simp, hx⟩
        · exact ⟨p, by simp [hp], hx⟩
    · rcases List.cons_eq_append_iff.mp ht with ⟨rfl, ht⟩ | ⟨s, rfl, _⟩
      · exact .inl (by simp [(List.cons.inj ht).1])
      · exact (ho.parents l x s rfl).imp_left (List.mem_cons_of_mem v)
  · exact ho.size_eq.trans (hi.size_eq.trans (by simp [discover]))

/-- What is added to the order is the forest that the walk discovers. -/
theorem Traces.adds {parent : Option Nat} {vs : List Nat} {F : Forest}
    (h : Traces succs parent vs w F w') : Adds succs w w' vs F.finished := by
  induction h with
  | nil => exact .nil _
  | known hv _ ih => exact ih.known hv
  | branch hlt hv _ _ ihi iho => exact .branch hlt hv ihi iho

end Walk

namespace Graph

/-- The nodes of the graph are numbered in the order of a walk. -/
structure Ordered (g : Graph) : Prop extends g.Linked where
  nodup : g.rpo.Nodup
  mem_rpo : ∀ {n : Nat}, n ∈ g.rpo ↔ g.Reachable n
  head : ∃ rest, g.rpo = g.entry :: rest
  number : ∀ {n : Nat}, n < g.nodes.size → (g.node n).rpo = g.rpo.idxOf? n
  parents : ∀ l x l', g.rpo = l ++ x :: l' → x = g.entry ∨ ∃ p ∈ l, x ∈ g.succs p

variable {g : Graph}

/-- The walk discovers one tree, from the entry. -/
theorem Linked.exists_traces (hg : g.Linked) : ∃ F,
    Walk.Traces g.succs none [g.entry] (Walk.start g.nodes.size) (.tree g.entry F .nil) g.walk := by
  have hs : (Walk.start g.nodes.size).pre.size = g.nodes.size := by simp [Walk.start]
  have hc : (Walk.start g.nodes.size).hidden.card ≤ g.nodes.size := by
    rw [Walk.hidden, hs]
    exact Nat.le_trans (Finset.card_filter_le _ _) (by simp)
  obtain ⟨F, h⟩ := Walk.exists_traces (fun _ _ hv => hg.target_lt hv) g.nodes.size none [g.entry]
    (Walk.start g.nodes.size) hs (List.forall_mem_singleton.mpr hg.entry_lt) hc
  have hf := Walk.isFound_start g.nodes.size g.entry
  rw [List.foldl_cons, List.foldl_nil, if_neg (Bool.eq_false_iff.mp hf)] at h
  cases h with
  | known hv _ => exact absurd hv (Bool.eq_false_iff.mp hf)
  | branch hlt hv hi ho =>
    obtain ⟨rfl, hw⟩ := ho.eq_nil
    exact ⟨_, .branch hlt hv hi (hw ▸ .nil none _)⟩

theorem Linked.ordered_classify (hg : g.Linked) : g.classify.Ordered := by
  obtain ⟨F, ht⟩ := hg.exists_traces
  have h := ht.adds
  have horder : g.classify.rpo = g.entry :: F.finished := by
    show g.walk.order = _
    rw [h.order_eq]
    simp [Forest.finished, Walk.start]
  rw [show (Forest.tree g.entry F .nil).finished = g.classify.rpo from horder.symm] at h
  have hfound (x : Nat) : g.walk.isFound x = true ↔ x ∈ g.classify.rpo := by
    rw [h.isFound_iff, Walk.isFound_start]
    simp
  refine ⟨hg.classify, h.nodup, ?_, ⟨_, horder⟩, ?_, ?_⟩
  · intro n
    rw [reachable_classify]
    constructor
    · intro hn
      obtain ⟨l, l', hl⟩ := List.append_of_mem hn
      -- along the order, since a parent comes first
      induction hk : l.length using Nat.strong_induction_on generalizing n l l' with
      | _ k ih =>
        rcases h.parents l n l' hl with hx | ⟨p, hp, hx⟩
        · cases List.mem_singleton.mp hx
          exact .entry g
        · obtain ⟨l₁, l₂, rfl⟩ := List.append_of_mem hp
          have hp' : p ∈ g.classify.rpo := by simp [hl]
          refine Reachable.step (ih l₁.length ?_ hp' l₁ (l₂ ++ n :: l') ?_ rfl) hx
          · simp at hk
            omega
          · simpa using hl
    · rintro ⟨l, hl⟩
      induction hl with
      | entry => exact (hfound _).mp (h.starts _ List.mem_cons_self)
      | step _ hb ih => exact (hfound _).mp (h.closed _ ih _ hb)
  · intro n hn
    rw [node_classify g n (by simpa using hn), Walk.number?]
    rfl
  · intro l x l' hl
    simpa using h.parents l x l' hl

section Positions

open Dominators

variable {n m : Nat}

theorem Ordered.lt_size (hg : g.Ordered) (hn : g.Reachable n) : n < g.nodes.size := by
  obtain ⟨l, hl⟩ := hn
  cases hl with
  | entry => exact hg.entry_lt
  | step _ hb => exact hg.target_lt hb

theorem Ordered.position_eq (hg : g.Ordered) (hn : g.Reachable n) :
    position g n = g.rpo.idxOf n := by
  obtain ⟨k, hk⟩ := Option.isSome_iff_exists.mp (List.isSome_idxOf?.mpr (hg.mem_rpo.mpr hn))
  rw [position, hg.number (hg.lt_size hn), List.idxOf_eq_getD_idxOf?, hk]
  rfl

theorem Ordered.position_entry (hg : g.Ordered) : position g g.entry = 0 := by
  obtain ⟨rest, hr⟩ := hg.head
  rw [hg.position_eq (.entry g), hr, List.idxOf_cons_self]

theorem Ordered.position_inj (hg : g.Ordered) (hn : g.Reachable n) (hm : g.Reachable m)
    (h : position g n = position g m) : n = m := by
  rw [hg.position_eq hn, hg.position_eq hm] at h
  exact (List.idxOf_inj (hg.mem_rpo.mpr hn)).mp h

theorem Ordered.length_rpo_le (hg : g.Ordered) : g.rpo.length ≤ g.nodes.size := by
  have hsub : g.rpo.toFinset ⊆ Finset.range g.nodes.size := by
    intro x hx
    exact Finset.mem_range.mpr (hg.lt_size (hg.mem_rpo.mp (List.mem_toFinset.mp hx)))
  rw [← List.toFinset_card_of_nodup hg.nodup]
  simpa using Finset.card_le_card hsub

theorem Ordered.position_lt (hg : g.Ordered) (hn : g.Reachable n) :
    position g n < g.nodes.size := by
  rw [hg.position_eq hn]
  exact Nat.lt_of_lt_of_le (List.idxOf_lt_length_of_mem (hg.mem_rpo.mpr hn)) hg.length_rpo_le

/-- The order lists the nodes by position. -/
theorem Ordered.pairwise_rpo (hg : g.Ordered) :
    g.rpo.Pairwise fun a b => position g a < position g b := by
  rw [List.pairwise_iff_getElem]
  intro i j hi hj hij
  have hp (k : Nat) (hk : k < g.rpo.length) : position g g.rpo[k] = k := by
    rw [hg.position_eq (hg.mem_rpo.mp (List.getElem_mem hk)), hg.nodup.idxOf_getElem]
  rwa [hp i hi, hp j hj]

/-- All nodes but the entry have a predecessor that comes before them. -/
theorem Ordered.exists_parent (hg : g.Ordered) (hn : g.Reachable n) (hne : n ≠ g.entry) :
    ∃ p ∈ g.preds n, g.Reachable p ∧ position g p < position g n := by
  obtain ⟨l, l', hl⟩ := List.append_of_mem (hg.mem_rpo.mpr hn)
  rcases hg.parents l n l' hl with rfl | ⟨p, hp, hs⟩
  · exact absurd rfl hne
  · have hpw := hg.pairwise_rpo
    rw [hl, List.pairwise_append] at hpw
    refine ⟨p, hg.mem_preds.mpr hs, hg.mem_rpo.mp (by simp [hl, hp]), ?_⟩
    exact hpw.2.2 p hp n List.mem_cons_self

/-- A path that only goes forward leads to every reachable node. -/
theorem Ordered.exists_forward_path (hg : g.Ordered) (hn : g.Reachable n) :
    ∃ l, g.PathTo n l ∧ ∀ x ∈ l, position g x ≤ position g n ∧ g.Reachable x := by
  induction hk : position g n using Nat.strong_induction_on generalizing n with
  | _ k ih =>
    by_cases hne : n = g.entry
    · subst n
      refine ⟨_, .entry, ?_⟩
      rintro x (_ | ⟨_, ⟨⟩⟩)
      exact ⟨hk.le, hn⟩
    · obtain ⟨p, hp, hr, hlt⟩ := hg.exists_parent hn hne
      obtain ⟨l, hl, hle⟩ := ih _ (hk ▸ hlt) hr rfl
      refine ⟨n :: l, hl.step (hg.mem_preds.mp hp), ?_⟩
      rintro x (_ | ⟨_, hx⟩)
      · exact ⟨hk.le, hn⟩
      · exact ⟨by have := hle x hx; omega, (hle x hx).2⟩

theorem Ordered.position_le_of_dominates (hg : g.Ordered) {d : Nat} (hn : g.Reachable n)
    (h : g.Dominates d n) : position g d ≤ position g n ∧ g.Reachable d := by
  obtain ⟨l, hl, hle⟩ := hg.exists_forward_path hn
  exact hle d (h l hl)

end Positions

end Graph

end ScriptC
