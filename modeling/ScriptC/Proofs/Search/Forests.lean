import Mathlib.Data.Finset.Card
import Mathlib.Logic.Relation
import ScriptC.Graph.Walk

/-! # Forests of a walk

What a walk discovers from a list of nodes is a forest: each node that is still hidden becomes the
root of a tree, and the walk goes on below it before it turns to the next one. The order of discovery
and the order in which nodes finish together tell how two nodes of a forest are related.
-/

namespace ScriptC

/-- A tree, with the forest below its root, and the trees that come after it. -/
inductive Forest where
  | nil
  | tree (root : Nat) (inner outer : Forest)

namespace Forest

/-- The nodes in the order of their discovery. -/
def nodes : Forest → List Nat
  | nil => []
  | tree v inner outer => v :: (inner.nodes ++ outer.nodes)

/-- The nodes in the order in which they finish, the last one first. -/
def finished : Forest → List Nat
  | nil => []
  | tree v inner outer => outer.finished ++ v :: inner.finished

/-- The second node is in the tree below the first. -/
def Above : Forest → Nat → Nat → Prop
  | nil, _, _ => False
  | tree v inner outer, a, b => (a = v ∧ b ∈ inner.nodes) ∨ inner.Above a b ∨ outer.Above a b

/-- The first node finishes before the second is discovered. -/
def Before : Forest → Nat → Nat → Prop
  | nil, _, _ => False
  | tree v inner outer, a, b =>
    (a ∈ v :: inner.nodes ∧ b ∈ outer.nodes) ∨ inner.Before a b ∨ outer.Before a b

/-- The second node is discovered from the first. The roots are discovered from `parent`. -/
def Child : Option Nat → Forest → Nat → Nat → Prop
  | _, nil, _, _ => False
  | parent, tree v inner outer, a, b =>
    (parent = some a ∧ b = v) ∨ Child (some v) inner a b ∨ Child parent outer a b

variable {F : Forest} {a b : Nat} {parent : Option Nat}

theorem finished_perm (F : Forest) : F.finished.Perm F.nodes := by
  induction F with
  | nil => exact .refl _
  | tree v inner outer ihi iho =>
    calc outer.finished ++ v :: inner.finished
      _ |>.Perm (v :: inner.finished ++ outer.finished) := List.perm_append_comm
      _ |>.Perm (v :: (inner.nodes ++ outer.nodes)) := (ihi.append iho).cons v

theorem mem_finished : a ∈ F.finished ↔ a ∈ F.nodes := F.finished_perm.mem_iff

theorem sublist_inner {v : Nat} {inner outer : Forest} {xs ys : List Nat}
    (h : xs.Sublist inner.nodes ∧ ys.Sublist inner.finished) :
    xs.Sublist (tree v inner outer).nodes ∧ ys.Sublist (tree v inner outer).finished := by
  constructor
  · exact (h.1.trans (List.sublist_append_left _ _)).cons v
  · exact (h.2.cons v).trans (List.sublist_append_right _ _)

theorem sublist_outer {v : Nat} {inner outer : Forest} {xs ys : List Nat}
    (h : xs.Sublist outer.nodes ∧ ys.Sublist outer.finished) :
    xs.Sublist (tree v inner outer).nodes ∧ ys.Sublist (tree v inner outer).finished := by
  constructor
  · exact (h.1.trans (List.sublist_append_right _ _)).cons v
  · exact h.2.trans (List.sublist_append_left _ _)

theorem Above.sublist (h : F.Above a b) : [a, b].Sublist F.nodes ∧ [a, b].Sublist F.finished := by
  induction F with
  | nil => exact h.elim
  | tree v inner outer ihi iho =>
    rcases h with ⟨rfl, hb⟩ | h | h
    · have hb' := mem_finished.mpr hb
      constructor
      · exact (List.singleton_sublist.mpr (List.mem_append_left _ hb)).cons_cons a
      · exact ((List.singleton_sublist.mpr hb').cons_cons a).trans (List.sublist_append_right _ _)
    · exact sublist_inner (ihi h)
    · exact sublist_outer (iho h)

theorem Before.sublist (h : F.Before a b) : [a, b].Sublist F.nodes ∧ [b, a].Sublist F.finished := by
  induction F with
  | nil => exact h.elim
  | tree v inner outer ihi iho =>
    rcases h with ⟨ha, hb⟩ | h | h
    · have ha' : a ∈ v :: inner.finished := by simpa [mem_finished] using ha
      have hb' := mem_finished.mpr hb
      constructor
      · exact (List.singleton_sublist.mpr ha).append (List.singleton_sublist.mpr hb)
      · exact (List.singleton_sublist.mpr hb').append (List.singleton_sublist.mpr ha')
    · exact sublist_inner (ihi h)
    · exact sublist_outer (iho h)

/-- Of two nodes, one is above the other or finishes before the other is discovered. -/
theorem related (ha : a ∈ F.nodes) (hb : b ∈ F.nodes) :
    a = b ∨ F.Above a b ∨ F.Above b a ∨ F.Before a b ∨ F.Before b a := by
  induction F with
  | nil => cases ha
  | tree v inner outer ihi iho =>
    simp only [nodes, List.mem_cons, List.mem_append] at ha hb
    simp only [Above, Before, List.mem_cons]
    grind

theorem Child.mem (h : F.Child parent a b) : b ∈ F.nodes := by
  induction F generalizing parent with
  | nil => exact h.elim
  | tree v inner outer ihi iho =>
    rcases h with ⟨-, rfl⟩ | h | h
    · exact List.mem_cons_self
    · exact List.mem_cons_of_mem v (List.mem_append_left _ (ihi h))
    · exact List.mem_cons_of_mem v (List.mem_append_right _ (iho h))

theorem Child.above (h : F.Child parent a b) : parent = some a ∨ F.Above a b := by
  induction F generalizing parent with
  | nil => exact h.elim
  | tree v inner outer ihi iho =>
    rcases h with ⟨rfl, -⟩ | h | h
    · exact .inl rfl
    · refine .inr ?_
      rcases ihi h with hv | habove
      · exact .inl ⟨(Option.some.inj hv).symm, h.mem⟩
      · exact .inr (.inl habove)
    · exact (iho h).imp_right fun habove => .inr (.inr habove)

theorem child_inner_le (v : Nat) (inner outer : Forest) (parent : Option Nat) :
    inner.Child (some v) ≤ (tree v inner outer).Child parent :=
  fun _ _ h => .inr (.inl h)

theorem child_outer_le (v : Nat) (inner outer : Forest) (parent : Option Nat) :
    outer.Child parent ≤ (tree v inner outer).Child parent :=
  fun _ _ h => .inr (.inr h)

/-- From where the roots are discovered, steps to children lead to every node. -/
theorem transGen_child_of_mem (h : b ∈ F.nodes) :
    Relation.TransGen (F.Child (some a)) a b := by
  induction F generalizing a with
  | nil => cases h
  | tree v inner outer ihi iho =>
    rcases List.mem_cons.mp h with rfl | h
    · exact .single (.inl ⟨rfl, rfl⟩)
    · rcases List.mem_append.mp h with h | h
      · apply Relation.TransGen.head (.inl ⟨rfl, rfl⟩)
        exact Relation.TransGen.mono (child_inner_le v inner outer _) _ _ (ihi h)
      · exact Relation.TransGen.mono (child_outer_le v inner outer _) _ _ (iho h)

theorem Above.transGen_child (h : F.Above a b) (parent : Option Nat) :
    Relation.TransGen (F.Child parent) a b := by
  induction F generalizing parent with
  | nil => exact h.elim
  | tree v inner outer ihi iho =>
    rcases h with ⟨rfl, hb⟩ | h | h
    · exact Relation.TransGen.mono (child_inner_le _ inner outer _) _ _ (transGen_child_of_mem hb)
    · exact Relation.TransGen.mono (child_inner_le v inner outer _) _ _ (ihi h _)
    · exact Relation.TransGen.mono (child_outer_le v inner outer _) _ _ (iho h parent)

end Forest

namespace Walk

variable {succs : Nat → List Nat} {w w' : Walk} {vs : List Nat} {parent : Option Nat} {F : Forest}

theorem isFound_discover {v : Nat} (hv : v < w.pre.size) (parent : Option Nat) (x : Nat) :
    (w.discover v parent).isFound x = true ↔ w.isFound x = true ∨ x = v := by
  simp only [isFound, discover, Array.getD_eq_getD_getElem?, Array.getElem?_setIfInBounds]
  split
  · subst x
    simp [hv]
  · rename_i h
    simp [Ne.symm h]

theorem isFound_start (size n : Nat) : (start size).isFound n = false := by
  simp only [isFound, start, Array.getD_eq_getD_getElem?, Array.getElem?_replicate]
  split <;> rfl

/-- Going on from the nodes `vs`, which are met at `parent`, the walk discovers a forest. -/
inductive Traces (succs : Nat → List Nat) :
    Option Nat → List Nat → Walk → Forest → Walk → Prop
  | nil (parent : Option Nat) (w : Walk) : Traces succs parent [] w .nil w
  | known {parent : Option Nat} {v : Nat} {vs : List Nat} {w w' : Walk} {F : Forest} :
    w.isFound v = true → Traces succs parent vs w F w' → Traces succs parent (v :: vs) w F w'
  | branch {parent : Option Nat} {v : Nat} {vs : List Nat} {w w₁ w' : Walk}
    {inner outer : Forest} : v < w.pre.size → w.isFound v = false →
    Traces succs (some v) (succs v) (w.discover v parent) inner w₁ →
    Traces succs parent vs (w₁.finish v) outer w' →
    Traces succs parent (v :: vs) w (.tree v inner outer) w'

theorem Traces.eq_nil (h : Traces succs parent [] w F w') : F = .nil ∧ w' = w := by
  cases h
  exact ⟨rfl, rfl⟩

theorem Traces.size_eq (h : Traces succs parent vs w F w') : w'.pre.size = w.pre.size := by
  induction h with
  | nil => rfl
  | known _ _ ih => exact ih
  | branch _ _ _ _ ihi iho =>
    rw [iho, finish, ihi, discover, Array.size_setIfInBounds]

theorem Traces.isFound (h : Traces succs parent vs w F w') {x : Nat} (hx : w.isFound x = true) :
    w'.isFound x = true := by
  induction h with
  | nil => exact hx
  | known _ _ ih => exact ih hx
  | branch hv _ _ _ ihi iho => exact iho (ihi ((isFound_discover hv _ x).mpr (.inl hx)))

section Depth

/-- The nodes that the walk can still discover. -/
def hidden (w : Walk) : Finset Nat := {n ∈ Finset.range w.pre.size | w.isFound n = false}

theorem mem_hidden {n : Nat} : n ∈ w.hidden ↔ n < w.pre.size ∧ w.isFound n = false := by
  simp [hidden]

theorem Traces.card_hidden_le (h : Traces succs parent vs w F w') :
    w'.hidden.card ≤ w.hidden.card := by
  apply Finset.card_le_card
  intro x hx
  rw [mem_hidden, h.size_eq] at hx
  rw [mem_hidden]
  refine ⟨hx.1, Bool.eq_false_iff.mpr fun hf => ?_⟩
  exact Bool.eq_false_iff.mp hx.2 (h.isFound hf)

theorem card_hidden_discover {v : Nat} (hv : v < w.pre.size) (hf : w.isFound v = false)
    (parent : Option Nat) : (w.discover v parent).hidden.card < w.hidden.card := by
  apply Finset.card_lt_card
  refine Finset.ssubset_iff_subset_ne.mpr ⟨?_, ?_⟩
  · intro x hx
    rw [mem_hidden, Bool.eq_false_iff, Ne, isFound_discover hv] at hx
    rw [mem_hidden]
    simp only [discover, Array.size_setIfInBounds] at hx
    grind
  · intro h
    have hm : v ∈ w.hidden := mem_hidden.mpr ⟨hv, hf⟩
    rw [← h, mem_hidden, Bool.eq_false_iff, Ne, isFound_discover hv] at hm
    exact hm.2 (.inr rfl)

/-- The depth suffices as long as it is at least the number of nodes not yet discovered. -/
theorem exists_traces {size : Nat} (hsuccs : ∀ n, ∀ v ∈ succs n, v < size) (depth : Nat) :
    ∀ (parent : Option Nat) (vs : List Nat) (w : Walk), w.pre.size = size →
      (∀ v ∈ vs, v < size) → w.hidden.card ≤ depth →
      ∃ F, Traces succs parent vs w F (vs.foldl (fun w v =>
        if w.isFound v then w else visit succs depth v (w.discover v parent)) w) := by
  induction depth using Nat.strong_induction_on with
  | _ depth ihd =>
    intro parent vs
    induction vs with
    | nil => exact fun w _ _ _ => ⟨.nil, .nil parent w⟩
    | cons v vs ih =>
      intro w hw hvs hd
      have hvs' : ∀ x ∈ vs, x < size := fun x hx => hvs x (List.mem_cons_of_mem v hx)
      rw [List.foldl_cons]
      by_cases hv : w.isFound v = true
      · obtain ⟨F, h⟩ := ih w hw hvs' hd
        rw [if_pos hv]
        exact ⟨F, .known hv h⟩
      · have hlt : v < w.pre.size := hw ▸ hvs v List.mem_cons_self
        have hf : w.isFound v = false := Bool.eq_false_iff.mpr hv
        have hc := card_hidden_discover hlt hf parent
        -- `v` itself is hidden, so there is depth left to visit it
        obtain ⟨depth, rfl⟩ : ∃ d, depth = d + 1 := ⟨depth - 1, by omega⟩
        have hw' : (w.discover v parent).pre.size = size := by simp [discover, hw]
        obtain ⟨inner, hi⟩ := ihd depth (by omega) (some v) (succs v) (w.discover v parent) hw'
          (hsuccs v) (by omega)
        obtain ⟨outer, ho⟩ := ih (visit succs (depth + 1) v (w.discover v parent))
          (hi.size_eq.trans hw') hvs' (Nat.le_trans hi.card_hidden_le (by omega))
        rw [if_neg hv]
        exact ⟨_, .branch hlt hf hi ho⟩

end Depth

end Walk

end ScriptC
