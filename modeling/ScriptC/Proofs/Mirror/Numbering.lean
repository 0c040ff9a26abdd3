import Mathlib.Data.List.Sort
import ScriptC.Compilation
import ScriptC.Proofs.Regularity.Trees

/-! # Numbering of procs

Procs get their numbers as lowering enters their functions. A walk over the procs from the root,
parents first and children in order, therefore meets them in the order of their numbers, each once.
-/

namespace ScriptC

namespace Module

/-- Procs stand at their numbers, and all between a proc and its parent are below the parent. -/
structure Numbered (m : Module) : Prop where
  ids : ∀ (i : Nat) (p : Proc), m.procs[i]? = some p → p.id = i
  orphan : ∀ (i : Nat) (p : Proc), m.procs[i]? = some p → p.parent = none → i = 0
  order : ∀ (i q : Nat) (p : Proc), m.procs[i]? = some p → p.parent = some q → q < i ∧
    ∀ (j : Nat) (p' : Proc), q < j → j < i → m.procs[j]? = some p' →
      ∃ q', p'.parent = some q' ∧ q ≤ q'

theorem Populated.numbered {m : Module} {symbols : SymbolTable} {main : Function}
    {openings : List Opening} {placements : List Placement}
    (h : m.Populated symbols main openings placements) : m.Numbered :=
  ⟨h.assigned.ids, h.assigned.orphan, h.assigned.order⟩

/-- The second proc is the first or is nested in it, at any depth. -/
inductive Below (m : Module) : Nat → Nat → Prop
  | refl (p : Nat) : m.Below p p
  | step {p q j : Nat} : m.Below p q → j ∈ m.children q → m.Below p j

namespace Numbered

variable {m : Module} {i j p q d x : Nat}

theorem mem_children (h : m.Numbered) :
    j ∈ m.children q ↔ ∃ p, m.procs[j]? = some p ∧ p.parent = some q := by
  unfold children
  simp only [List.mem_map, List.mem_filter, Array.mem_toList_iff, beq_iff_eq]
  constructor
  · rintro ⟨p, ⟨hp, hparent⟩, rfl⟩
    obtain ⟨i, hi⟩ := Array.mem_iff_getElem?.mp hp
    exact ⟨p, h.ids i p hi ▸ hi, hparent⟩
  · rintro ⟨p, hp, hparent⟩
    exact ⟨p, ⟨Array.mem_of_getElem? hp, hparent⟩, h.ids j p hp⟩

/-- Children are listed by their numbers. -/
theorem children_sorted (h : m.Numbered) (q : Nat) : (m.children q).Pairwise (· < ·) := by
  have hids : m.procs.toList.map (·.id) = List.range m.procs.size := by
    refine List.ext_getElem (by simp) fun i hi _ => ?_
    have hlt : i < m.procs.size := by simpa using hi
    simpa using h.ids i _ (Array.getElem?_eq_getElem hlt)
  have hsorted := List.pairwise_lt_range (n := m.procs.size)
  rw [← hids] at hsorted
  exact hsorted.sublist (List.filter_sublist.map _)

theorem lt_of_mem_children (h : m.Numbered) (hj : j ∈ m.children q) : q < j := by
  obtain ⟨p, hp, hparent⟩ := h.mem_children.mp hj
  exact (h.order j q p hp hparent).1

theorem le_of_below (h : m.Numbered) (hx : m.Below p x) : p ≤ x := by
  induction hx with
  | refl => exact Nat.le_refl _
  | step _ hj ih => exact Nat.le_trans ih (Nat.le_of_lt (h.lt_of_mem_children hj))

/-- What is below a child comes before the next child. -/
theorem lt_of_below_sibling (h : m.Numbered) {c c' : Nat} (hc : c ∈ m.children p)
    (hc' : c' ∈ m.children p) (hlt : c < c') (hx : m.Below c x) : x < c' := by
  obtain ⟨r', hr', hparent'⟩ := h.mem_children.mp hc'
  induction hx with
  | refl => exact hlt
  | @step q j hq hj ih =>
    have hle : p < q := Nat.lt_of_lt_of_le (h.lt_of_mem_children hc) (h.le_of_below hq)
    obtain ⟨r, hr, hparent⟩ := h.mem_children.mp hj
    -- Were `c'` between `j` and its parent `q`, its own parent would not come before `q`.
    rcases Nat.lt_trichotomy j c' with hj' | rfl | hj'
    · exact hj'
    · cases hr.symm.trans hr'
      cases hparent.symm.trans hparent'
      omega
    · obtain ⟨p', hp', hqp⟩ := (h.order j q r hr hparent).2 c' r' ih hj' hr'
      cases hparent'.symm.trans hp'
      omega

theorem below_of_mem_preorder (hx : x ∈ m.preorder d p) : m.Below p x := by
  have htrans {a b y : Nat} (hab : b ∈ m.children a) (hy : m.Below b y) : m.Below a y := by
    induction hy with
    | refl => exact .step (.refl a) hab
    | step _ hj ih => exact .step ih hj
  induction d generalizing p with
  | zero =>
    cases List.mem_singleton.mp hx
    exact .refl x
  | succ d ih =>
    rcases List.mem_cons.mp hx with rfl | hx
    · exact .refl x
    · obtain ⟨c, hc, hx⟩ := List.mem_flatMap.mp hx
      exact htrans hc (ih hx)

theorem preorder_sorted (h : m.Numbered) (d p : Nat) : (m.preorder d p).Pairwise (· < ·) := by
  induction d generalizing p with
  | zero => exact List.pairwise_singleton _ p
  | succ d ih =>
    refine List.pairwise_cons.mpr ⟨fun x hx => ?_, List.pairwise_flatMap.mpr ⟨fun c _ => ih c, ?_⟩⟩
    · obtain ⟨c, hc, hx⟩ := List.mem_flatMap.mp hx
      exact Nat.lt_of_lt_of_le (h.lt_of_mem_children hc) (h.le_of_below (below_of_mem_preorder hx))
    · refine (h.children_sorted p).imp_of_mem fun {c c'} hc hc' hlt x hx y hy => ?_
      have hx := h.lt_of_below_sibling hc hc' hlt (below_of_mem_preorder hx)
      exact Nat.lt_of_lt_of_le hx (h.le_of_below (below_of_mem_preorder hy))

theorem mem_preorder_of_mem_children (hq : q ∈ m.preorder d p) (hj : j ∈ m.children q) :
    j ∈ m.preorder (d + 1) p := by
  have hself (d j : Nat) : j ∈ m.preorder d j := by cases d <;> exact List.mem_cons_self
  induction d generalizing p with
  | zero =>
    cases List.mem_singleton.mp hq
    exact List.mem_cons_of_mem _ (List.mem_flatMap_of_mem hj (hself 0 j))
  | succ d ih =>
    rcases List.mem_cons.mp hq with rfl | hq
    · exact List.mem_cons_of_mem _ (List.mem_flatMap_of_mem hj (hself (d + 1) j))
    · obtain ⟨c, hc, hq⟩ := List.mem_flatMap.mp hq
      exact List.mem_cons_of_mem _ (List.mem_flatMap_of_mem hc (ih hq))

theorem mem_preorder (h : m.Numbered) (hx : x < m.procs.size) (hd : x ≤ d) :
    x ∈ m.preorder d 0 := by
  induction x using Nat.strongRecOn generalizing d with
  | ind x ih =>
    have hp : m.procs[x]? = some m.procs[x] := Array.getElem?_eq_getElem hx
    cases hq : m.procs[x].parent with
    | none =>
      cases h.orphan x _ hp hq
      cases d <;> exact List.mem_cons_self
    | some q =>
      have hlt := (h.order x q _ hp hq).1
      obtain ⟨d, rfl⟩ : ∃ d', d = d' + 1 := ⟨d - 1, by omega⟩
      have hmem := ih q hlt (Nat.lt_trans hlt hx) (by omega : q ≤ d)
      exact mem_preorder_of_mem_children hmem (h.mem_children.mpr ⟨_, hp, hq⟩)

/-- The walk from the root meets the procs in the order of their numbers. -/
theorem preorder_eq_range (h : m.Numbered) (h0 : 0 < m.procs.size) :
    m.preorder m.procs.size 0 = List.range m.procs.size := by
  refine (h.preorder_sorted _ _).eq_of_mem_iff List.pairwise_lt_range fun x => ?_
  rw [List.mem_range]
  constructor
  · exact lt_size_of_mem_preorder h.ids h0 x
  · exact fun hx => h.mem_preorder hx (Nat.le_of_lt hx)

end Numbered

end Module

section Flow

/-- The flow of control is no part of the code. -/
theorem Proc.Finished.withFlow {p : Proc} {symbols : SymbolTable} {f : Function}
    (h : p.Finished symbols f) (flow : Option Flow) : Finished symbols f { p with flow } where
  code i hi o ho := (h.code i hi o ho).mono (Nat.le_refl _) fun kind => by
    cases kind <;> exact Nat.le_refl _
  exit_empty := h.exit_empty
  listed := h.listed.of_eq rfl rfl
  agrees := by
    obtain ⟨C, c, ha⟩ := h.agrees
    exact ⟨C, c, ha.of_code rfl rfl (fun _ _ hk => hk) (Nat.le_refl _)⟩
  constants := h.constants
  temps := h.temps.of_pool_eq (by funext kind; cases kind <;> rfl)
  locals_free := h.locals_free

namespace Module.Populated

variable {m : Module} {symbols : SymbolTable} {main : Function} {placements : List Placement}

theorem withFlow (h : m.Populated symbols main [] placements) (id : Nat) (flow : Option Flow) :
    Populated ⟨m.procs.modify id fun p => { p with flow }⟩ symbols main [] placements := by
  have hprocs {i : Nat} {p : Proc} (hp : (m.procs.modify id fun p => { p with flow })[i]? = some p) :
      ∃ q flow, m.procs[i]? = some q ∧ p = { q with flow } := by
    rw [Array.getElem?_modify] at hp
    split at hp
    · obtain ⟨q, hq, rfl⟩ := Option.map_eq_some_iff.mp hp
      exact ⟨q, flow, hq, rfl⟩
    · exact ⟨p, p.flow, hp, rfl⟩
  constructor
  · constructor
    · rw [Array.size_modify]
      exact h.assigned.length_eq
    · exact h.assigned.root
    · intro i p hp
      obtain ⟨q, flow, hq, rfl⟩ := hprocs hp
      exact h.assigned.ids i q hq
    · intro i p hp
      obtain ⟨q, flow, hq, rfl⟩ := hprocs hp
      exact h.assigned.orphan i q hq
    · intro i k p outer inner hp
      obtain ⟨q, flow, hq, rfl⟩ := hprocs hp
      exact h.assigned.nested i k q outer inner hq
    · intro i k p hp hk
      obtain ⟨q, flow, hq, rfl⟩ := hprocs hp
      obtain ⟨hlt, hbetween⟩ := h.assigned.order i k q hq hk
      refine ⟨hlt, fun j p' hj hji hp' => ?_⟩
      obtain ⟨q', flow', hq', rfl⟩ := hprocs hp'
      exact hbetween j q' hj hji hq'
    · intro i p inner hp hinner _
      obtain ⟨q, flow, hq, rfl⟩ := hprocs hp
      obtain ⟨hhead, hrest⟩ := h.assigned.header i q inner hq hinner List.not_mem_nil
      exact ⟨⟨hhead.name_eq, hhead.params_eq, hhead.isVararg_eq⟩, hrest⟩
    · exact nofun
    · exact nofun
  · exact nofun
  · exact nofun
  · intro i p pl hp hpl
    obtain ⟨q, flow, hq, rfl⟩ := hprocs hp
    exact (h.finished i q pl hq hpl).withFlow flow

end Module.Populated

theorem Tree.populated_of_analyse {t : Tree} {stats : Stats} {m : Module}
    (h : (t.analyse stats).2 = .ok m) : ∃ placements, m.Populated t.symbols t.main [] placements :=
  of_analyse (M := fun m => ∃ placements, m.Populated t.symbols t.main [] placements)
    (fun _ id flow hm => hm.imp fun _ hp => hp.withFlow id flow) (fun _ => populated_of_lower) h

end Flow

end ScriptC
