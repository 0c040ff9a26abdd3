import ScriptC.Proofs.Calls.Trees

/-! # Blocks of trees

Lowering a tree keeps the block discipline throughout, so every proc of the result has it.
-/

namespace ScriptC

namespace Proc

variable {p : Proc} {b : Nat}

theorem lastInstr?_eq (h : ∀ i ∈ p.ids b, i < p.instrs.size) :
    p.lastInstr? b = (p.blockInstrs b).getLast? := by
  change (p.ids b).getLast?.bind (p.instrs[·]?) = ((p.ids b).filterMap (p.instrs[·]?)).getLast?
  rcases List.eq_nil_or_concat (p.ids b) with hb | ⟨start, last, hb⟩
  · simp [hb]
  · have hlast : last < p.instrs.size := h last (by simp [hb])
    simp [hb, hlast]

namespace BlockDiscipline

/-- The flow of control does not matter. -/
theorem withFlow (h : p.BlockDiscipline) (flow : Option Flow) :
    BlockDiscipline { p with flow } where
  ids_lt := h.ids_lt
  exit_lt := h.exit_lt
  exit_empty := h.exit_empty
  ends := h.ends
  targets := h.targets

theorem successors_ok (h : p.BlockDiscipline) (hb : b < p.blocks.size) (he : b ≠ exitBlock) :
    ∃ targets, p.successors b = .ok targets := by
  obtain ⟨start, last, hi, ht, -⟩ := h.ends b hb he
  have hl : p.lastInstr? b = some last := by simp [lastInstr?_eq (h.ids_lt b), hi]
  have hmem : last ∈ p.instrs := mem_of_mem_blockInstrs (b := b) (by simp [hi])
  have htargets := h.targets last hmem
  simp only [successors, hl]
  unfold Instr.TargetsWithin at htargets
  split at htargets <;> rename_i ho
  · obtain ⟨a, -, ha⟩ := htargets
    exact ⟨[a], by simp [ho, ha, Operand.block?]⟩
  · obtain ⟨a, -, c, -, hac⟩ := htargets
    exact ⟨[a, c], by simp [ho, hac, Operand.block?]⟩
  · exact ⟨[exitBlock], by simp [ho]⟩
  · unfold Opcode.isTerminator at ht
    split at ht <;> simp_all

theorem transfers_ok (h : p.BlockDiscipline) : ∃ edges, p.transfers = .ok edges := by
  have hmap : ∀ bs : List Nat, (∀ b ∈ bs, b < p.blocks.size ∧ b ≠ exitBlock) →
      ∃ edges, bs.mapM (fun b => return (← p.successors b).map fun t => (b, t)) = .ok edges := by
    intro bs hbs
    induction bs with
    | nil => exact ⟨[], rfl⟩
    | cons b bs ih =>
      obtain ⟨hb, hrest⟩ := List.forall_mem_cons.mp hbs
      obtain ⟨targets, ht⟩ := h.successors_ok hb.1 hb.2
      obtain ⟨edges, he⟩ := ih hrest
      exact ⟨_, by rw [List.mapM_cons, ht, he]; rfl⟩
  obtain ⟨edges, he⟩ := hmap ((List.range p.blocks.size).filter (· != exitBlock)) (by simp)
  exact ⟨edges.flatten, by rw [transfers, he]; rfl⟩

theorem analyse_ok (h : p.BlockDiscipline) : ∃ flow, p.analyse = .ok flow := by
  obtain ⟨edges, he⟩ := h.transfers_ok
  simp [analyse, graph, he, bind, Except.bind, pure, Except.pure]

end BlockDiscipline

end Proc

namespace Module

variable {m : Module} {n root : Nat}

/-- Children are numbered by their place among the procs. -/
theorem lt_size_of_mem_preorder (h : ∀ (i : Nat) (p : Proc), m.procs[i]? = some p → p.id = i)
    (hroot : root < m.procs.size) : ∀ x ∈ m.preorder n root, x < m.procs.size := by
  induction n generalizing root with
  | zero => simpa [preorder] using hroot
  | succ n ih =>
    intro x hx
    rcases List.mem_cons.mp hx with rfl | hx
    · exact hroot
    · obtain ⟨c, hc, hx⟩ := List.mem_flatMap.mp hx
      obtain ⟨q, hq, rfl⟩ := List.mem_map.mp hc
      obtain ⟨i, hi⟩ := List.mem_iff_getElem?.mp (List.mem_filter.mp hq).1
      have hi' : m.procs[i]? = some q := by simpa using hi
      exact ih (h i q hi' ▸ (Array.getElem?_eq_some_iff.mp hi').1) x hx

/-- What holds whatever control flow is attached holds after the analysis. -/
theorem analyseAll_induction {M : Module → Prop} (hflow : ∀ (m : Module) (id : Nat) (flow : Flow),
      M m → M ⟨m.procs.modify id fun p => { p with flow := some flow }⟩) (h : M m) (stats : Stats)
    (ids : List Nat) : M (m.analyseAll stats ids).1.1 := by
  induction ids generalizing m stats with
  | nil => exact h
  | cons id ids ih =>
    unfold analyseAll
    split
    · exact h
    · split
      · exact h
      · exact ih (hflow m id _ h) _

theorem forall_mem_modify {C : Proc → Prop} {f : Proc → Proc} (hf : ∀ p, C p → C (f p))
    (h : ∀ p ∈ m.procs, C p) (id : Nat) : ∀ p ∈ m.procs.modify id f, C p := by
  intro p hp
  obtain ⟨j, hj⟩ := Array.mem_iff_getElem?.mp hp
  rw [Array.getElem?_modify] at hj
  split at hj
  · obtain ⟨q, hq, rfl⟩ := Option.map_eq_some_iff.mp hj
    exact hf q (h q (Array.mem_of_getElem? hq))
  · exact h p (Array.mem_of_getElem? hj)

theorem analyseAll_ok (stats : Stats) {ids : List Nat} (h : ∀ p ∈ m.procs, p.BlockDiscipline)
    (hids : ∀ i ∈ ids, i < m.procs.size) :
    ∃ m' stats', m.analyseAll stats ids = ((m', stats'), .ok ()) := by
  induction ids generalizing m stats with
  | nil => exact ⟨m, stats, rfl⟩
  | cons i ids ih =>
    obtain ⟨hi, hrest⟩ := List.forall_mem_cons.mp hids
    obtain ⟨flow, hf⟩ := (h m.procs[i] (Array.getElem_mem hi)).analyse_ok
    have hm : ∀ p ∈ m.procs.modify i fun p => { p with flow := some flow }, p.BlockDiscipline :=
      forall_mem_modify (fun _ hp => hp.withFlow _) h i
    simp only [analyseAll, Array.getElem?_eq_getElem hi, hf]
    exact ih _ hm (by simpa using hrest)

end Module

namespace Tree

variable {t : Tree} {stats : Stats} {m : Module}

theorem of_analyse {M : Module → Prop} (hflow : ∀ (m : Module) (id : Nat) (flow : Flow),
      M m → M ⟨m.procs.modify id fun p => { p with flow := some flow }⟩)
    (hl : ∀ n, (t.lower stats).2 = .ok n → M n) (h : (t.analyse stats).2 = .ok m) : M m := by
  unfold analyse at h
  rcases hlower : t.lower stats with ⟨stats', e | n⟩
  · simp [hlower] at h
  · have hn : M n := hl n (congrArg Prod.snd hlower)
    simp only [hlower] at h
    split at h
    · cases h
      exact hn
    · rename_i root _
      have ha := Module.analyseAll_induction hflow hn stats' (n.preorder n.procs.size root)
      split at h
      · rename_i hrun
        cases h
        rw [Module.analyse] at hrun
        rwa [hrun] at ha
      · cases h

/-- Every proc of a lowered tree is finished and stands at its number. -/
theorem lower_finished (h : (t.lower stats).2 = .ok m) :
    ∀ (i : Nat) (p : Proc), m.procs[i]? = some p → p.id = i ∧ p.BlockDiscipline := by
  have hs := Lower.within_functionSetting
    { stats, module := {}, fn := { proc := { id := 0, parent := none }, function := t.main.id } }
    { id := 0, parent := none } t.main.id [] rfl rfl fun kind => by cases kind <;> rfl
  have hk := (Lower.tracks_function t.symbols t.main none
    (Lower.fits_ofBlock t.symbols t.main.body)).keeps hs trivial
  unfold lower lowering at h
  split at h
  · rename_i id s hrun
    cases h
    exact fun i p hp => (hk.of_ok hrun).1.finished i p (Nat.zero_le _) hp
  · cases h

/-- In every proc of a lowered tree the blocks are in order, and so finding the control flow of
the procs fails only where lowering does. -/
theorem lower_blockDiscipline (t : Tree) (stats : Stats) :
    (∀ m, (t.lower stats).2 = .ok m → ∀ p ∈ m.procs, p.BlockDiscipline) ∧
      ((∃ m, (t.analyse stats).2 = .ok m) ↔ ∃ m, (t.lower stats).2 = .ok m) := by
  have hprocs : ∀ m, (t.lower stats).2 = .ok m → ∀ p ∈ m.procs, p.BlockDiscipline := by
    intro m hm p hp
    obtain ⟨i, hi⟩ := Array.mem_iff_getElem?.mp hp
    exact (lower_finished hm i p hi).2
  refine ⟨hprocs, ?_⟩
  rcases hl : t.lower stats with ⟨stats', e | m⟩
  · simp [analyse, hl]
  · have hm : (t.lower stats).2 = .ok m := by rw [hl]
    refine iff_of_true ?_ ⟨m, rfl⟩
    simp only [analyse, hl]
    cases hr : m.root? with
    | none => exact ⟨m, rfl⟩
    | some root =>
      have hroot : root < m.procs.size := by
        simp only [Module.root?, Option.ite_none_left_eq_some, Option.some.injEq] at hr
        have := hr.1
        simp only [Array.isEmpty_iff_size_eq_zero] at this
        omega
      have hids := Module.lt_size_of_mem_preorder (n := m.procs.size)
        (fun i p hp => (lower_finished hm i p hp).1) hroot
      obtain ⟨m', stats'', ha⟩ := Module.analyseAll_ok stats' (hprocs m hm) hids
      exact ⟨m', by simp [Module.analyse, ha]⟩

end Tree

end ScriptC
