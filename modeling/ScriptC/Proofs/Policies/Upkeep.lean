import ScriptC.Proofs.Control.Expressions
import ScriptC.Proofs.Evaluation.Pieces
import ScriptC.Proofs.Policies.Trees

/-! # Upkeep of code

Lowering adds to a proc. What was there before stays as it was, and each new instruction stands in
the list of the block it names, also after it has been moved. Native integers that were taken before
are written by none of the new instructions.
-/

namespace ScriptC

open Lower

section Pools

variable {p q : Registers} {r : Nat}

theorem Registers.IsLive.alloc (h : p.IsLive r) : p.alloc.1.IsLive r := by
  obtain ⟨hlt, hfree⟩ := h
  unfold Registers.alloc
  split
  · rename_i x xs hx
    rw [hx] at hfree
    exact ⟨hlt, fun hm => hfree (List.mem_cons_of_mem x hm)⟩
  · exact ⟨Nat.lt_succ_of_lt hlt, hfree⟩

theorem Registers.IsLive.of_release {x : Nat} (h : p.IsLive r) (hne : r ≠ x)
    (hx : p.release x = .ok q) : q.IsLive r := by
  obtain ⟨-, rfl⟩ := release_ok hx
  exact isLive_released.mpr ⟨h, hne⟩

theorem Proc.owned?_int {o : Operand} (h : owned? o = some (.int, r)) : o = .tempInt r := by
  unfold owned? at h
  split at h <;> cases h
  rfl

end Pools

section Operations

variable {p q : Proc} {reg i k : Nat} {o : Operand}

theorem Proc.reserveTemp_ok (h : p.reserveTemp reg = .ok q) : ∃ regs, q = p.setPool .any regs := by
  unfold reserveTemp at h
  cases hr : p.anys.take reg with
  | error b => simp [hr, bind, Except.bind] at h
  | ok regs =>
    simp only [hr, bind, Except.bind, pure, Except.pure, Except.ok.injEq] at h
    exact ⟨regs, h.symm⟩

theorem Proc.freeLocal_ok (h : p.freeLocal reg = .ok q) : ∃ regs, q = { p with locals := regs } := by
  unfold freeLocal at h
  cases hr : p.locals.release reg with
  | error b => simp [hr, bind, Except.bind] at h
  | ok regs =>
    simp only [hr, bind, Except.bind, pure, Except.pure, Except.ok.injEq] at h
    exact ⟨regs, h.symm⟩

theorem Proc.setTarget_ok (h : p.setTarget i k o = .ok q) :
    q = { p with
      instrs := p.instrs.modify i fun instr => { instr with targets := instr.targets.set k o } } := by
  unfold setTarget at h
  split at h
  · exact (Except.ok.inj h).symm
  · cases h

end Operations

/-- The proc has grown out of `p`. Meanwhile the `reserved` native integers were left alone. -/
structure Proc.Upholds (p : Proc) (reserved : List Nat) (q : Proc) : Prop extends p.Extends q where
  size_le : p.instrs.size ≤ q.instrs.size
  shelved : ∀ b, ∀ i ∈ q.ids b, p.instrs.size ≤ i →
    ∃ instr, q.instrs[i]? = some instr ∧ instr.block = b
  live : ∀ r ∈ reserved, q.IsLive .int r
  spared : ∀ (i : Nat) (instr : Instr), p.instrs.size ≤ i → q.instrs[i]? = some instr →
    ∀ r ∈ reserved, .tempInt r ∉ instr.targets

namespace Proc.Upholds

variable {p q q' : Proc} {reserved : List Nat} {instr : Instr} {b i : Nat}

theorem refl (hp : ∀ b, ∀ i ∈ p.ids b, i < p.instrs.size)
    (hr : ∀ r ∈ reserved, p.IsLive .int r) : p.Upholds reserved p where
  toExtends := .refl p
  size_le := Nat.le_refl _
  shelved b i hi hle := absurd (hp b i hi) (Nat.not_lt.mpr hle)
  live := hr
  spared _ _ hle hi := absurd (Array.getElem?_eq_some_iff.mp hi).1 (Nat.not_lt.mpr hle)

theorem ids_lt (h : p.Upholds reserved q) (b : Nat) : ∀ i ∈ q.ids b, i < q.instrs.size := by
  intro i hi
  rcases Nat.lt_or_ge i p.instrs.size with hlt | hge
  · exact Nat.lt_of_lt_of_le hlt h.size_le
  · obtain ⟨instr, hinstr, -⟩ := h.shelved b i hi hge
    exact (Array.getElem?_eq_some_iff.mp hinstr).1

theorem sameCode (h : p.Upholds reserved q) (hc : q.SameCode q')
    (hl : ∀ r ∈ reserved, q.IsLive .int r → q'.IsLive .int r) : p.Upholds reserved q' where
  toExtends := h.toExtends.trans hc.extends
  size_le := hc.instrs ▸ h.size_le
  shelved := by
    rw [hc.ids, hc.instrs]
    exact h.shelved
  live r hr := hl r hr (h.live r hr)
  spared := by
    rw [hc.instrs]
    exact h.spared

theorem newBlock (h : p.Upholds reserved q) : p.Upholds reserved q.newBlock.1 where
  toExtends := h.toExtends.trans extends_newBlock
  size_le := h.size_le
  shelved := by simpa using h.shelved
  live := by simpa using h.live
  spared := h.spared

theorem intern (h : p.Upholds reserved q) (c : Constant) :
    p.Upholds reserved (q.intern c).1 where
  toExtends := h.toExtends.trans extends_intern
  size_le := h.size_le
  shelved := h.shelved
  live r hr := by simpa [IsLive] using h.live r hr
  spared := h.spared

theorem append (h : p.Upholds reserved q) (instr : Instr) (hb : instr.block < q.blocks.size)
    (ht : ∀ r ∈ reserved, .tempInt r ∉ instr.targets) :
    p.Upholds reserved (q.appended instr.block instr) where
  toExtends := h.toExtends.trans (extends_appended hb)
  size_le := by
    have := h.size_le
    simp only [appended, Array.size_push]
    omega
  shelved b i hi hle := by
    rw [ids_appended hb] at hi
    have hold (hi : i ∈ q.ids b) : ∃ j, (q.appended instr.block instr).instrs[i]? = some j ∧
        j.block = b := by
      obtain ⟨j, hj, hjb⟩ := h.shelved b i hi hle
      exact ⟨j, (extends_appended hb).instrs i j hj, hjb⟩
    split at hi
    · rename_i he
      subst he
      rcases List.mem_append.mp hi with hi | hi
      · exact hold hi
      · rw [List.mem_singleton.mp hi]
        exact ⟨instr, by simp [appended], rfl⟩
    · exact hold hi
  live := by simpa using h.live
  spared i j hle hi := by
    simp only [appended, Array.getElem?_push] at hi
    split at hi
    · cases hi
      exact ht
    · exact h.spared i j hle hi

/-- A new instruction may be changed, except for the block it names. -/
theorem modify (h : p.Upholds reserved q) (hle : p.instrs.size ≤ i) {f : Instr → Instr}
    (hb : ∀ instr, (f instr).block = instr.block)
    (ht : ∀ instr, ∀ r ∈ reserved, .tempInt r ∉ instr.targets → .tempInt r ∉ (f instr).targets) :
    p.Upholds reserved { q with instrs := q.instrs.modify i f } where
  ids := h.ids
  instrs j instr hj := by
    have hlt := (Array.getElem?_eq_some_iff.mp hj).1
    simp only [Array.getElem?_modify, if_neg (show i ≠ j by omega)]
    exact h.instrs j instr hj
  constants := h.constants
  size_le := by simpa using h.size_le
  shelved b j hj hlej := by
    obtain ⟨instr, hi, hib⟩ := h.shelved b j hj hlej
    simp only [Array.getElem?_modify]
    split
    · exact ⟨f instr, by simp [hi], by rw [hb, hib]⟩
    · exact ⟨instr, hi, hib⟩
  live := h.live
  spared j instr hlej hj r hr := by
    simp only [Array.getElem?_modify] at hj
    split at hj
    · obtain ⟨old, hold, rfl⟩ := Option.map_eq_some_iff.mp hj
      exact ht old r hr (h.spared j old hlej hold r hr)
    · exact h.spared j instr hlej hj r hr

/-- A new instruction may be moved to another block. -/
theorem relocate (h : p.Upholds reserved q) (hp : ∀ b, ∀ i ∈ p.ids b, i < p.instrs.size)
    (hle : p.instrs.size ≤ i) (hr : q.relocate i b = .ok q') : p.Upholds reserved q' := by
  obtain ⟨moved, hm, hinstrs, -, -, hpool, hids⟩ := relocate_ok hr
  have hget (j : Nat) : q'.instrs[j]? =
      if i = j then some { moved with block := b } else q.instrs[j]? := by
    rw [hinstrs, Array.getElem?_modify]
    split
    · rename_i he
      simp [← he, hm]
    · rfl
  constructor
  · constructor
    · intro c
      rw [hids]
      have hsame : (p.ids c).filter (· != i) = p.ids c :=
        List.filter_eq_self.mpr fun j hj => bne_iff_ne.mpr (by have := hp c j hj; omega)
      refine List.IsPrefix.trans ?_ (List.prefix_append _ _)
      split
      · rw [← hsame]
        exact (h.ids c).filter _
      · exact h.ids c
    · intro j instr hj
      have hlt := (Array.getElem?_eq_some_iff.mp hj).1
      rw [hget, if_neg (by omega)]
      exact h.instrs j instr hj
    · rw [(header_relocate hr).2.2]
      exact h.constants
  · rw [hinstrs, Array.size_modify]
    exact h.size_le
  · intro c j hj hlej
    rw [hids, List.mem_append] at hj
    rw [hget]
    by_cases hij : i = j
    · subst hij
      refine ⟨_, if_pos rfl, ?_⟩
      rcases hj with hj | hj
      · split at hj
        · simp at hj
        · rename_i hne
          obtain ⟨instr, hi, hib⟩ := h.shelved c i hj hlej
          cases hm.symm.trans hi
          exact absurd hib.symm hne
      · split at hj
        · rename_i he
          exact he.symm
        · cases hj
    · rw [if_neg hij]
      rcases hj with hj | hj
      · refine h.shelved c j ?_ hlej
        split at hj
        · exact (List.mem_filter.mp hj).1
        · exact hj
      · split at hj
        · exact absurd (List.mem_singleton.mp hj).symm hij
        · cases hj
  · intro r hr
    have := h.live r hr
    unfold IsLive at this ⊢
    rwa [hpool]
  · intro j instr hlej hj
    rw [hget] at hj
    split at hj
    · rename_i he
      cases hj
      exact h.spared i moved hle hm
    · exact h.spared j instr hlej hj

end Proc.Upholds

section Policy

variable {p : Proc} {reserved : List Nat}

/-- What was in the proc stays, and the reserved native integers are not written. -/
abbrev Proc.upkeep (p : Proc) (reserved : List Nat) : Policy :=
  .keeping (fun s => p.Upholds reserved s.fn.proc) (fun o => ∀ r ∈ reserved, o ≠ .tempInt r)
    (p.instrs.size ≤ ·)

open Policy

variable {P : Prop}

theorem observes_upkeep_append {opcode : Opcode} {operands targets : List Operand}
    (ht : P → ∀ t ∈ targets, (p.upkeep reserved).Owns t) :
    (p.upkeep reserved).Observes P (append opcode operands targets)
      (p.upkeep reserved).Emitted := by
  refine observes_keeping fun s hP hs => ?_
  refine ends_append_proc.imp ?_
  rintro _ s' ⟨hb, rfl, -, hproc, -⟩
  refine ⟨?_, hs.size_le⟩
  rw [hproc]
  exact hs.append ⟨opcode, operands, targets, s.fn.block⟩ hb fun r hr hm => ht hP _ hm r hr rfl

theorem observes_upkeep_turnIntoStore (hp : ∀ b, ∀ i ∈ p.ids b, i < p.instrs.size) {load : Nat}
    {value : Operand} (hl : P → (p.upkeep reserved).Emitted load) :
    (p.upkeep reserved).Observes P (turnIntoStore load value) fun _ => True := by
  refine observes_keeping fun s hP hs => ?_
  have ho : p.Upholds reserved s.opened.fn.proc := by
    unfold LoweringState.opened FunctionState.opened
    dsimp only
    split
    · exact hs.newBlock
    · exact hs
  simp only [turnIntoStore, ends_bind, ends_ensureOpen, ends_get]
  split
  · split
    · rename_i instr _ _ store _
      simp only [ends_bind, ends_onProc, ends_tryProc, ends_modifyStats]
      generalize hu : LoweringState.withProc s.opened _ = u
      have hturned : p.Upholds reserved u.fn.proc := by
        rw [← hu]
        refine ho.modify (f := fun i =>
          { i with opcode := store, operands := i.operands ++ [value], targets := [] }) (hl hP)
          (fun _ => rfl) ?_
        simp
      cases hr : u.fn.proc.relocate load s.opened.fn.block with
      | error b => trivial
      | ok q => exact ⟨hturned.relocate hp (hl hP) hr, trivial⟩
    · trivial
  · trivial

/-- Any lowering keeps up the code that was there before. -/
theorem lawful_upkeep (hp : ∀ b, ∀ i ∈ p.ids b, i < p.instrs.size) (symbols : SymbolTable) :
    Lawful symbols (fun _ => True) fun _ : Unit => p.upkeep reserved where
  owns _ o ho r _ := ho r
  modifyFn _ g hg := observes_keeping fun s _ hs => ⟨(hg s.fn).symm ▸ hs, trivial⟩
  newBlock _ := observes_keeping fun s _ hs => ⟨hs.newBlock, trivial⟩
  append _ _ _ _ _ h := observes_upkeep_append fun hP => (h hP).1
  allocTemp _ kind := by
    refine observes_keeping fun s _ hs => ⟨hs.sameCode Proc.sameCode_allocTemp ?_, ?_⟩
    · intro r _ hl
      simp only [Proc.IsLive, Proc.pool_setPool] at hl ⊢
      split
      · rename_i hk
        exact hk ▸ hl.alloc
      · exact hl
    · intro r hr (he : (s.fn.proc.allocTemp kind).2 = .tempInt r)
      have ho : Proc.owned? (s.fn.proc.allocTemp kind).2 = some (.int, r) := by rw [he]; rfl
      exact Proc.not_isLive_allocTemp ho (hs.live r hr)
  free _ _ o ho := by
    refine observes_keeping_tryProc fun s q' hP hq hf => ?_
    rcases Proc.freeTemp_ok hf with ⟨-, rfl⟩ | ⟨kind, reg, regs, hown, hrel, rfl⟩
    · exact hq
    · change p.Upholds reserved (s.fn.proc.setPool kind regs)
      refine hq.sameCode Proc.sameCode_setPool fun r hr hl => ?_
      simp only [Proc.IsLive, Proc.pool_setPool] at hl ⊢
      split
      · rename_i hk
        subst hk
        refine hl.of_release ?_ hrel
        rintro rfl
        exact ho hP r hr (Proc.owned?_int hown)
      · exact hl
  reserveTemp _ reg := by
    refine observes_keeping_tryProc fun s q' _ hq ht => ?_
    obtain ⟨regs, rfl⟩ := Proc.reserveTemp_ok ht
    change p.Upholds reserved (s.fn.proc.setPool .any regs)
    exact hq.sameCode Proc.sameCode_setPool fun r _ hl => hl
  constant _ c := by
    refine observes_keeping fun s _ hs => ?_
    simp only [constant, ends_bind, ends_onProc]
    split <;> exact ⟨hs.intern c, trivial⟩
  setTarget _ _ call n k h := by
    refine observes_keeping_tryProc fun s q' hP hq ht => ?_
    rw [Proc.setTarget_ok ht]
    refine hq.modify (f := fun instr => { instr with targets := instr.targets.set 1 k })
      (h hP).1 (fun _ => rfl) fun instr r hr hm hset => ?_
    rcases List.mem_or_eq_of_mem_set hset with hin | he
    · exact hm hin
    · exact (h hP).2.1 r hr he.symm
  turnIntoStore _ _ load value tag h := observes_upkeep_turnIntoStore hp fun hP => (h hP).1
  allocLocal _ := observes_keeping fun s _ hs =>
    ⟨hs.sameCode ⟨rfl, rfl, rfl⟩ fun _ _ h => h, trivial⟩
  freeLocal _ reg := by
    refine observes_keeping_tryProc fun s q' _ hq ht => ?_
    obtain ⟨regs, rfl⟩ := Proc.freeLocal_ok ht
    exact hq.sameCode ⟨rfl, rfl, rfl⟩ fun r _ hl => hl
  function _ f body _ := by
    refine observes_get_bind fun s => observes_keeping fun s' _ hs => ?_
    refine (ends_function_fn symbols f _ body s').imp ?_
    intro id s' hs'
    rw [hs']
    exact ⟨hs, trivial⟩

theorem evaluates_upkeep (hp : ∀ b, ∀ i ∈ p.ids b, i < p.instrs.size) (symbols : SymbolTable)
    (e : Expr) : Evaluates symbols (fun _ => True) (fun _ : Unit => p.upkeep reserved) e :=
  (lawful_upkeep hp symbols).treeCases.expr e fun _ _ => trivial

theorem executes_upkeep (hp : ∀ b, ∀ i ∈ p.ids b, i < p.instrs.size) (symbols : SymbolTable)
    (stmt : Stmt) : Executes (fun _ : Unit => p.upkeep reserved) (ofStmt symbols stmt) :=
  (lawful_upkeep hp symbols).treeCases.stmt stmt fun _ _ => trivial

end Policy

end ScriptC
