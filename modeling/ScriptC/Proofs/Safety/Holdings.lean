import ScriptC.Proofs.Calls.Trees
import ScriptC.Proofs.Evaluation.Pieces
import ScriptC.Proofs.Triples

/-! # Registers held during lowering

While a function is lowered, temporaries are held for operands that are still to be used, and the
locals in scope hold registers of their own. What is held is live and held only once, so it can be
returned. A state is sound if this is so, and if the blocks, the instructions and the procs that are
named exist.
-/

namespace ScriptC

/-- The pool has handed out all of `l`. -/
structure Registers.Holds (p : Registers) (l : List Nat) : Prop where
  wellFormed : p.WellFormed
  nodup : l.Nodup
  live : ∀ r ∈ l, p.IsLive r

/-- The temporary that an operand owns, if any. -/
def Operand.temps (o : Operand) : List (TempKind × Nat) := (Proc.owned? o).toList

/-- The pools have handed out `held` and nothing else. -/
structure Proc.Holds (p : Proc) (held : List (TempKind × Nat)) : Prop where
  wellFormed : ∀ kind, (p.pool kind).WellFormed
  nodup : held.Nodup
  live : ∀ t ∈ held, p.IsLive t.1 t.2
  held_of_isLive : ∀ kind r, p.IsLive kind r → (kind, r) ∈ held

theorem forall_mem_modify {α : Type} {P : α → Prop} {xs : Array α} {f : α → α}
    (h : ∀ x ∈ xs, P x) (i : Nat) (hf : ∀ x, P x → P (f x)) : ∀ x ∈ xs.modify i f, P x := by
  intro x hx
  obtain ⟨j, hj⟩ := Array.mem_iff_getElem?.mp hx
  rw [Array.getElem?_modify] at hj
  split at hj
  · obtain ⟨y, hy, rfl⟩ := Option.map_eq_some_iff.mp hj
    exact hf y (h y (Array.mem_of_getElem? hy))
  · exact h x (Array.mem_of_getElem? hj)

section Pools

namespace Registers.Holds

variable {p : Registers} {l : List Nat} {r : Nat}

theorem empty : Holds {} [] := ⟨wellFormed_empty, List.nodup_nil, by simp⟩

theorem alloc (h : p.Holds l) : p.alloc.1.Holds (p.alloc.2 :: l) := by
  constructor
  · exact h.wellFormed.alloc
  · refine List.nodup_cons.mpr ⟨fun hm => ?_, h.nodup⟩
    exact not_isLive_alloc (h.live _ hm)
  · intro r hr
    rw [h.wellFormed.isLive_alloc]
    rcases List.mem_cons.mp hr with rfl | hr
    · exact Or.inr rfl
    · exact Or.inl (h.live r hr)

theorem release (h : p.Holds (r :: l)) :
    p.release r = .ok { p with free := r :: p.free } ∧ Holds { p with free := r :: p.free } l := by
  have hr := (h.live r List.mem_cons_self).release
  obtain ⟨hnot, hnodup⟩ := List.nodup_cons.mp h.nodup
  refine ⟨hr, h.wellFormed.release hr, hnodup, fun q hq => ?_⟩
  rw [isLive_released]
  exact ⟨h.live q (List.mem_cons_of_mem r hq), fun he => hnot (he ▸ hq)⟩

end Registers.Holds

/-- Claiming the register above a live one. -/
theorem Registers.take_succ {p : Registers} {b : Nat} (h : p.WellFormed) (hb : p.IsLive b) :
    match p.take (b + 1) with
    | .ok q => q.WellFormed ∧ ¬ p.IsLive (b + 1) ∧ ∀ x, q.IsLive x ↔ p.IsLive x ∨ x = b + 1
    | .error .overflow => wordLimit ≤ p.next + 1
    | .error (.alreadyLive _) => p.IsLive (b + 1)
    | .error _ => False := by
  have hlt := hb.1
  cases ht : p.take (b + 1) with
  | ok q =>
    refine ⟨h.take ht, ?_⟩
    unfold Registers.take at ht
    split_ifs at ht with hfree hnext hword <;> cases ht
    · refine ⟨fun hl => hl.2 hfree, fun x => ?_⟩
      have := h.lt_next (b + 1) hfree
      simp only [IsLive, h.nodup.mem_erase_iff]
      by_cases hx : x = b + 1
      · simp [hx, this]
      · simp [hx]
    · have he : p.next = b + 1 := by omega
      refine ⟨fun hl => hnext hl.1, fun x => ?_⟩
      simp only [IsLive, he, Nat.sub_self, List.range'_zero, List.nil_append]
      constructor
      · rintro ⟨hx, hm⟩
        by_cases hxb : x = b + 1
        · exact Or.inr hxb
        · exact Or.inl ⟨by omega, hm⟩
      · rintro (⟨hx, hm⟩ | rfl)
        · exact ⟨by omega, hm⟩
        · exact ⟨Nat.lt_succ_self _, hfree⟩
  | error e =>
    unfold Registers.take at ht
    split_ifs at ht with hfree hnext hword <;> cases ht
    · exact ⟨hnext, hfree⟩
    · change wordLimit ≤ p.next + 1
      omega

namespace Proc.Holds

variable {p : Proc} {held held' : List (TempKind × Nat)} {o : Operand}

/-- Pools that were never used hold nothing. -/
theorem empty (h : ∀ kind, p.pool kind = {}) : p.Holds [] where
  wellFormed kind := h kind ▸ Registers.wellFormed_empty
  nodup := List.nodup_nil
  live := List.forall_mem_nil _
  held_of_isLive kind r hr := by
    rw [Proc.IsLive, h kind] at hr
    exact absurd hr.1 (Nat.not_lt_zero r)

theorem perm (h : p.Holds held) (hp : held.Perm held') : p.Holds held' where
  wellFormed := h.wellFormed
  nodup := hp.nodup_iff.mp h.nodup
  live t ht := h.live t (hp.mem_iff.mpr ht)
  held_of_isLive kind r hr := hp.mem_iff.mp (h.held_of_isLive kind r hr)

theorem of_pool_eq {q : Proc} (h : p.Holds held) (hq : q.pool = p.pool) : q.Holds held where
  wellFormed kind := hq ▸ h.wellFormed kind
  nodup := h.nodup
  live t ht := by
    rw [Proc.IsLive, hq]
    exact h.live t ht
  held_of_isLive kind r hr := by
    rw [Proc.IsLive, hq] at hr
    exact h.held_of_isLive kind r hr

theorem allocTemp (h : p.Holds held) (kind : TempKind) :
    (p.allocTemp kind).1.Holds ((p.allocTemp kind).2.temps ++ held) := by
  have hmem {t : TempKind × Nat} :
      t ∈ (p.allocTemp kind).2.temps ↔ owned? (p.allocTemp kind).2 = some t := by
    simp [Operand.temps]
  constructor
  · exact wellFormed_allocTemp h.wellFormed
  · refine List.nodup_append.mpr ⟨?_, h.nodup, fun t ht u hu he => ?_⟩
    · rw [Operand.temps]
      cases owned? (p.allocTemp kind).2 <;> simp
    · exact not_isLive_allocTemp (hmem.mp ht) (he ▸ h.live u hu)
  · intro t ht
    rw [isLive_allocTemp h.wellFormed]
    rcases List.mem_append.mp ht with ht | ht
    · exact Or.inr (hmem.mp ht)
    · exact Or.inl (h.live t ht)
  · intro kind' r hr
    rcases (isLive_allocTemp h.wellFormed).mp hr with hr | hr
    · exact List.mem_append_right _ (h.held_of_isLive kind' r hr)
    · exact List.mem_append_left _ (hmem.mpr hr)

theorem live_owned (h : p.Holds (o.temps ++ held)) {kind : TempKind} {r : Nat}
    (ho : owned? o = some (kind, r)) : p.IsLive kind r := by
  refine h.live (kind, r) (List.mem_append_left _ ?_)
  simp [Operand.temps, ho]

theorem freeTemp (h : p.Holds (o.temps ++ held)) :
    p.freeTemp o = .ok (p.freed o) ∧ (p.freed o).Holds held := by
  refine ⟨freeTemp_eq fun _ _ => h.live_owned, wellFormed_freed h.wellFormed fun _ _ => h.live_owned,
    (List.nodup_append.mp h.nodup).2.1, fun t ht => ?_, fun kind r hr => ?_⟩
  · rw [isLive_freed]
    refine ⟨h.live t (List.mem_append_right _ ht), fun ho => ?_⟩
    exact (List.nodup_append.mp h.nodup).2.2 t (by simp [Operand.temps, ho]) t ht rfl
  · obtain ⟨hlive, hne⟩ := isLive_freed.mp hr
    rcases List.mem_append.mp (h.held_of_isLive kind r hlive) with ho | ho
    · exact absurd (Option.mem_toList.mp ho) hne
    · exact ho

/-- The register above one that is held is held too once it is claimed. -/
theorem reserve {b : Nat} {q : Registers}
    (h : p.Holds held) (hb : (.any, b) ∈ held) (hq : p.anys.take (b + 1) = .ok q) :
    (p.setPool .any q).Holds ((.any, b + 1) :: held) := by
  have ht := Registers.take_succ (p := p.anys) (h.wellFormed .any) (h.live _ hb)
  rw [hq] at ht
  obtain ⟨hwf, hnew, hlive⟩ := ht
  constructor
  · intro kind
    cases kind with
    | any => exact hwf
    | int => exact h.wellFormed .int
    | float => exact h.wellFormed .float
  · exact List.nodup_cons.mpr ⟨fun hm => hnew (h.live _ hm), h.nodup⟩
  · rintro ⟨kind, r⟩ hm
    cases kind with
    | any =>
      refine (hlive r).mpr ?_
      rcases List.mem_cons.mp hm with he | hm
      · exact Or.inr (Prod.mk.inj he).2
      · exact Or.inl (h.live _ hm)
    | int => exact h.live (.int, r) (by simpa using hm)
    | float => exact h.live (.float, r) (by simpa using hm)
  · intro kind r hr
    cases kind with
    | any =>
      rcases (hlive r).mp hr with hr | rfl
      · exact List.mem_cons_of_mem _ (h.held_of_isLive .any r hr)
      · exact List.mem_cons_self
    | int => exact List.mem_cons_of_mem _ (h.held_of_isLive .int r hr)
    | float => exact List.mem_cons_of_mem _ (h.held_of_isLive .float r hr)

end Proc.Holds

end Pools

/-- The state with one more scope. -/
def LoweringState.scoped (s : LoweringState) (scope : List (SymbolId × Nat)) : LoweringState :=
  { s with fn := { s.fn with scopes := scope :: s.fn.scopes } }

namespace LoweringState

/-- At some call, a register that takes no part in it lies above the callee. -/
def Crowded (s : LoweringState) : Prop := ∃ c ∈ s.calls, ¬ c.Clear

/-- No generic temporary above `base` is live, apart from those of `held`; or a call was crowded. -/
def Roofed (base : Nat) (held : List (TempKind × Nat)) (s : LoweringState) : Prop :=
  s.Crowded ∨ ∀ q, s.fn.proc.anys.IsLive q → q ≤ base ∨ (TempKind.any, q) ∈ held

/-- Only the calls and the generic temporaries matter. -/
theorem Roofed.of_eq {base : Nat} {held : List (TempKind × Nat)} {s s' : LoweringState}
    (h : s.Roofed base held) (ha : s'.anys = s.anys) (hv : s'.views = s.views) :
    s'.Roofed base held := by
  refine h.imp (fun ⟨c, hc, hn⟩ => ?_) fun h q hq => h q (show s.anys.IsLive q from ha ▸ hq)
  have hmem : c.view ∈ s'.views := hv ▸ List.mem_map_of_mem hc
  obtain ⟨c', hc', he⟩ := List.mem_map.mp hmem
  exact ⟨c', hc', fun hclear => hn (c.clear_iff_view.mpr (he ▸ c'.clear_iff_view.mp hclear))⟩

/-- The temporaries of `held` can be returned, all locals in scope too, and there are at least
`blocks` blocks, `code` instructions and `procs` procs. -/
structure Sound (blocks code procs : Nat) (held : List (TempKind × Nat)) (s : LoweringState) :
    Prop where
  blocks_le : blocks ≤ s.fn.proc.blocks.size
  code_le : code ≤ s.fn.proc.instrs.size
  procs_le : procs ≤ s.module.procs.size
  block_lt : s.fn.block < s.fn.proc.blocks.size
  instr_block : ∀ i ∈ s.fn.proc.instrs, i.block < s.fn.proc.blocks.size
  id_le : s.fn.proc.id ≤ s.module.procs.size
  temps : s.fn.proc.Holds held
  locals : s.fn.proc.locals.Holds (s.fn.scopes.flatten.map Prod.snd)

namespace Sound

variable {blocks code procs : Nat} {held held' : List (TempKind × Nat)} {s : LoweringState}

theorem weaken {blocks' code' procs' : Nat} (h : s.Sound blocks code procs held)
    (hb : blocks' ≤ blocks) (hc : code' ≤ code) (hp : procs' ≤ procs) :
    s.Sound blocks' code' procs' held where
  __ := h
  blocks_le := Nat.le_trans hb h.blocks_le
  code_le := Nat.le_trans hc h.code_le
  procs_le := Nat.le_trans hp h.procs_le

theorem perm (h : s.Sound blocks code procs held) (hp : held.Perm held') :
    s.Sound blocks code procs held' where
  __ := h
  temps := h.temps.perm hp

/-- The proc may change its pools and get longer. -/
theorem withProc {p : Proc} (h : s.Sound blocks code procs held)
    (hb : p.blocks.size = s.fn.proc.blocks.size) (hc : s.fn.proc.instrs.size ≤ p.instrs.size)
    (hi : ∀ i ∈ p.instrs, i.block < s.fn.proc.blocks.size) (hid : p.id = s.fn.proc.id)
    (ht : p.Holds held') (hl : p.locals = s.fn.proc.locals) :
    (s.withProc p).Sound blocks code procs held' where
  blocks_le := hb ▸ h.blocks_le
  code_le := Nat.le_trans h.code_le hc
  procs_le := h.procs_le
  block_lt := hb ▸ h.block_lt
  instr_block := hb ▸ hi
  id_le := hid ▸ h.id_le
  temps := ht
  locals := hl ▸ h.locals

theorem newBlock (h : s.Sound blocks code procs held) :
    (s.withProc s.fn.proc.newBlock.1).Sound (s.fn.proc.blocks.size + 1) code procs held := by
  have hs : s.fn.proc.newBlock.1.blocks.size = s.fn.proc.blocks.size + 1 := Array.size_push _
  constructor
  · exact Nat.le_of_eq hs.symm
  · exact h.code_le
  · exact h.procs_le
  · exact hs ▸ Nat.lt_succ_of_lt h.block_lt
  · exact fun i hi => hs ▸ Nat.lt_succ_of_lt (h.instr_block i hi)
  · exact h.id_le
  · exact h.temps.of_pool_eq (by funext kind; cases kind <;> rfl)
  · exact h.locals

theorem withBlock {b : Nat} (h : s.Sound blocks code procs held) (hb : b < blocks) :
    Sound blocks code procs held { s with fn := { s.fn with block := b } } where
  __ := h
  block_lt := Nat.lt_of_lt_of_le hb h.blocks_le

theorem opened (h : s.Sound blocks code procs held) : s.opened.Sound blocks code procs held := by
  unfold LoweringState.opened FunctionState.opened
  split
  · exact (h.newBlock.withBlock (Nat.lt_succ_self _)).weaken
      (Nat.le_succ_of_le h.blocks_le) (Nat.le_refl _) (Nat.le_refl _)
  · exact h

theorem appended (h : s.Sound blocks code procs held) (i : Instr) (hi : i.block = s.fn.block) :
    (s.withProc (s.fn.proc.appended s.fn.block i)).Sound blocks code procs held := by
  refine h.withProc Array.size_modify ?_ ?_ rfl
    (h.temps.of_pool_eq (by funext kind; cases kind <;> rfl)) rfl
  · rw [Proc.appended, Array.size_push]
    exact Nat.le_succ _
  · intro j hj
    rcases Array.mem_push.mp hj with hj | rfl
    · exact h.instr_block j hj
    · exact hi ▸ h.block_lt

theorem modify (h : s.Sound blocks code procs held) (i : Nat) {f : Instr → Instr}
    (hf : ∀ instr, (f instr).block = instr.block) :
    (s.withProc { s.fn.proc with instrs := s.fn.proc.instrs.modify i f }).Sound
      blocks code procs held := by
  refine h.withProc rfl (Nat.le_of_eq Array.size_modify.symm) ?_ rfl
    (h.temps.of_pool_eq (by funext kind; cases kind <;> rfl)) rfl
  exact forall_mem_modify h.instr_block i fun instr hi => (hf instr).symm ▸ hi

/-- An instruction that exists can be moved to the current block. -/
theorem relocate (h : s.Sound blocks code procs held) {i : Nat} (hi : i < code) :
    ∃ q, s.fn.proc.relocate i s.fn.block = .ok q ∧ (s.withProc q).Sound blocks code procs held := by
  have hlt : i < s.fn.proc.instrs.size := Nat.lt_of_lt_of_le hi h.code_le
  have hb := h.instr_block _ (Array.getElem_mem hlt)
  simp only [Proc.relocate, Array.getElem?_eq_getElem hlt, if_pos (And.intro hb h.block_lt)]
  refine ⟨_, rfl, h.withProc (by simp) (Nat.le_of_eq Array.size_modify.symm) ?_ rfl
    (h.temps.of_pool_eq (by funext kind; cases kind <;> rfl)) rfl⟩
  exact forall_mem_modify (f := fun instr => { instr with block := s.fn.block }) h.instr_block i
    fun _ _ => h.block_lt

/-- Only the function and the module matter. -/
theorem of_eq {s' : LoweringState} (h : s.Sound blocks code procs held) (hf : s'.fn = s.fn)
    (hm : s'.module = s.module) : s'.Sound blocks code procs held where
  blocks_le := hf ▸ h.blocks_le
  code_le := hf ▸ h.code_le
  procs_le := hm ▸ h.procs_le
  block_lt := hf ▸ h.block_lt
  instr_block := hf ▸ h.instr_block
  id_le := hf ▸ hm ▸ h.id_le
  temps := hf ▸ h.temps
  locals := hf ▸ h.locals

/-- A function that was only just begun holds nothing. -/
theorem fresh {n : Nat} (hid : s.fn.proc.id = n) (hm : n ≤ s.module.procs.size)
    (hb : s.fn.proc.blocks = #[[], []]) (hi : s.fn.proc.instrs = #[])
    (ht : ∀ kind, s.fn.proc.pool kind = {}) (hl : s.fn.proc.locals = {})
    (hblock : s.fn.block = entryBlock) (hs : s.fn.scopes = []) : s.Sound 0 0 n [] where
  blocks_le := Nat.zero_le _
  code_le := Nat.zero_le _
  procs_le := hm
  block_lt := by simp [hb, hblock, entryBlock]
  instr_block := by simp [hi]
  id_le := hid ▸ hm
  temps := .empty ht
  locals := by
    rw [hl, hs]
    exact Registers.Holds.empty

end Sound

end LoweringState

end ScriptC
