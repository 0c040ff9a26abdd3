import ScriptC.Proofs.Blocks.Actions

/-! # Blocks of statements

A load that becomes a store moves to the end of another block. Statements after one that has ended
the block are dropped. A function is lowered in a setting of its own.
-/

namespace ScriptC.Lower

theorem ends_relocate {Γ : Setting} {s : LoweringState} {i : Nat} (h : s.Within Γ)
    (ho : s.fn.proc.IsOpen s.fn.block) (hi : s.fn.proc.isEnd i = false) :
    Ends (tryProc fun p => return (← p.relocate i s.fn.block, ())) s (fun _ s' => s'.Within Γ)
      fun _ _ => True := by
  rw [ends_tryProc]
  cases hr : s.fn.proc.relocate i s.fn.block with
  | error e => simp [bind, Except.bind]
  | ok q =>
    obtain ⟨-, -, -, hs, hid, hp, -⟩ := Proc.relocate_ok hr
    obtain ⟨hl, hopen⟩ := h.laid.relocate ho hi hr
    refine h.withProc hl (fun _ => hopen) (by omega) hid fun kind => ?_
    rw [hp]
    exact h.pools kind

/-- A load does not end its block, so it can become a store and move to the end of another. -/
theorem keeps_turnIntoStore (load : Nat) (value : Operand) : Keeps (turnIntoStore load value) := by
  intro Γ s h _
  obtain ⟨h', ho, -⟩ := within_opened h
  simp only [turnIntoStore, ends_bind, ends_ensureOpen, ends_get]
  split
  · rename_i instr hi
    split
    · rename_i opcode hc
      obtain ⟨hload, hstore⟩ := Opcode.isStraight_of_storeCounterpart? hc
      have hkind : ∀ old, s.opened.fn.proc.instrs[load]? = some old →
          opcode.isTerminator = old.opcode.isTerminator := by
        intro old hold
        obtain rfl : old = instr := Option.some.inj (hold.symm.trans hi)
        exact hstore.1.trans hload.1.symm
      have hw : (s.opened.withProc { s.opened.fn.proc with
          instrs := s.opened.fn.proc.instrs.modify load fun i =>
            { i with opcode, operands := i.operands ++ [value], targets := [] } }).Within Γ := by
        refine h'.withProc (h'.laid.modify fun old hold => ⟨hkind old hold, ?_⟩)
          (·.modify hkind) (Nat.le_refl _) rfl h'.pools
        exact Instr.targetsWithin_of_not_terminator hstore.1 (by simp)
      rw [ends_bind, ends_onProc, ends_bind]
      refine (ends_relocate hw (ho.modify hkind) ?_).imp fun _ s' hs => ⟨{ hs with }, trivial⟩
      simp [Proc.isEnd, Array.getElem?_modify, hi, hstore.1]
    · trivial
  · trivial

/-- Only the load changes, and its id moves to the end of the current block. -/
theorem ends_turnIntoStore (load : Nat) (value : Operand) (s : LoweringState) :
    Ends (turnIntoStore load value) s (fun _ s' => ∃ old store,
      s.opened.fn.proc.instrs[load]? = some old ∧ old.opcode.storeCounterpart? = some store ∧
      s'.fn.proc.instrs = s.opened.fn.proc.instrs.modify load (fun i =>
        { i with opcode := store, operands := i.operands ++ [value], targets := []
                 block := s.opened.fn.block }) ∧
      (∀ c, s'.fn.proc.ids c = (if c = old.block then
          (s.opened.fn.proc.ids c).filter (· != load) else s.opened.fn.proc.ids c) ++
        if c = s.opened.fn.block then [load] else []) ∧
      s'.fn.block = s.opened.fn.block ∧ s'.module = s.module ∧
      s'.fn.proc.id = s.opened.fn.proc.id ∧ s'.fn.proc.parent = s.opened.fn.proc.parent ∧
      s'.fn.proc.constants = s.opened.fn.proc.constants) fun _ _ => True := by
  simp only [turnIntoStore, ends_bind, ends_ensureOpen, ends_get]
  split
  · rename_i old hold
    split
    · rename_i store hstore
      simp only [ends_bind, ends_onProc, ends_tryProc, ends_modifyStats]
      generalize hu : LoweringState.withProc s.opened _ = u
      cases hr : u.fn.proc.relocate load s.opened.fn.block with
      | error b => trivial
      | ok q =>
        obtain ⟨turned, hturned, hinstrs, -, -, -, hids⟩ := Proc.relocate_ok hr
        have hheader := Proc.header_relocate hr
        subst hu
        simp only [LoweringState.withProc, Array.getElem?_modify, if_pos, hold, Option.map_some,
          Option.some.injEq] at hturned
        subst hturned
        refine ⟨old, store, hold, hstore, hinstrs.trans ?_, hids, rfl, rfl, hheader⟩
        apply Array.ext_getElem?
        intro n
        simp only [LoweringState.withProc, Array.getElem?_modify]
        split
        · rw [Option.map_map]
          rfl
        · rfl
    · trivial
  · trivial

theorem ends_sequence_of_terminated {s : LoweringState} {Q : Unit → LoweringState → Prop}
    {E : Failure → LoweringState → Prop} {stmts : List (Lower Unit)}
    (h : s.fn.proc.isTerminated s.fn.block = true) : Ends (sequence stmts) s Q E ↔ Q () s := by
  cases stmts with
  | nil => rfl
  | cons x rest => simp [sequence, h]

section Functions

/-- The setting of a function of its own, with the procs that exist. -/
def functionSetting (procs : Array Proc) (id : Nat) (isOpen : Bool) : Setting :=
  { pending := [], exits := [], size := 0, procs, id, isOpen }

theorem within_functionSetting (s : LoweringState) (p : Proc) (f : FunctionId)
    (captures : List SymbolId) (hb : p.blocks = #[[], []]) (hi : p.instrs = #[])
    (hp : ∀ kind, p.pool kind = {}) :
    LoweringState.Within (functionSetting s.module.procs p.id true)
      { s with fn := { proc := p, function := f, captures } } where
  laid := Proc.Laid.fresh hb hi
  opened _ := by simp [Proc.IsOpen, Proc.ids_fresh hb]
  size_le := Nat.zero_le _
  exits_eq := rfl
  exits_lt := by simp [functionSetting]
  id_eq := rfl
  pools kind := hp kind ▸ Registers.wellFormed_empty
  procs_le := Nat.le_refl _
  procs_kept _ _ := rfl
  finished i p hle hi := by
    have hlt : i < s.module.procs.size := (Array.getElem?_eq_some_iff.mp hi).1
    exact absurd hlt (Nat.not_lt.mpr hle)

/-- A finished proc takes the place of its header. -/
theorem within_finished {Γ : Setting} {s s' : LoweringState} {p : Proc} (stats : Stats)
    (h : s.Within Γ)
    (h' : s'.Within (functionSetting (s.module.procs.push p) s.module.procs.size false))
    (hs : s'.fn.proc.BlockDiscipline) :
    LoweringState.Within Γ { s' with
      stats
      module := ⟨s'.module.procs.setIfInBounds s.module.procs.size s'.fn.proc⟩
      fn := s.fn
      histories := (s.module.procs.size, s'.fn.history) :: s'.histories } := by
  have hsize : s.module.procs.size + 1 ≤ s'.module.procs.size := by
    simpa [functionSetting] using h'.procs_le
  have hkept : ∀ i < s.module.procs.size, s'.module.procs[i]? = s.module.procs[i]? := by
    intro i hi
    have := h'.procs_kept i (by simp [functionSetting]; omega)
    rwa [functionSetting, Array.getElem?_push_lt hi, ← Array.getElem?_eq_getElem hi] at this
  have hle := h.procs_le
  exact { h with
    procs_le := by
      rw [Array.size_setIfInBounds]
      omega
    procs_kept := fun i hi => by
      rw [Array.getElem?_setIfInBounds_ne (by omega), hkept i (by omega)]
      exact h.procs_kept i hi
    finished := fun i p hi hp => by
      rcases Nat.lt_trichotomy i s.module.procs.size with hlt | rfl | hlt
      · rw [Array.getElem?_setIfInBounds_ne (by omega), hkept i hlt] at hp
        exact h.finished i p hi hp
      · rw [Array.getElem?_setIfInBounds_self_of_lt (by omega)] at hp
        exact Option.some.inj hp ▸ ⟨h'.id_eq, hs⟩
      · rw [Array.getElem?_setIfInBounds_ne (by omega)] at hp
        exact h'.finished i p (by simp [functionSetting]; omega) hp }

theorem ends_returnAtEnd {Γ : Setting} {s : LoweringState} (h : s.Within Γ) :
    Ends returnAtEnd s (fun _ s' => s'.Within (Γ.waiting false Γ.pending Γ.size) ∧
      s'.fn.proc.IsSealed s'.fn.block) fun _ _ => True := by
  simp only [returnAtEnd, ends_bind, ends_isTerminated]
  split <;> rename_i ht
  · exact ⟨h.waiting (by simp), h.laid.isTerminated_iff.mp ht⟩
  · have hr : Instr.TargetsWithin s.fn.proc.blocks.size ⟨.ret, [], [.block exitBlock], 0⟩ := rfl
    exact ends_emit_terminator h rfl hr

end Functions

end ScriptC.Lower
