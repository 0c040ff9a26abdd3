import ScriptC.Proofs.Blocks.Discipline
import ScriptC.Proofs.Selections

/-! # What lowering keeps

An action keeps the block discipline for whatever blocks wait meanwhile, the targets of breaks, the
procs that exist and the pools in order. All procs that it adds are finished.
-/

namespace ScriptC

/-- What stays the same while a part of a function is lowered. -/
structure Setting where
  /-- Blocks that wait for their instructions. -/
  pending : List Nat
  exits : List Nat
  /-- All blocks below this number exist. -/
  size : Nat
  procs : Array Proc
  id : Nat
  /-- Whether the current block is known to be open. -/
  isOpen : Bool

/-- The setting with other blocks that wait, at least `n` blocks, and other knowledge about the
current one. -/
def Setting.waiting (Γ : Setting) (isOpen : Bool) (pending : List Nat) (n : Nat) : Setting :=
  { Γ with isOpen, pending, size := n }

structure LoweringState.Within (Γ : Setting) (s : LoweringState) : Prop where
  laid : s.fn.proc.Laid s.fn.block Γ.pending
  opened : Γ.isOpen = true → s.fn.proc.IsOpen s.fn.block
  size_le : Γ.size ≤ s.fn.proc.blocks.size
  exits_eq : s.fn.exits = Γ.exits
  exits_lt : ∀ e ∈ Γ.exits, e < Γ.size
  id_eq : s.fn.proc.id = Γ.id
  pools : ∀ kind, (s.fn.proc.pool kind).WellFormed
  procs_le : Γ.procs.size ≤ s.module.procs.size
  procs_kept : ∀ i < Γ.procs.size, s.module.procs[i]? = Γ.procs[i]?
  finished : ∀ i p, Γ.procs.size ≤ i → s.module.procs[i]? = some p → p.id = i ∧ p.BlockDiscipline

/-- The instruction with id `i` has this opcode. -/
def OpcodeAt (i : Nat) (opcode : Opcode) (instrs : Array Instr) : Prop :=
  ∃ instr, instrs[i]? = some instr ∧ instr.opcode = opcode

/-- An operand that names no block. -/
def Operand.IsData (o : Operand) : Prop := ∀ b, o ≠ .block b

namespace Proc

variable {p q : Proc} {kind : TempKind} {r : Registers}

@[simp] theorem blocks_setPool : (p.setPool kind r).blocks = p.blocks := by cases kind <;> rfl

@[simp] theorem instrs_setPool : (p.setPool kind r).instrs = p.instrs := by cases kind <;> rfl

@[simp] theorem id_setPool : (p.setPool kind r).id = p.id := by cases kind <;> rfl

theorem pool_setPool (k : TempKind) :
    (p.setPool kind r).pool k = if k = kind then r else p.pool k := by
  cases kind <;> cases k <;> rfl

/-- Returning an operand changes at most the pool it comes from. -/
theorem freeTemp_ok {o : Operand} (h : p.freeTemp o = .ok q) :
    (owned? o = none ∧ q = p) ∨ ∃ kind reg r, owned? o = some (kind, reg) ∧
      (p.pool kind).release reg = .ok r ∧ q = p.setPool kind r := by
  unfold freeTemp at h
  split at h <;> rename_i ho
  · rename_i kind reg
    cases hr : (p.pool kind).release reg with
    | error e => simp [hr, bind, Except.bind] at h
    | ok r =>
      simp only [hr, bind, Except.bind, pure, Except.pure, Except.ok.injEq] at h
      exact Or.inr ⟨kind, reg, r, ho, hr, h.symm⟩
  · exact Or.inl ⟨ho, (Except.ok.inj h).symm⟩

end Proc

namespace LoweringState

variable {Γ : Setting} {s : LoweringState} {q : Proc}

@[simp] theorem withProc_proc : (s.withProc q).fn.proc = q := rfl

@[simp] theorem withProc_block : (s.withProc q).fn.block = s.fn.block := rfl

theorem Within.withProc (h : s.Within Γ) (hl : q.Laid s.fn.block Γ.pending)
    (ho : s.fn.proc.IsOpen s.fn.block → q.IsOpen s.fn.block)
    (hs : s.fn.proc.blocks.size ≤ q.blocks.size) (hid : q.id = s.fn.proc.id)
    (hp : ∀ kind, (q.pool kind).WellFormed) : (s.withProc q).Within Γ where
  __ := h
  laid := hl
  opened hΓ := ho (h.opened hΓ)
  size_le := Nat.le_trans h.size_le hs
  id_eq := hid.trans h.id_eq
  pools := hp

/-- The code of the proc stays the same. -/
theorem Within.sameCode (h : s.Within Γ) (hb : q.blocks = s.fn.proc.blocks)
    (hi : q.instrs = s.fn.proc.instrs) (hid : q.id = s.fn.proc.id)
    (hp : ∀ kind, (q.pool kind).WellFormed) : (s.withProc q).Within Γ := by
  refine h.withProc (h.laid.of_eq hb hi) (fun ho => ?_) (Nat.le_of_eq (by rw [hb])) hid hp
  simpa only [Proc.IsOpen, Proc.ids, Proc.isEnd, hb, hi] using ho

/-- Nothing but a pool changes. -/
theorem Within.setPool (h : s.Within Γ) {kind : TempKind} {r : Registers} (hr : r.WellFormed) :
    (s.withProc (s.fn.proc.setPool kind r)).Within Γ := by
  refine h.sameCode (by simp) (by simp) (by simp) fun k => ?_
  rw [Proc.pool_setPool]
  split
  · exact hr
  · exact h.pools k

/-- What is known about the current block may be forgotten, or added if it is open. -/
theorem Within.waiting {isOpen : Bool} (h : s.Within Γ)
    (ho : isOpen = true → s.fn.proc.IsOpen s.fn.block) :
    s.Within (Γ.waiting isOpen Γ.pending Γ.size) :=
  { h with opened := ho }

end LoweringState

namespace Lower

variable {α β γ : Type} {A : LoweringState → Prop} {P : α → Prop} {Γ : Setting} {s : LoweringState}

/-- From states that satisfy `A`, the action stays within every setting, and its result and state
satisfy `R`. -/
def Yields (A : LoweringState → Prop) (x : Lower α) (R : α → LoweringState → Prop) : Prop :=
  ∀ ⦃Γ : Setting⦄ ⦃s : LoweringState⦄, s.Within Γ → A s →
    Ends x s (fun a s' => s'.Within Γ ∧ R a s') fun _ _ => True

def Gives (P : α → Prop) (x : Lower α) : Prop := Yields (fun _ => True) x fun a _ => P a

def Keeps (x : Lower α) : Prop := Gives (fun _ => True) x

section Rules

variable {x : Lower α} {f : α → Lower β} {R : α → LoweringState → Prop}
  {T : β → LoweringState → Prop} {P' : β → Prop}

theorem Yields.bind (hx : Yields A x R) (hf : ∀ a, Yields (R a) (f a) T) :
    Yields A (x >>= f) T := by
  intro Γ s h ha
  rw [ends_bind]
  exact (hx h ha).imp fun a s' h' => hf a h'.1 h'.2

theorem Yields.weaken {A' : LoweringState → Prop} {R' : α → LoweringState → Prop}
    (hx : Yields A x R) (ha : ∀ s, A' s → A s) (hr : ∀ a s, R a s → R' a s) : Yields A' x R' :=
  fun _ s h h' => (hx h (ha s h')).imp fun a s' ⟨h₁, h₂⟩ => ⟨h₁, hr a s' h₂⟩

theorem Yields.keeps (hx : Yields (fun _ => True) x R) : Keeps x :=
  hx.weaken (fun _ => id) fun _ _ _ => trivial

theorem Gives.bind (hx : Gives P x) (hf : ∀ a, P a → Gives P' (f a)) : Gives P' (x >>= f) :=
  Yields.bind hx fun a _ _ h hp => hf a hp h trivial

theorem Keeps.bind (hx : Keeps x) (hf : ∀ a, Gives P' (f a)) : Gives P' (x >>= f) :=
  Gives.bind hx fun a _ => hf a

theorem Gives.keeps (hx : Gives P x) : Keeps x := Yields.keeps hx

theorem gives_pure {a : α} (h : P a) : Gives P (pure a) := fun _ _ hs _ => ⟨hs, h⟩

theorem keeps_pure {a : α} : Keeps (pure a) := gives_pure trivial

theorem Gives.ite {c : Prop} [Decidable c] {y : Lower α} (hx : c → Gives P x)
    (hy : ¬ c → Gives P y) : Gives P (if c then x else y) := by
  split <;> rename_i h
  · exact hx h
  · exact hy h

theorem Yields.forM {xs : List γ} {g : γ → Lower Unit} (h : ∀ a ∈ xs, Yields A (g a) fun _ => A) :
    Yields A (xs.forM g) fun _ => A := by
  induction xs with
  | nil => exact fun _ _ hs ha => ⟨hs, ha⟩
  | cons a xs ih =>
    change Yields A (g a >>= fun _ => xs.forM g) fun _ => A
    exact (h a List.mem_cons_self).bind fun _ => ih fun b hb => h b (List.mem_cons_of_mem _ hb)

/-- An action that leaves the state alone. -/
theorem gives_of_unchanged (h : ∀ s, Ends x s (fun a s' => s' = s ∧ P a) fun _ _ => True) :
    Gives P x := by
  intro Γ s hs _
  refine (h s).imp ?_
  rintro a s' ⟨rfl, ha⟩
  exact ⟨hs, ha⟩

end Rules

section Emission

variable {opcode : Opcode} {operands targets : List Operand}

/-- An opcode with targets that name no block. -/
def Inert (opcode : Opcode) (targets : List Operand) : Prop :=
  opcode.isTerminator = false ∧ ∀ b, .block b ∉ targets

theorem inert_singleton {o : Operand} (h : opcode.isTerminator = false) (ho : o.IsData) :
    Inert opcode [o] := ⟨h, fun b => by simpa using (ho b).symm⟩

theorem ends_append_of_open (h : s.Within Γ) (ho : s.fn.proc.IsOpen s.fn.block)
    (ht : Instr.TargetsWithin s.fn.proc.blocks.size
      ⟨opcode, operands, targets, s.fn.block⟩) :
    Ends (append opcode operands targets) s
      (fun i s' => s'.Within (Γ.waiting (!opcode.isTerminator) Γ.pending Γ.size) ∧
        s'.fn.block = s.fn.block ∧
        s'.fn.proc = s.fn.proc.appended s.fn.block ⟨opcode, operands, targets, s.fn.block⟩ ∧
        i = s.fn.proc.instrs.size) fun _ _ => True := by
  have h' : (s.withProc (s.fn.proc.appended s.fn.block
      ⟨opcode, operands, targets, s.fn.block⟩)).Within
        (Γ.waiting (!opcode.isTerminator) Γ.pending Γ.size) :=
    { h with
      laid := h.laid.append ho ht
      opened := fun hi => h.laid.isOpen_appended ho (by simpa [Setting.waiting] using hi)
      size_le := Nat.le_trans h.size_le (by simp [Proc.appended]) }
  simp only [append, ends_bind, ends_get, ends_tryProc, Proc.emit_eq, if_pos h.laid.current_lt,
    ends_modifyStats]
  split
  · exact ⟨{ h' with }, rfl, rfl, rfl⟩
  · exact ⟨{ h' with }, rfl, rfl, rfl⟩

theorem ends_append_proc {s : LoweringState} {opcode : Opcode} {operands targets : List Operand} :
    Ends (append opcode operands targets) s (fun id s' => s.fn.block < s.fn.proc.blocks.size ∧
      id = s.fn.proc.instrs.size ∧ s'.fn.block = s.fn.block ∧
      s'.fn.proc = s.fn.proc.appended s.fn.block ⟨opcode, operands, targets, s.fn.block⟩ ∧
      s'.module = s.module) fun _ _ => True := by
  simp only [append, ends_bind, ends_get, ends_tryProc, Proc.emit_eq]
  split
  · rename_i he
    split at he <;> cases he
    rename_i hb
    simp only [ends_modifyStats]
    split <;> exact ⟨hb, rfl, rfl, rfl, rfl⟩
  · trivial

theorem opened_of_open (h : s.fn.proc.IsOpen s.fn.block) : s.opened = s := by
  simp [LoweringState.opened, FunctionState.opened, h.isTerminated]

theorem ends_emitId_of_open (h : s.Within Γ) (ho : s.fn.proc.IsOpen s.fn.block)
    (ht : Instr.TargetsWithin s.fn.proc.blocks.size
      ⟨opcode, operands, targets, s.fn.block⟩) :
    Ends (emitId opcode operands targets) s
      (fun i s' => s'.Within (Γ.waiting (!opcode.isTerminator) Γ.pending Γ.size) ∧
        s'.fn.block = s.fn.block ∧
        s'.fn.proc = s.fn.proc.appended s.fn.block ⟨opcode, operands, targets, s.fn.block⟩ ∧
        i = s.fn.proc.instrs.size) fun _ _ => True := by
  rw [ends_emitId, opened_of_open ho]
  exact ends_append_of_open h ho ht

theorem within_opened (h : s.Within Γ) :
    s.opened.Within Γ ∧ s.opened.fn.proc.IsOpen s.opened.fn.block ∧
      s.fn.proc.blocks.size ≤ s.opened.fn.proc.blocks.size := by
  by_cases ht : s.fn.proc.isTerminated s.fn.block
  · have hn := h.laid.newBlock.start (by simpa using h.laid.isTerminated_iff.mp ht)
    have hs : s.opened = { s with fn := { s.fn with
        proc := s.fn.proc.newBlock.1, block := s.fn.proc.blocks.size } } := by
      simp [LoweringState.opened, FunctionState.opened, ht]
    have ho : s.fn.proc.newBlock.1.IsOpen s.fn.proc.blocks.size := by
      simp [Proc.IsOpen, Proc.ids_of_size_le]
    rw [hs]
    refine ⟨{ h with laid := hn, opened := fun _ => ho, size_le := ?_ }, ho, ?_⟩
    · exact Nat.le_trans h.size_le (by simp [Proc.newBlock])
    · simp [Proc.newBlock]
  · have ho := h.laid.isOpen_of_not_terminated ht
    rw [opened_of_open ho]
    exact ⟨h, ho, Nat.le_refl _⟩

theorem yields_emitId (hi : Inert opcode targets) :
    Yields (fun _ => True) (emitId opcode operands targets)
      fun i s' => OpcodeAt i opcode s'.fn.proc.instrs := by
  intro Γ s h _
  obtain ⟨h', ho, -⟩ := within_opened h
  rw [ends_emitId]
  refine (ends_append_of_open h' ho (Instr.targetsWithin_of_not_terminator hi.1 hi.2)).imp ?_
  rintro i s' ⟨hw, -, hp, rfl⟩
  refine ⟨{ hw with opened := fun _ => hw.opened (by simp [Setting.waiting, hi.1]) },
    ⟨opcode, operands, targets, s.opened.fn.block⟩, ?_, rfl⟩
  simp [hp, Proc.appended]

theorem keeps_emit (hi : Inert opcode targets) : Keeps (emit opcode operands targets) := by
  intro Γ s h ha
  rw [emit, ends_discard]
  exact (yields_emitId hi h ha).imp fun _ _ h' => ⟨h'.1, trivial⟩

/-- After a terminator the current block has ended. -/
theorem ends_emit_terminator (h : s.Within Γ) (ho : opcode.isTerminator = true)
    (ht : Instr.TargetsWithin s.fn.proc.blocks.size ⟨opcode, operands, targets, 0⟩) :
    Ends (emit opcode operands targets) s
      (fun _ s' => s'.Within (Γ.waiting false Γ.pending Γ.size) ∧
        s'.fn.proc.IsSealed s'.fn.block) fun _ _ => True := by
  obtain ⟨h', hopen, hle⟩ := within_opened h
  rw [ends_emit]
  refine (ends_append_of_open h' hopen (ht.mono hle)).imp ?_
  rintro i s' ⟨hw, hb, hp, -⟩
  rw [ho] at hw
  refine ⟨hw, ?_⟩
  rw [hb, hp]
  exact h'.laid.isSealed_appended hopen ho

theorem targetsWithin_br {n b k : Nat} (hb : b < n) :
    Instr.TargetsWithin n ⟨.br, operands, [.block b], k⟩ := ⟨b, hb, rfl⟩

theorem targetsWithin_cbr {n a b k : Nat} (ha : a < n) (hb : b < n) :
    Instr.TargetsWithin n ⟨.cbr, operands, [.block a, .block b], k⟩ := ⟨a, ha, b, hb, rfl⟩

theorem ends_branchTo {b : Nat} (h : s.Within Γ) (hb : b < s.fn.proc.blocks.size) :
    Ends (branchTo b) s (fun _ s' => s'.Within (Γ.waiting false Γ.pending Γ.size) ∧
      s'.fn.proc.IsSealed s'.fn.block) fun _ _ => True := by
  simp only [branchTo, ends_bind, ends_isTerminated]
  split <;> rename_i ht
  · exact ⟨h.waiting (by simp), h.laid.isTerminated_iff.mp ht⟩
  · exact ends_emit_terminator h rfl (targetsWithin_br hb)

end Emission

section NewBlocks

/-- A new block waits for its instructions. -/
theorem within_newBlock (h : s.Within Γ) :
    (s.withProc s.fn.proc.newBlock.1).Within
      (Γ.waiting Γ.isOpen (s.fn.proc.blocks.size :: Γ.pending) (s.fn.proc.blocks.size + 1)) where
  laid := h.laid.newBlock
  opened ho := by simpa using h.opened ho
  size_le := by simp [Proc.newBlock, Setting.waiting]
  exits_eq := h.exits_eq
  exits_lt e he := Nat.lt_of_lt_of_le (h.exits_lt e he) (Nat.le_succ_of_le h.size_le)
  id_eq := h.id_eq
  pools := h.pools
  procs_le := h.procs_le
  procs_kept := h.procs_kept
  finished := h.finished

/-- A waiting block becomes current; the block before is closed by a branch if need be. -/
theorem ends_startBlock {b : Nat} {rest : List Nat} (h : s.Within Γ)
    (hp : Γ.pending.Perm (b :: rest)) :
    Ends (startBlock b) s (fun _ s' => s'.Within (Γ.waiting true rest Γ.size) ∧ s'.fn.block = b)
      fun _ _ => True := by
  have hstart : ∀ s' : LoweringState, s'.Within (Γ.waiting false Γ.pending Γ.size) →
      s'.fn.proc.IsSealed s'.fn.block →
      LoweringState.Within (Γ.waiting true rest Γ.size)
        { s' with fn := { s'.fn with block := b } } := by
    intro s' h' hs
    refine { h' with laid := (h'.laid.of_perm hp).start hs, opened := fun _ i hi => ?_ }
    rw [h'.laid.pending_empty b (hp.mem_iff.mpr List.mem_cons_self)] at hi
    simp at hi
  simp only [startBlock, ends_bind, ends_isTerminated]
  split <;> rename_i ht
  · exact ⟨hstart s (h.waiting (by simp)) (h.laid.isTerminated_iff.mp ht), rfl⟩
  · have hb := h.laid.pending_lt b (hp.mem_iff.mpr List.mem_cons_self)
    have ho := h.laid.isOpen_of_not_terminated ht
    simp only [ends_bind, ends_discard]
    refine (ends_append_of_open h ho (targetsWithin_br hb)).imp ?_
    rintro i s' ⟨h', hblock, hproc, -⟩
    refine ⟨hstart s' h' ?_, rfl⟩
    rw [hblock, hproc]
    exact h.laid.isSealed_appended ho rfl

end NewBlocks

section Registers

/-- What holds of the blocks, the instructions and the current block does not depend on pools. -/
def OnCode (I : Array (List Nat) → Array Instr → Nat → Prop) (s : LoweringState) : Prop :=
  I s.fn.proc.blocks s.fn.proc.instrs s.fn.block

variable (I : Array (List Nat) → Array Instr → Nat → Prop)

theorem yields_free (o : Operand) : Yields (OnCode I) (free o) fun _ => OnCode I := by
  intro Γ s h hi
  simp only [free, ends_tryProc]
  cases hf : s.fn.proc.freeTemp o with
  | error e => simp [bind, Except.bind]
  | ok q =>
    rcases Proc.freeTemp_ok hf with ⟨-, rfl⟩ | ⟨kind, reg, r, -, hr, rfl⟩
    · exact ⟨h, hi⟩
    · refine ⟨h.setPool ((h.pools kind).release hr), ?_⟩
      simpa [OnCode, LoweringState.withProc] using hi

theorem yields_freeAll (os : List Operand) :
    Yields (OnCode I) (freeAll os) fun _ => OnCode I :=
  Yields.forM fun o _ => yields_free I o

theorem yields_constant (c : Constant) :
    Yields (OnCode I) (constant c) fun k s => k.IsData ∧ OnCode I s := by
  intro Γ s h hi
  have h' : (s.withProc (s.fn.proc.intern c).1).Within Γ :=
    h.sameCode rfl rfl rfl h.pools
  have hk : (s.fn.proc.intern c).2.1.IsData := by simp [Proc.intern, Operand.IsData]
  simp only [constant, ends_bind, ends_onProc]
  split
  · exact ⟨{ h' with }, hk, hi⟩
  · exact ⟨h', hk, hi⟩

theorem keeps_free (o : Operand) : Keeps (free o) := yields_free (fun _ _ _ => True) o

theorem keeps_freeAll (os : List Operand) : Keeps (freeAll os) := yields_freeAll (fun _ _ _ => True) os

theorem gives_constant (c : Constant) : Gives Operand.IsData (constant c) :=
  (yields_constant (fun _ _ _ => True) c).weaken (fun _ => id) fun _ _ h => h.1

theorem keeps_constant (c : Constant) : Keeps (constant c) := (gives_constant c).keeps

theorem gives_allocTemp (kind : TempKind) : Gives Operand.IsData (allocTemp kind) := by
  intro Γ s h _
  simp only [allocTemp, ends_onProc]
  refine ⟨h.setPool (h.pools kind).alloc, ?_⟩
  cases kind <;> simp [Proc.allocTemp, Operand.temp, Operand.IsData]

theorem keeps_reserveTemp (reg : Nat) :
    Keeps (tryProc fun p => return (← p.reserveTemp reg, ())) := by
  intro Γ s h _
  rw [ends_tryProc]
  cases ht : s.fn.proc.anys.take reg with
  | error e => simp [Proc.reserveTemp, ht, bind, Except.bind]
  | ok r =>
    simp only [Proc.reserveTemp, ht, bind, Except.bind, pure, Except.pure]
    exact ⟨h.setPool ((h.pools .any).take ht), trivial⟩

end Registers

section Values

/-- The number of results is the second target of a call, which names no block. -/
theorem yields_setExpected (call : Nat) (count : Int64) :
    Yields (fun s => OpcodeAt call .call s.fn.proc.instrs) (setExpected call count)
      fun _ _ => True := by
  refine (yields_constant (fun _ instrs _ => OpcodeAt call .call instrs) _).bind
    fun k Γ s h ⟨hk, instr, hi, ho⟩ => ?_
  rw [ends_setTarget, if_pos (Array.getElem?_eq_some_iff.mp hi).1]
  refine ⟨h.withProc (h.laid.modify fun old hold => ⟨rfl, ?_⟩) (·.modify fun _ _ => rfl)
    (Nat.le_refl _) rfl h.pools, trivial⟩
  obtain rfl : old = instr := Option.some.inj (hold.symm.trans hi)
  have ht := h.laid.targets call old hi
  simp only [Instr.TargetsWithin, ho] at ht ⊢
  intro b hb
  rcases List.mem_or_eq_of_mem_set hb with hb | hb
  · exact ht b hb
  · exact hk b hb.symm

theorem keeps_keyClass (key : Operand) (ty : Ty) : Keeps (keyClass key ty) := by
  refine gives_of_unchanged fun s => ?_
  simp only [keyClass, ends_bind, ends_get]
  split <;> exact ⟨rfl, trivial⟩

theorem keeps_move (src : Operand) (tag : TypeTag) {dest : Operand} (hd : dest.IsData) :
    Keeps (move src tag dest) := by
  unfold move
  exact Gives.ite (fun _ => keeps_pure)
    fun _ => keeps_emit (inert_singleton (moveOpcode_isStraight _ _).1 hd)

end Values

section Scopes

variable (symbols : SymbolTable)

theorem keeps_symbol (id : SymbolId) : Keeps (symbol symbols id) := by
  refine gives_of_unchanged fun s => ?_
  unfold symbol
  split
  · exact ⟨rfl, trivial⟩
  · trivial

theorem keeps_lookupLocal (id : SymbolId) : Keeps (lookupLocal id) :=
  gives_of_unchanged fun _ => ⟨rfl, trivial⟩

theorem keeps_openScope : Keeps openScope := fun _ _ h _ => ⟨{ h with }, trivial⟩

theorem yields_closeScope (I : Array (List Nat) → Array Instr → Nat → Prop) :
    Yields (OnCode I) closeScope fun _ => OnCode I := by
  intro Γ s h hi
  refine (ends_closeScope s).mono ?_ fun _ _ _ => trivial
  rintro _ _ ⟨scopes, history, locals, -, rfl⟩
  exact ⟨{ h.sameCode (q := { s.fn.proc with locals }) rfl rfl rfl h.pools with }, hi⟩

theorem keeps_closeScope : Keeps closeScope := yields_closeScope fun _ _ _ => True

theorem gives_declareLocal (id : SymbolId) :
    Gives Operand.IsData (declareLocal symbols id) := by
  refine (keeps_symbol symbols id).bind fun sym Γ s h _ => ?_
  simp only [ends_bind, ends_onProc, ends_get]
  split
  · trivial
  · have h' := h.sameCode (q := s.fn.proc.allocLocal.1) rfl rfl rfl h.pools
    refine ⟨{ h' with }, ?_⟩
    simp [Operand.IsData]

end Scopes

section Turns

variable {Δ Θ : Setting} {x : Lower α} {f : α → Lower β} {o o' : Bool} {a b n : Nat}
  {pending rest : List Nat}

/-- From the one setting the action ends in the other. -/
def Turns (Γ Δ : Setting) (x : Lower α) : Prop :=
  ∀ ⦃s : LoweringState⦄, s.Within Γ → Ends x s (fun _ s' => s'.Within Δ) fun _ _ => True

theorem Turns.bind (hx : Turns Γ Δ x) (hf : ∀ a, Turns Δ Θ (f a)) : Turns Γ Θ (x >>= f) := by
  intro s h
  rw [ends_bind]
  exact (hx h).imp fun a s' h' => hf a h'

theorem Gives.turns_bind (hx : Gives P x) (hf : ∀ a, P a → Turns Γ Δ (f a)) :
    Turns Γ Δ (x >>= f) := by
  intro s h
  rw [ends_bind]
  exact (hx h trivial).imp fun a s' h' => hf a h'.2 h'.1

theorem Keeps.turns_bind (hx : Keeps x) (hf : ∀ a, Turns Γ Δ (f a)) : Turns Γ Δ (x >>= f) :=
  Gives.turns_bind hx fun a _ => hf a

theorem Keeps.turns (hx : Keeps x) : Turns Γ Γ x := fun _ h =>
  (hx h trivial).imp fun _ _ h' => h'.1

theorem keeps_of_turns (h : ∀ Γ : Setting, (∀ e ∈ Γ.exits, e < Γ.size) →
    Turns (Γ.waiting Γ.isOpen Γ.pending Γ.size) Γ x) : Keeps x := fun Γ _ hs _ =>
  (h Γ hs.exits_lt hs).imp fun _ _ h' => ⟨h', trivial⟩

theorem Turns.newBlock {f : Nat → Lower β}
    (h : ∀ b, n ≤ b → Turns (Γ.waiting o (b :: pending) (b + 1)) Δ (f b)) :
    Turns (Γ.waiting o pending n) Δ (newBlock >>= f) := by
  intro s hs
  rw [ends_bind, ends_newBlock]
  exact h _ hs.size_le (within_newBlock hs)

theorem turns_startBlock (hp : pending.Perm (b :: rest)) :
    Turns (Γ.waiting o pending n) (Γ.waiting true rest n) (startBlock b) := fun _ h =>
  (ends_startBlock h hp).imp fun _ _ h' => h'.1

/-- Starting the only block that waits more than before; the blocks created meanwhile may be
forgotten. -/
theorem turns_startLast (hn : Γ.size ≤ n) (he : ∀ e ∈ Γ.exits, e < Γ.size) :
    Turns (Γ.waiting o (b :: Γ.pending) n) Γ (startBlock b) := fun _ h =>
  (ends_startBlock h (List.Perm.refl _)).imp fun _ _ h' => { h'.1 with
    opened := fun _ => h'.1.opened rfl
    size_le := Nat.le_trans hn h'.1.size_le
    exits_lt := he }

theorem turns_cbr {operands : List Operand} (ha : a < n) (hb : b < n) :
    Turns (Γ.waiting o pending n) (Γ.waiting false pending n)
      (emit .cbr operands [.block a, .block b]) := fun _ h =>
  (ends_emit_terminator h rfl (targetsWithin_cbr (Nat.lt_of_lt_of_le ha h.size_le)
    (Nat.lt_of_lt_of_le hb h.size_le))).imp fun _ _ h' => h'.1

theorem turns_br (hb : b < n) :
    Turns (Γ.waiting o pending n) (Γ.waiting false pending n)
      (emit .br [] [.block b]) := fun _ h =>
  (ends_emit_terminator h rfl (targetsWithin_br (Nat.lt_of_lt_of_le hb h.size_le))).imp
    fun _ _ h' => h'.1

theorem turns_branchTo (hb : b < n) :
    Turns (Γ.waiting o pending n) (Γ.waiting false pending n) (branchTo b) := fun _ h =>
  (ends_branchTo h (Nat.lt_of_lt_of_le hb h.size_le)).imp fun _ _ h' => h'.1

/-- Breaks may lead to any block that exists. -/
theorem within_exit (h : s.Within (Γ.waiting o pending n)) (hb : b < n) :
    LoweringState.Within (Setting.waiting { Γ with exits := b :: Γ.exits } o pending n)
      { s with fn := { s.fn with exits := b :: s.fn.exits } } :=
  { h with
    exits_eq := congrArg (b :: ·) h.exits_eq
    exits_lt := List.forall_mem_cons.mpr ⟨hb, h.exits_lt⟩ }

end Turns

end Lower

end ScriptC
