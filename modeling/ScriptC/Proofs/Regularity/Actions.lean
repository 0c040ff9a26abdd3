import ScriptC.Proofs.Regularity.Steps

/-! # Actions on regular states

What an action adds to what is known, for every action that lowering is made of. In a regular state no
action breaks a contract: what is held can be returned, and what is named exists.
-/

namespace ScriptC

namespace Outlook

/-- The outlook with more operands, more temporaries to be returned, and other results at hand. -/
abbrev gain (K : Outlook) (os : List Operand) (temps : List (TempKind × Nat)) (G : Grants) : Outlook :=
  { K with held := temps ++ K.held, known := os ++ K.known, grants := G }

/-- The operands can be used where the results `G` are at hand. Results that were not at hand before
start at a temporary that is held. -/
structure Gained (K : Outlook) (os : List Operand) (temps : List (TempKind × Nat)) (G : Grants) :
    Prop where
  le : K.grants.Le G
  usable : ∀ o ∈ os, o.Usable G
  anchored : ∀ r, G r ≠ none → K.grants r ≠ none ∨ (.any, r) ∈ temps

/-- Instructions can follow: no number of results is open, and the block is not known to have
ended. -/
structure Active (K : Outlook) : Prop where
  open?_eq : K.open? = none
  phase : ∀ b, K.isOpen? = some b → b = true

/-- Evaluation can begin: all results at hand start at a temporary that is held. -/
structure Ready (K : Outlook) (L : List (List SymbolId)) : Prop extends K.Active where
  locals_eq : K.locals = L
  anchored : ∀ r, K.grants r ≠ none → (.any, r) ∈ K.held

/-- A branch finds at its target what is promised there. -/
def MayReach (K : Outlook) (b : Nat) : Prop := ∃ G, (b, G) ∈ K.joins ∧ G.Le K.grants

variable {K : Outlook} {L : List (List SymbolId)} {os os' : List Operand} {o : Operand}
  {temps temps' : List (TempKind × Nat)} {G G' : Grants}

theorem Gained.plain (ho : o.IsPlain) (temps : List (TempKind × Nat)) :
    K.Gained [o] temps K.grants where
  le := .refl _
  usable := List.forall_mem_singleton.mpr (ho.usable _)
  anchored _ hr := Or.inl hr

theorem Gained.nil (K : Outlook) : K.Gained [] [] K.grants where
  le := .refl _
  usable := List.forall_mem_nil _
  anchored _ hr := Or.inl hr

theorem Gained.trans (h : K.Gained os temps G) (h' : (K.gain os temps G).Gained os' temps' G') :
    K.Gained (os' ++ os) (temps' ++ temps) G' where
  le := h.le.trans h'.le
  usable o ho := by
    rcases List.mem_append.mp ho with ho | ho
    · exact h'.usable o ho
    · exact (h.usable o ho).mono h'.le
  anchored r hr := by
    rcases h'.anchored r hr with hr | hr
    · exact (h.anchored r hr).imp_right (List.mem_append_right _)
    · exact Or.inr (List.mem_append_left _ hr)

theorem Gained.mem (h : K.Gained os temps G) (ho : o ∈ os) : o ∈ os ++ K.known ∧ o.Usable G :=
  ⟨List.mem_append_left _ ho, h.usable o ho⟩

theorem Active.of_eq {K' : Outlook} (h : K.Active) (ho : K'.open? = K.open?)
    (hp : K'.isOpen? = K.isOpen?) : K'.Active where
  open?_eq := ho.trans h.open?_eq
  phase b hb := h.phase b (hp ▸ hb)

theorem Ready.gain (h : K.Ready L) (hG : K.Gained os temps G) : (K.gain os temps G).Ready L where
  locals_eq := h.locals_eq
  open?_eq := h.open?_eq
  phase := h.phase
  anchored r hr := by
    rcases hG.anchored r hr with hr | hr
    · exact List.mem_append_right _ (h.anchored r hr)
    · exact List.mem_append_left _ hr

end Outlook

theorem Operand.isData_temp (kind : TempKind) (r : Nat) : (temp kind r).IsData := by
  cases kind <;> exact nofun

namespace LoweringState

/-- What is held can be returned, and the blocks, the loads and the call that are known exist. If the
locale is watched, all that is known is borne out. -/
structure Regular (Λ : Locale) (K : Outlook) (s : LoweringState) : Prop where
  sound : s.Sound 0 0 Λ.current.id K.held
  joined : ∀ j ∈ K.joins, j.1 < s.fn.proc.blocks.size
  loaded : ∀ l ∈ K.loads, l.1 < s.fn.proc.instrs.size
  called : ∀ o ∈ K.open?, o.call < s.fn.proc.instrs.size
  proper : Λ.isWatched = true → s.Proper Λ K

namespace Proper

variable {Λ : Locale} {K : Outlook} {s : LoweringState}

/-- Other operands of the proc. -/
theorem learnAll (h : s.Proper Λ K) {os : List Operand}
    (hos : ∀ o ∈ os, o.Suits Λ.symbols Λ.function s.fn) :
    s.Proper Λ { K with known := os ++ K.known } where
  __ := h
  known := List.forall_mem_append.mpr ⟨hos, h.known⟩
  agrees := by
    obtain ⟨C, ha, hv⟩ := h.agrees
    exact ⟨C, ha, { hv with }⟩

/-- Whether the current block is open can be looked up. -/
theorem phased (h : s.Proper Λ K) {b : Bool} (hb : s.fn.proc.isTerminated s.fn.block = !b) :
    s.Proper Λ { K with isOpen? := some b } where
  __ := h
  phase _ hb' := Option.some.inj hb' ▸ hb
  agrees := by
    obtain ⟨C, ha, hv⟩ := h.agrees
    exact ⟨C, ha, { hv with }⟩

/-- A load that was just emitted. -/
theorem noteLoad (h : s.Proper Λ K) {load : Nat} {operands : List Operand}
    (hr : s.fn.proc.Reads load operands) :
    s.Proper Λ { K with loads := (load, operands) :: K.loads } where
  __ := h
  loads := List.forall_mem_cons.mpr ⟨hr, h.loads⟩
  agrees := by
    obtain ⟨C, ha, hv⟩ := h.agrees
    exact ⟨C, ha, { hv with }⟩

end Proper

namespace Regular

variable {Λ : Locale} {K K' : Outlook} {s s' : LoweringState}

theorem weaken (h : s.Regular Λ K) (hK : K.Covers K') : s.Regular Λ K' where
  sound := h.sound.perm hK.held
  joined j hj := h.joined j (hK.joins j hj)
  loaded l hl := h.loaded l (hK.loads l hl)
  called o ho := h.called o (hK.open?_eq ▸ ho)
  proper hw := (h.proper hw).weaken hK

/-- Whatever keeps a state sound keeps what exists. -/
theorem of_sound (h : s.Regular Λ K)
    (hs : ∀ b c, s.Sound b c Λ.current.id K.held → s'.Sound b c Λ.current.id K'.held)
    (hp : Λ.isWatched = true → s'.Proper Λ K')
    (ho : ∀ o ∈ K'.open?, o ∈ K.open? ∨ o.call < s'.fn.proc.instrs.size := by
      exact fun _ h => Or.inl h)
    (hj : ∀ j ∈ K'.joins, j ∈ K.joins := by exact fun _ h => h)
    (hl : ∀ l ∈ K'.loads, l ∈ K.loads := by exact fun _ h => h) : s'.Regular Λ K' where
  sound := hs 0 0 h.sound
  joined j hj' := (hs _ 0 { h.sound with blocks_le := h.joined j (hj j hj') }).blocks_le
  loaded l hl' := (hs 0 _ { h.sound with code_le := h.loaded l (hl l hl') }).code_le
  called o ho' := (ho o ho').elim
    (fun hm => (hs 0 _ { h.sound with code_le := h.called o hm }).code_le) id
  proper := hp

/-- Only the function, the module and the histories matter. -/
theorem of_eq (h : s.Regular Λ K) (hf : s'.fn = s.fn)
    (hm : s'.module = s.module ∧ s'.histories = s.histories) : s'.Regular Λ K :=
  h.of_sound (fun _ _ hs => hs.of_eq hf hm.1) fun hw => (h.proper hw).of_eq hf hm

/-- If only what is held is watched, it does not matter which locals are in scope and whether the
block has ended. -/
theorem of_unwatched (h : s.Regular Λ K) (hw : ¬ Λ.isWatched = true) (locals : List (List SymbolId))
    (isOpen? : Option Bool) : s.Regular Λ { K with locals, isOpen? } :=
  { h with proper := fun hw' => absurd hw' hw }

theorem learnAll (h : s.Regular Λ K) {os : List Operand}
    (hos : Λ.isWatched = true → ∀ o ∈ os, o.Suits Λ.symbols Λ.function s.fn) :
    s.Regular Λ { K with known := os ++ K.known } :=
  { h with proper := fun hw => (h.proper hw).learnAll (hos hw) }

theorem learn (h : s.Regular Λ K) {o : Operand}
    (ho : Λ.isWatched = true → o.Suits Λ.symbols Λ.function s.fn) :
    s.Regular Λ { K with known := o :: K.known } :=
  h.learnAll fun hw => List.forall_mem_singleton.mpr (ho hw)

theorem phased (h : s.Regular Λ K) {b : Bool} (hb : s.fn.proc.isTerminated s.fn.block = !b) :
    s.Regular Λ { K with isOpen? := some b } :=
  { h with proper := fun hw => (h.proper hw).phased hb }

theorem noteLoad (h : s.Regular Λ K) {load : Nat} {operands : List Operand}
    (hr : s.fn.proc.Reads load operands) :
    s.Regular Λ { K with loads := (load, operands) :: K.loads } := by
  obtain ⟨_, hi, -⟩ := id hr
  exact { h with
    loaded := List.forall_mem_cons.mpr ⟨(Array.getElem?_eq_some_iff.mp hi).1, h.loaded⟩
    proper := fun hw => (h.proper hw).noteLoad hr }

/-- An instruction was appended to the current block, which was opened if it had ended. -/
theorem emitted (h : s.Regular Λ K) {i : Instr} (hi : i.block = s.opened.fn.block)
    (hf : s'.fn = (s.opened.withProc (s.opened.fn.proc.appended s.opened.fn.block i)).fn)
    (hm : s'.module = s.module) {open? : Option OpenCall} {grants : Grants} {isOpen? : Option Bool}
    (ho : ∀ o ∈ open?, o.call = s.opened.fn.proc.instrs.size)
    (hp : Λ.isWatched = true → s'.Proper Λ { K with open?, grants, isOpen? }) :
    s'.Regular Λ { K with open?, grants, isOpen? } := by
  refine h.of_sound (fun _ _ hs => (hs.opened.appended i hi).of_eq hf hm) hp fun o ho' => Or.inr ?_
  rw [ho o ho', hf]
  show _ < (s.opened.fn.proc.instrs.push i).size
  simp

end Regular

end LoweringState

namespace Lower

open LoweringState

variable {α β : Type} {Λ : Locale} {K : Outlook} {L : List (List SymbolId)} {s : LoweringState}
  {Q : α → LoweringState → Prop}

/-- What follows from the state may be used. -/
theorem Leads.assume {P : LoweringState → Prop} {A : Prop} {x : Lower α} (hA : ∀ s, P s → A)
    (h : A → Leads P x Q) : Leads P x Q :=
  fun s hs => h (hA s hs) s hs

/-- An action that only looks at the state. -/
theorem leads_of_unchanged {x : Lower α} (h : ∀ s, Ends x s (fun _ s' => s' = s) fun _ _ => False)
    {P : LoweringState → Prop} : Leads P x fun _ => P :=
  fun s hs => (h s).mono (fun _ _ he => he ▸ hs) fun _ _ h' => h'.elim

section Emission

variable {opcode : Opcode} {operands targets : List Operand} {b : Nat}

/-- An instruction is appended, and a call is known with the registers of that moment. -/
theorem ends_emitId_regular (h : s.Regular Λ K) {Q : Nat → LoweringState → Prop}
    (hQ : ∀ s', s'.fn = (s.opened.withProc (s.opened.fn.proc.appended s.opened.fn.block
        ⟨opcode, operands, targets, s.opened.fn.block⟩)).fn →
      s'.module = s.module ∧ s'.histories = s.histories →
      (opcode = .call → ⟨operands, s'.fn.proc.anys⟩ ∈ s'.calls) →
      Q s.opened.fn.proc.instrs.size s') :
    Ends (emitId opcode operands targets) s Q Admissible := by
  rw [ends_emitId]
  simp only [append, ends_bind, ends_get, ends_tryProc, Proc.emit_eq,
    if_pos h.sound.opened.block_lt, ends_modifyStats]
  split
  · exact hQ _ rfl ⟨rfl, rfl⟩ fun _ => List.mem_cons_self
  · rename_i ho
    exact hQ _ rfl ⟨rfl, rfl⟩ fun hc => absurd hc ho

/-- An instruction that neither calls nor branches. -/
theorem leads_emitId (ho : opcode.IsStraight) (hK : K.Active)
    (hops : ∀ o ∈ operands, o ∈ K.known ∧ o.Usable K.grants)
    (ht : ∀ o ∈ targets, o ∈ K.known ∧ o.IsData) :
    Leads (Regular Λ K) (emitId opcode operands targets) fun j s =>
      s.fn.proc.Reads j operands ∧ Regular Λ K s := by
  intro s h
  refine ends_emitId_regular h fun s' hf hm _ => ⟨?_, h.emitted rfl hf hm.1 ?_ fun hw => ?_⟩
  · rw [hf]
    exact ⟨_, Array.getElem?_push_size, rfl⟩
  · rw [hK.open?_eq]
    exact nofun
  · obtain ⟨h', hopen⟩ := (h.proper hw).opened
    have hr := h'.step (i := ⟨opcode, operands, targets, s.opened.fn.block⟩) hopen rfl ho.1 ho.2
      (allows_of_none hK.open?_eq hops) (fun o ho' => (ht o ho').1) fun b hb => (ht _ hb).2 b rfl
    exact (hr.of_eq hf hm).weaken
      { Outlook.Covers.refl _ with
        open?_eq := hK.open?_eq, phase := fun b hb => congrArg some (hK.phase b hb).symm }

theorem leads_emit (ho : opcode.IsStraight) (hK : K.Active)
    (hops : ∀ o ∈ operands, o ∈ K.known ∧ o.Usable K.grants)
    (ht : ∀ o ∈ targets, o ∈ K.known ∧ o.IsData) :
    Leads (Regular Λ K) (emit opcode operands targets) fun _ => Regular Λ K := by
  intro s h
  rw [emit, ends_discard]
  exact (leads_emitId ho hK hops ht s h).imp fun _ _ h' => h'.2

theorem exits_opened (s : LoweringState) : s.opened.fn.exits = s.fn.exits := by
  unfold LoweringState.opened FunctionState.opened
  split <;> rfl

/-- A terminator whose targets can be reached: the end of the function, where a break leads, or a
block of which it is known what is at hand there. -/
theorem ends_emit_close (h : s.Regular Λ K) (ho : opcode.isTerminator = true)
    (hK : Allows K opcode operands) (ht : ∀ o ∈ targets, ∃ b, o = .block b ∧
      (Λ.isWatched = true → b = exitBlock ∨ b ∈ s.fn.exits ∨ K.MayReach b))
    (hw : ∀ n c, (∀ b, .block b ∈ targets → b < n) →
      Instr.TargetsWithin n ⟨opcode, operands, targets, c⟩) :
    Ends (emit opcode operands targets) s (fun _ =>
      Regular Λ { K with open? := none, grants := .nothing, isOpen? := some false })
      Admissible := by
  rw [emit, ends_discard]
  refine ends_emitId_regular h fun s' hf hm _ => h.emitted rfl hf hm.1 (by simp) fun hwatch => ?_
  obtain ⟨h', hopen⟩ := (h.proper hwatch).opened
  have hreach (b : Nat) (hb : .block b ∈ targets) :
      b = exitBlock ∨ b ∈ s.opened.fn.exits ∨ K.MayReach b := by
    obtain ⟨_, hb', hreach⟩ := ht _ hb
    cases hb'
    rw [exits_opened]
    exact hreach hwatch
  have hlt (b : Nat) (hb : .block b ∈ targets) : b < s.opened.fn.proc.blocks.size := by
    obtain ⟨C, -, hv⟩ := h'.agrees
    rcases hreach b hb with rfl | he | ⟨G, hG, -⟩
    · exact h'.laid.exit_lt
    · exact (hv.exits b he).1
    · exact (hv.joins _ hG).1
  have hr := h'.close (i := ⟨opcode, operands, targets, s.opened.fn.block⟩) hopen rfl ho
    (hw _ _ hlt) { hK with } (fun o ho' => (ht o ho').imp fun _ hb => hb.1)
    fun C ha hv b hb r c hc => by
      rcases hreach b hb with rfl | he | ⟨G, hG, hle⟩
      · simp [ha.entry_eq exitBlock (Or.inr (Or.inl rfl))] at hc
      · simp [(hv.exits b he).2] at hc
      · rw [(hv.joins _ hG).2.1 r] at hc
        obtain ⟨⟨c', n⟩, hc', rfl⟩ := Option.map_eq_some_iff.mp hc
        exact (hv.grants r c' n (hle r _ hc')).1
  exact hr.of_eq hf hm

theorem ends_br (h : s.Regular Λ K) (hK : K.open? = none)
    (hb : Λ.isWatched = true → b ∈ s.fn.exits ∨ K.MayReach b) :
    Ends (emit .br [] [.block b]) s (fun _ =>
      Regular Λ { K with grants := .nothing, isOpen? := some false }) Admissible := by
  refine (ends_emit_close h rfl (allows_of_none hK (List.forall_mem_nil _)) ?_ ?_).imp
    fun _ s' h' => h'.weaken { Outlook.Covers.refl _ with open?_eq := hK }
  · exact List.forall_mem_singleton.mpr ⟨b, rfl, fun hw => Or.inr (hb hw)⟩
  · exact fun n c hlt => ⟨b, hlt b List.mem_cons_self, rfl⟩

theorem leads_br (hK : K.open? = none) (hb : K.MayReach b) :
    Leads (Regular Λ K) (emit .br [] [.block b]) fun _ =>
      Regular Λ { K with grants := .nothing, isOpen? := some false } :=
  fun _ h => ends_br h hK fun _ => Or.inr hb

theorem leads_cbr {o : Operand} {a : Nat} (hK : K.open? = none) (ho : o ∈ K.known)
    (hu : o.Usable K.grants) (ha : K.MayReach a) (hb : K.MayReach b) :
    Leads (Regular Λ K) (emit .cbr [o] [.block a, .block b]) fun _ =>
      Regular Λ { K with grants := .nothing, isOpen? := some false } := by
  intro s h
  refine (ends_emit_close h rfl (allows_of_none hK (List.forall_mem_singleton.mpr ⟨ho, hu⟩)) ?_ ?_).imp
    fun _ s' h' => h'.weaken { Outlook.Covers.refl _ with open?_eq := hK }
  · refine List.forall_mem_cons.mpr ⟨⟨a, rfl, fun _ => Or.inr (Or.inr ha)⟩, ?_⟩
    exact List.forall_mem_singleton.mpr ⟨b, rfl, fun _ => Or.inr (Or.inr hb)⟩
  · exact fun n c hlt => ⟨a, hlt a (by simp), b, hlt b (by simp), rfl⟩

theorem leads_ret (hK : Allows K .ret operands) :
    Leads (Regular Λ K) (emit .ret operands [.block exitBlock]) fun _ =>
      Regular Λ { K with open? := none, grants := .nothing, isOpen? := some false } := by
  intro s h
  refine ends_emit_close h rfl hK ?_ fun _ _ _ => rfl
  exact List.forall_mem_singleton.mpr ⟨exitBlock, rfl, fun _ => Or.inl rfl⟩

/-- A call that asks for all of its results. -/
theorem leads_emitCall {base k : Nat} {args : List Operand} (hK : Allows K .call (.tempAny base :: args))
    (hbase : K.grants base = none) :
    Leads (fun s => s.fn.proc.constants.get? k = some (.integer (-1)) ∧ Regular Λ K s)
      (emitId .call (.tempAny base :: args) [.range base (-1), .constant k]) fun j s =>
        ⟨.tempAny base :: args, s.fn.proc.anys⟩ ∈ s.calls ∧
        Regular Λ { K with open? := some ⟨j, base, -1⟩, isOpen? := some true } s := by
  rintro s ⟨hk, h⟩
  refine ends_emitId_regular h fun s' hf hm hcall => ⟨hcall rfl, h.emitted rfl hf hm.1 ?_ fun hw => ?_⟩
  · rintro o ⟨⟩
    rfl
  · obtain ⟨h', hopen⟩ := (h.proper hw).opened
    have hk' : s.opened.fn.proc.constants.get? k = some (.integer (-1)) := by
      unfold LoweringState.opened FunctionState.opened
      split <;> exact hk
    exact (h'.call hopen rfl hk' { hK with } hbase).of_eq hf hm

end Emission

section Blocks

variable {b : Nat} {G : Grants}

theorem leads_newBlock_bind {f : Nat → Lower α} (hG : G.Le K.grants)
    (h : ∀ b, Leads (Regular Λ { K with pending := b :: K.pending, joins := (b, G) :: K.joins })
      (f b) Q) : Leads (Regular Λ K) (newBlock >>= f) Q := by
  intro s hs
  rw [ends_bind, ends_newBlock]
  refine h _ _ { hs with sound := ?_, joined := ?_, proper := fun hw => (hs.proper hw).newBlock hG }
  · exact hs.sound.newBlock.weaken (Nat.zero_le _) (Nat.le_refl _) (Nat.le_refl _)
  · have hlt := hs.sound.newBlock.blocks_le
    exact List.forall_mem_cons.mpr ⟨hlt, fun j hj => Nat.lt_trans (hs.joined j hj) hlt⟩

/-- A waiting block becomes current once the block before has ended. -/
theorem regular_enterBlock {rest : List Nat} (h : s.Regular Λ K)
    (ht : Λ.isWatched = true → s.fn.proc.isTerminated s.fn.block = true)
    (hp : K.pending.Perm (b :: rest)) (hb : (b, G) ∈ K.joins) :
    Regular Λ { K with pending := rest, grants := G, isOpen? := some true }
      { s with fn := { s.fn with block := b } } :=
  { h with
    sound := { h.sound with block_lt := h.joined _ hb }
    proper := fun hw => (h.proper hw).enterBlock (ht hw) hp hb }

/-- A block is started after one that has ended, or that it can be reached from. -/
theorem leads_startBlock {rest : List Nat} (hK : K.open? = none) (hp : K.pending.Perm (b :: rest))
    (hb : (b, G) ∈ K.joins) (hG : K.isOpen? = some false ∨ G.Le K.grants) :
    Leads (Regular Λ K) (startBlock b) fun _ =>
      Regular Λ { K with pending := rest, grants := G, isOpen? := some true } := by
  intro s h
  simp only [startBlock, ends_bind, ends_isTerminated]
  split
  · rename_i ht
    exact regular_enterBlock h (fun _ => ht) hp hb
  · rename_i ht
    have hopen : s.opened = s := by simp [LoweringState.opened, FunctionState.opened, ht]
    have hbr := ends_br h hK fun hw => Or.inr ⟨G, hb, hG.resolve_left fun ho => by
      simp [(h.proper hw).phase false ho] at ht⟩
    rw [emit, ends_discard, ends_emitId, hopen] at hbr
    rw [ends_bind, ends_discard]
    refine hbr.imp fun _ s' h' => ?_
    exact regular_enterBlock (K := { K with grants := .nothing, isOpen? := some false }) h'
      (fun hw => (h'.proper hw).phase false rfl) hp hb

theorem leads_branchTo (hK : K.open? = none) (hb : K.isOpen? = some false ∨ K.MayReach b) :
    Leads (Regular Λ K) (branchTo b) fun _ =>
      Regular Λ { K with grants := .nothing, isOpen? := some false } := by
  intro s h
  simp only [branchTo, ends_bind, ends_isTerminated]
  split
  · rename_i ht
    exact (h.phased (b := false) ht).weaken { Outlook.Covers.refl _ with
        grants := Grants.nothing_le _ }
  · rename_i ht
    refine ends_br h hK fun hw => Or.inr (hb.resolve_left fun ho => ?_)
    simp [(h.proper hw).phase false ho] at ht

end Blocks

section Registers

/-- Only the pools and the constants of the proc change. -/
theorem regular_withPools {q : Proc} {held : List (TempKind × Nat)} (h : s.Regular Λ K)
    (hb : q.blocks = s.fn.proc.blocks) (hi : q.instrs = s.fn.proc.instrs)
    (hq : s.fn.proc.SameHeader q) (hlocals : q.locals = s.fn.proc.locals)
    (hk : ∀ k c, s.fn.proc.constants.get? k = some c → q.constants.get? k = some c)
    (hnodup : s.fn.proc.constants.entries.toList.Nodup → q.constants.entries.toList.Nodup)
    (ht : ∀ kind, s.fn.proc.maxTemps kind ≤ q.maxTemps kind) (hh : q.Holds held) :
    (s.withProc q).Regular Λ { K with held } := by
  refine h.of_sound (fun _ _ hs => hs.withProc (by rw [hb]) (Nat.le_of_eq (by rw [hi])) ?_ hq.id_eq hh
    hlocals) fun hw => ?_
  · rw [hi]
    exact hs.instr_block
  · exact (h.proper hw).withPools hb hi hq hlocals hk (hnodup (h.proper hw).constants) ht

theorem regular_setPool (kind : TempKind) {r : Registers} {held : List (TempKind × Nat)}
    (h : s.Regular Λ K) (hr : (s.fn.proc.pool kind).next ≤ r.next)
    (hh : (s.fn.proc.setPool kind r).Holds held) :
    (s.withProc (s.fn.proc.setPool kind r)).Regular Λ { K with held } := by
  have hcode : s.fn.proc.SameCode (s.fn.proc.setPool kind r) := Proc.sameCode_setPool
  refine regular_withPools h hcode.blocks hcode.instrs ?_ ?_ ?_ ?_ (fun k => ?_) hh
  · cases kind <;> exact ⟨rfl, rfl, rfl, rfl, rfl, rfl⟩
  · cases kind <;> rfl
  · rw [hcode.constants]
    exact fun _ _ hk => hk
  · rw [hcode.constants]
    exact id
  · rw [Proc.maxTemps, Proc.maxTemps, Proc.pool_setPool]
    split
    · rename_i hk
      exact hk ▸ hr
    · exact Nat.le_refl _

theorem leads_allocTemp_bind (kind : TempKind) {f : Operand → Lower α}
    (h : ∀ r, Leads (Regular Λ (K.gain [.temp kind r] (Operand.temp kind r).temps K.grants))
      (f (.temp kind r)) Q) : Leads (Regular Λ K) (allocTemp kind >>= f) Q := by
  intro s hs
  rw [ends_bind, allocTemp, ends_onProc]
  refine h _ _ ?_
  have hr := regular_setPool kind hs (Registers.next_le_alloc (s.fn.proc.pool kind))
    (hs.sound.temps.allocTemp kind)
  have hlt := (hs.sound.temps.wellFormed kind).lt_alloc
  refine hr.learn fun _ => ?_
  cases kind <;> exact ⟨hlt, trivial⟩

theorem regular_freed {o : Operand} {held : List (TempKind × Nat)} (h : s.Regular Λ K)
    (hK : K.held = o.temps ++ held) : (s.withProc (s.fn.proc.freed o)).Regular Λ { K with held } := by
  have hh := h.sound.temps
  rw [hK] at hh
  have hf := hh.freeTemp.2
  unfold Proc.freed at hf ⊢
  split at hf
  · exact regular_setPool _ h (Nat.le_refl _) hf
  · have : held = K.held := by
      rename_i ho
      rw [hK, Operand.temps, ho]
      rfl
    subst this
    exact h

theorem leads_free (o : Operand) {held : List (TempKind × Nat)} (hK : K.held = o.temps ++ held) :
    Leads (Regular Λ K) (free o) fun _ => Regular Λ { K with held } := by
  intro s h
  have hh := h.sound.temps
  rw [hK] at hh
  rw [ends_free_live fun _ _ => hh.live_owned]
  exact regular_freed h hK

theorem leads_freeAll (os : List Operand) {held : List (TempKind × Nat)}
    (hK : K.held = tempsOf os ++ held) :
    Leads (Regular Λ K) (freeAll os) fun _ => Regular Λ { K with held } := by
  have hI := meets_forM (E := Admissible) (f := free)
    (I := fun l => Regular Λ { K with held := l.flatMap Operand.temps ++ held })
    (fun o l => leads_free o (by simp)) os.reverse
  refine hI.pre fun s h => ?_
  have he : K.held = os.reverse.flatMap Operand.temps ++ held := hK
  rwa [← he]

/-- What is returned after a call is no longer in the way of its results. -/
theorem leads_freeAll_roofed {base : Nat} (os : List Operand) {held : List (TempKind × Nat)}
    (hK : K.held = tempsOf os ++ held) :
    Leads (fun s => s.Roofed base (tempsOf os) ∧ Regular Λ K s) (freeAll os)
      fun _ s => s.Roofed base [] ∧ Regular Λ { K with held } s := by
  have hI := meets_forM (E := Admissible) (f := free) (I := fun l s =>
    s.Roofed base (l.flatMap Operand.temps) ∧
      Regular Λ { K with held := l.flatMap Operand.temps ++ held } s) (fun o l s hs => ?_) os.reverse
  · refine hI.pre fun s h => ⟨h.1, ?_⟩
    have he : K.held = os.reverse.flatMap Operand.temps ++ held := hK
    rw [← he]
    exact h.2
  · obtain ⟨hr, h⟩ := hs
    rw [List.flatMap_cons, List.append_assoc] at h
    rw [ends_free_live fun _ _ => h.sound.temps.live_owned]
    exact ⟨roofed_freed hr, regular_freed (K := { K with held := o.temps ++ (l.flatMap Operand.temps ++ held) }) h rfl⟩

theorem leads_constant (c : Constant) :
    Leads (Regular Λ K) (constant c) fun o s => ∃ k, o = .constant k ∧
      s.fn.proc.constants.get? k = some c ∧ Regular Λ (K.gain [.constant k] [] K.grants) s := by
  intro s h
  have hget := s.fn.proc.constants.get?_intern c
  have hr : (s.withProc (s.fn.proc.intern c).1).Regular Λ
      (K.gain [.constant (s.fn.proc.constants.intern c).2.1] [] K.grants) := by
    have hpools : (s.withProc (s.fn.proc.intern c).1).Regular Λ { K with held := K.held } := by
      refine regular_withPools h rfl rfl ⟨rfl, rfl, rfl, rfl, rfl, rfl⟩ rfl
        Proc.extends_intern.constants (fun hn => ConstantPool.nodup_intern hn c) (fun kind => ?_) ?_
      · cases kind <;> exact Nat.le_refl _
      · exact h.sound.temps.of_pool_eq (by funext kind; cases kind <;> rfl)
    exact hpools.learn fun _ => ⟨trivial, trivial⟩
  simp only [constant, ends_bind, ends_onProc]
  split
  · exact ⟨_, rfl, hget, hr.of_eq rfl ⟨rfl, rfl⟩⟩
  · exact ⟨_, rfl, hget, hr⟩

theorem leads_constant_bind (c : Constant) {f : Operand → Lower α}
    (h : ∀ k, Leads (Regular Λ (K.gain [.constant k] [] K.grants)) (f (.constant k)) Q) :
    Leads (Regular Λ K) (constant c >>= f) Q := by
  refine (leads_constant c).bind fun o s hs => ?_
  obtain ⟨k, rfl, -, hr⟩ := hs
  exact h k s hr

theorem leads_move {src dest : Operand} (tag : TypeTag) (hK : K.Active) (hs : src ∈ K.known)
    (hu : src.Usable K.grants) (hd : dest ∈ K.known) (hdata : dest.IsData) :
    Leads (Regular Λ K) (move src tag dest) fun _ => Regular Λ K := by
  unfold move
  split
  · exact meets_pure fun _ h => h
  · exact leads_emit (moveOpcode_isStraight _ _) hK (List.forall_mem_singleton.mpr ⟨hs, hu⟩)
      (List.forall_mem_singleton.mpr ⟨hd, hdata⟩)

theorem leads_valueTag (o : Operand) (declared : TypeTag) :
    Leads (Regular Λ K) (valueTag o declared) fun _ => Regular Λ K := by
  refine leads_of_unchanged fun s => ?_
  unfold valueTag
  split <;> try rfl
  simp only [ends_bind, ends_get]
  split <;> rfl

theorem leads_keyClass (k : Operand) (ty : Ty) :
    Leads (Regular Λ K) (keyClass k ty) fun _ => Regular Λ K := by
  refine leads_of_unchanged fun s => ?_
  simp only [keyClass, ends_bind, ends_get]
  split <;> rfl

end Registers

section Results

variable {call base : Nat} {count : Int64}

/-- The open call asks for another number of results. -/
theorem leads_ask (ho : K.open? = some ⟨call, base, count⟩) (count' : Int64) :
    Leads (Regular Λ K) (setExpected call count') fun _ =>
      Regular Λ { K with open? := some ⟨call, base, count'⟩ } := by
  refine (leads_constant (.integer count')).bind fun _ s hs => ?_
  obtain ⟨k, rfl, hk, h⟩ := hs
  have hlt := h.called ⟨call, base, count⟩ ho
  rw [ends_setTarget, if_pos hlt]
  have hr : Regular Λ { K.gain [.constant k] [] K.grants with open? := some ⟨call, base, count'⟩ }
      (s.withProc { s.fn.proc with instrs := s.fn.proc.instrs.modify call fun i =>
        { i with targets := i.targets.set 1 (.constant k) } }) := by
    refine h.of_sound (fun _ _ hs => hs.modify call fun _ => rfl)
      (fun hw => (h.proper hw).ask (o := ⟨call, base, count⟩) ho hk) ?_
    rintro o ⟨⟩
    exact Or.inr (Nat.lt_of_lt_of_eq hlt Array.size_modify.symm)
  exact hr.weaken { Outlook.Covers.refl _ with known := fun _ => List.mem_cons_of_mem _ }

/-- It is settled how many results of the open call are taken. -/
theorem regular_settle {n : Nat} (ho : K.open? = some ⟨call, base, Int64.ofNat n⟩)
    (h : s.Regular Λ K) (hroom : Λ.isWatched = true → base + n ≤ s.fn.proc.anys.next) :
    Regular Λ { K with open? := none, grants := Function.update K.grants base (some (call, n)) } s :=
  { h with
    called := nofun
    proper := fun hw => (h.proper hw).settle (o := ⟨call, base, Int64.ofNat n⟩) ho rfl (hroom hw) }

/-- At most one result of the open call is taken. -/
theorem leads_settle (ho : K.open? = some ⟨call, base, count⟩) (hb : .range base (-1) ∈ K.known)
    {n : Nat} (hn : n ≤ 1) :
    Leads (Regular Λ K) (setExpected call (Int64.ofNat n)) fun _ =>
      Regular Λ { K with
        open? := none, grants := Function.update K.grants base (some (call, n)) } := by
  refine (leads_ask ho _).post fun _ s h =>
    regular_settle (K := { K with open? := some ⟨call, base, Int64.ofNat n⟩ }) rfl h fun hw => ?_
  have hlt : base < s.fn.proc.anys.next := ((h.proper hw).known _ hb).1
  omega

/-- The register above one that is held can be claimed if nothing above that is live. -/
theorem leads_reserve {b : Nat} (hK : (.any, b) ∈ K.held) :
    Leads (fun s => s.Roofed b [] ∧ Regular Λ K s)
      (tryProc fun p => return (← p.reserveTemp (b + 1), ())) fun _ s =>
        s.Roofed (b + 1) [] ∧ Regular Λ { K with held := (.any, b + 1) :: K.held } s := by
  rintro s ⟨hr, h⟩
  have ht := Registers.take_succ (p := s.fn.proc.anys) (h.sound.temps.wellFormed .any)
    (h.sound.temps.live _ hK)
  rw [ends_tryProc, Proc.reserveTemp]
  cases hq : s.fn.proc.anys.take (b + 1) with
  | ok q =>
    rw [hq] at ht
    obtain ⟨-, -, hlive⟩ := ht
    refine ⟨?_, regular_setPool .any h (Registers.next_le_take hq) (h.sound.temps.reserve hK hq)⟩
    refine hr.imp_right fun hr x hx => Or.inl ?_
    rcases (hlive x).mp hx with hx | rfl
    · have := (hr x hx).resolve_right (by simp)
      omega
    · exact Nat.le_refl _
  | error e =>
    rw [hq] at ht
    cases e with
    | overflow => exact ht
    | alreadyLive r =>
      rcases hr with hc | hr
      · exact hc
      · have := (hr _ ht).resolve_right (by simp)
        omega
    | _ => exact ht.elim

theorem leads_reserveAll (b n : Nat) (hK : (.any, b) ∈ K.held) :
    Leads (fun s => s.Roofed b [] ∧ Regular Λ K s)
      ((List.range' (b + 1) n).forM fun reg => tryProc fun p => return (← p.reserveTemp reg, ()))
      fun _ => Regular Λ { K with
        held := tempsOf ((List.range' (b + 1) n).map .tempAny) ++ K.held } := by
  induction n generalizing b K with
  | zero => exact meets_pure fun _ h => h.2
  | succ n ih =>
    refine (leads_reserve hK).bind fun _ => (ih (b + 1) List.mem_cons_self).post fun _ s h => ?_
    rw [List.range'_succ, List.map_cons, tempsOf_cons, List.append_assoc]
    exact h

end Results

section Scopes

variable {scope : List SymbolId} {rest : List (List SymbolId)}

theorem leads_symbol_bind (symbols : SymbolTable) (id : SymbolId) {f : Symbol → Lower α}
    {P : LoweringState → Prop} (h : ∀ sym, symbols.get? id = some sym → Leads P (f sym) Q) :
    Leads P (symbol symbols id >>= f) Q := by
  unfold symbol
  cases hs : symbols.get? id with
  | none => exact leads_refuse
  | some sym => exact h sym hs

theorem leads_lookupLocal_bind (id : SymbolId) {f : Option Nat → Lower α}
    (h : ∀ reg?, (Λ.isWatched = true → reg? = ScriptC.register? K.locals.flatten id) →
      Leads (Regular Λ K) (f reg?) Q) : Leads (Regular Λ K) (lookupLocal id >>= f) Q := by
  intro s hs
  simp only [lookupLocal, ends_bind, ends_get, ends_pure]
  refine h _ (fun hw => ?_) s hs
  rw [(hs.proper hw).situated.numbered_eq, lookup_numbered]

theorem leads_openScope :
    Leads (Regular Λ K) openScope fun _ => Regular Λ { K with locals := [] :: K.locals } :=
  fun _ h => h.of_sound (fun _ _ hs => { hs with }) fun hw => (h.proper hw).openScope

/-- The locals that are still to be returned are those of a scope. -/
theorem leads_freeLocal (entry : SymbolId × Nat) (entries : List (SymbolId × Nat)) :
    Leads (fun s => Regular Λ { K with locals := (entry :: entries).map Prod.fst :: rest }
        (s.scoped (entry :: entries)))
      (tryProc fun p => return (← p.freeLocal entry.2, ())) fun _ s =>
        Regular Λ { K with locals := entries.map Prod.fst :: rest } (s.scoped entries) := by
  intro s h
  have hl : s.fn.proc.locals.Holds
      (entry.2 :: (entries :: s.fn.scopes).flatten.map Prod.snd) := h.sound.locals
  rw [ends_tryProc, Proc.freeLocal, hl.release.1]
  refine h.of_sound (fun _ _ hs => { hs with temps := ?_, locals := hl.release.2 })
    fun hw => (h.proper hw).undeclared
  exact hs.temps.of_pool_eq (by funext kind; cases kind <;> rfl)

theorem leads_closeScope (hK : K.locals = scope :: rest) :
    Leads (Regular Λ K) closeScope fun _ => Regular Λ { K with locals := rest } := by
  intro s h
  have hscopes (hw : Λ.isWatched = true) : s.fn.scopes.map (·.map Prod.fst) = scope :: rest :=
    (h.proper hw).situated.scopes_eq.trans hK
  simp only [closeScope, ends_bind, ends_get]
  cases hs : s.fn.scopes with
  | nil =>
    refine { h with proper := fun hw => ?_ }
    simp [hs] at hscopes
    simp [hscopes] at hw
  | cons entries scopes =>
    have hentries (hw : Λ.isWatched = true) : entries.map Prod.fst = scope := by
      have he := hscopes hw
      rw [hs] at he
      exact (List.cons.inj he).1
    simp only [ends_bind, ends_modifyFn]
    refine (meets_forM (E := Admissible) (I := fun l s =>
      Regular Λ { K with locals := l.map Prod.fst :: rest } (s.scoped l))
      (fun entry l => leads_freeLocal entry l) entries _ ?_).imp fun _ s' h' => ?_
    · have hnoted : Regular Λ K
          { s with fn := { s.fn with history := scopes.flatten :: s.fn.history } } := by
        refine h.of_sound (fun _ _ h' => { h' with }) fun hw => (h.proper hw).noted
          (l := rest.flatten) ?_ (hK ▸ List.suffix_append _ _)
        have hn := (h.proper hw).situated.numbered_eq
        rw [hs, hK, List.flatten_cons, List.flatten_cons, ← hentries hw] at hn
        rw [← drop_numbered (entries.map Prod.fst) rest.flatten, ← hn]
        simp
      have hfn : (LoweringState.scoped { s with fn := { s.fn with
          scopes, history := scopes.flatten :: s.fn.history } } entries).fn =
            { s.fn with history := scopes.flatten :: s.fn.history } := by
        simp only [LoweringState.scoped, ← hs]
      by_cases hw : Λ.isWatched = true
      · rw [hentries hw, ← hK]
        exact hnoted.of_eq hfn ⟨rfl, rfl⟩
      · exact (hnoted.of_eq hfn ⟨rfl, rfl⟩).of_unwatched hw _ K.isOpen?
    · exact h'.of_sound (fun _ _ hs => { hs with }) fun hw => (h'.proper hw).dropScope

theorem leads_declareLocal_bind (id : SymbolId) (hK : K.locals = scope :: rest)
    (ha : Λ.function.Admits (id :: (scope :: rest).flatten)) {f : Operand → Lower α}
    (h : ∀ name reg tag, Leads (Regular Λ { K with
        locals := (id :: scope) :: rest
        known := .symbol (.localVar name reg tag) :: K.known }) (f (.symbol (.localVar name reg tag))) Q) :
    Leads (Regular Λ K) (declareLocal Λ.symbols id >>= f) Q := by
  rw [declareLocal, bind_assoc]
  refine leads_symbol_bind Λ.symbols id fun sym hsym s hs => ?_
  simp only [bind_assoc, ends_bind, ends_onProc, ends_get]
  cases he : s.fn.scopes with
  | nil =>
    simp only [LoweringState.withProc, he]
    exact leads_invalid (P := fun _ => True) rfl _ trivial
  | cons entries scopes =>
    simp only [LoweringState.withProc, he, ends_bind, ends_modifyFn, ends_pure]
    refine h _ _ _ _ (hs.of_sound (fun _ _ h' => ?_)
      fun hw => (hs.proper hw).declared hK he hsym ha)
    have hl := h'.locals.alloc
    rw [he] at hl
    exact { h' with
      temps := h'.temps.of_pool_eq (by funext kind; cases kind <;> rfl)
      locals := hl }

end Scopes

/-- A load turns into a store. Other loads stay what they are. -/
theorem leads_turnIntoStore {load : Nat} {operands : List Operand} {value : Operand} (hK : K.Active)
    (hl : (load, operands) ∈ K.loads)
    (hops : ∀ o ∈ operands ++ [value], o ∈ K.known ∧ o.Usable K.grants)
    {rest : List (Nat × List Operand)} (hrest : ∀ l ∈ rest, l ∈ K.loads ∧ l.1 ≠ load) :
    Leads (Regular Λ K) (turnIntoStore load value) fun _ => Regular Λ { K with loads := rest } := by
  intro s h
  have hlt : load < s.fn.proc.instrs.size := h.loaded _ hl
  -- The load exists, so it can be moved to the current block.
  have hmove {b c : Nat} (hs : s.Sound b c Λ.current.id K.held) (opcode : Opcode) :=
    ((Sound.opened { hs with code_le := Nat.max_le.mpr ⟨hs.code_le, hlt⟩ }).modify load (f := fun i =>
      { i with opcode, operands := i.operands ++ [value], targets := [] }) fun _ => rfl).relocate
      (Nat.le_max_right c (load + 1))
  have hlt' : load < s.opened.fn.proc.instrs.size :=
    (Sound.opened { h.sound with code_le := hlt }).code_le
  simp only [turnIntoStore, ends_bind, ends_ensureOpen, ends_get, Array.getElem?_eq_getElem hlt']
  split
  · rename_i opcode hop
    obtain ⟨q, hq, -⟩ := hmove h.sound opcode
    simp only [ends_bind, ends_onProc, ends_tryProc, ends_modifyStats, withProc_proc, withProc_block]
      at hq ⊢
    rw [hq]
    have hr : Regular Λ { K with loads := rest } (s.opened.withProc q) := by
      refine h.of_sound (fun _ _ hs => ?_) (fun hw => ?_) (fun _ => Or.inl) (fun _ hj => hj)
        fun l hl => (hrest l hl).1
      · obtain ⟨q', hq', hs'⟩ := hmove hs opcode
        obtain rfl : q = q' := Except.ok.inj (hq.symm.trans hq')
        exact (hs'.weaken (Nat.le_refl _) (Nat.le_max_left _ _) (Nat.le_refl _)).of_eq rfl rfl
      · obtain ⟨h', hopen⟩ := (h.proper hw).opened
        obtain ⟨i, hi, rfl⟩ := h'.loads _ hl
        rw [Array.getElem?_eq_getElem hlt', Option.some.injEq] at hi
        subst hi
        exact (h'.turn hopen (Array.getElem?_eq_getElem hlt') hop hK.open?_eq hops hq hrest).weaken
          { Outlook.Covers.refl _ with phase := fun b hb => congrArg some (hK.phase b hb).symm }
    exact hr.of_eq rfl ⟨rfl, rfl⟩
  · trivial

end Lower

end ScriptC
