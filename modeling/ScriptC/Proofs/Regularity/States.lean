import ScriptC.Proofs.Results.Agreement
import ScriptC.Proofs.Safety.Actions
import ScriptC.Proofs.Scoping.Placements
import ScriptC.Proofs.Scoping.Registers

/-! # Proper states

What lowering knows about the function at hand between two actions: which operands can be read, which
results of calls are at hand, what holds where a waiting block begins, and which locals are in scope.
A state is proper if its code agrees with a certificate and bears this out, if every operand of an
instruction is one of the proc, and if all procs that are finished have the same properties.
-/

namespace ScriptC

section Operands

/-- For a register, a call that has left its results from there on, and how many are taken. -/
abbrev Grants := Nat → Option (Nat × Nat)

namespace Grants

def nothing : Grants := fun _ => none

def Le (G H : Grants) : Prop := ∀ r x, G r = some x → H r = some x

variable {G H J : Grants}

theorem Le.refl (G : Grants) : G.Le G := fun _ _ h => h

theorem Le.trans (h : G.Le H) (h' : H.Le J) : G.Le J := fun r x hr => h' r x (h r x hr)

theorem nothing_le (G : Grants) : nothing.Le G := nofun

/-- A register whose results were not at hand may get some. -/
theorem le_update {r : Nat} (h : G r = none) (x : Option (Nat × Nat)) :
    G.Le (Function.update G r x) := by
  intro q y hq
  rw [Function.update_of_ne, hq]
  rintro rfl
  simp [h] at hq

end Grants

namespace Operand

/-- The operand is no result of a call, or one that is at hand. -/
structure Usable (G : Grants) (o : Operand) : Prop where
  closed : o.isOpenRange = Bool.false
  granted : ∀ r k, o.result? = some (r, k) → ∃ c n, G r = some (c, n) ∧ k < n

/-- The operand is no result of a call, and owns the register of the stack that it names. -/
structure IsPlain (o : Operand) : Prop where
  closed : o.isOpenRange = Bool.false
  result : o.result? = none
  whole : o.stackRegister? = o.generic?

variable {G H : Grants} {o : Operand}

theorem Usable.mono (h : o.Usable G) (hG : G.Le H) : o.Usable H where
  closed := h.closed
  granted r k hr := by
    obtain ⟨c, n, hc, hk⟩ := h.granted r k hr
    exact ⟨c, n, hG r _ hc, hk⟩

theorem IsPlain.usable (h : o.IsPlain) (G : Grants) : o.Usable G where
  closed := h.closed
  granted r k hr := by simp [h.result] at hr

theorem isPlain_temp (kind : TempKind) (r : Nat) : (temp kind r).IsPlain := by
  cases kind <;> exact ⟨rfl, rfl, rfl⟩

end Operand

/-- The function reads an upvalue by a symbol with this name, index and type. -/
def Function.ReadsUpvalue (f : Function) (symbols : SymbolTable) (name : String) (index : Nat)
    (tag : TypeTag) : Prop :=
  ∃ id locals ty target k, (Use.variable id, locals) ∈ f.uses ∧
    symbols.get? id = some ⟨name, ty, .upvalue target k⟩ ∧ k.toNat = index ∧ ty.tag = tag

/-- The operand names registers of the proc, or an upvalue that its function reads. -/
def Operand.Fits (symbols : SymbolTable) (f : Function) (p : Proc) : Operand → Prop
  | symbol (.localVar _ reg _) => reg < p.numLocals
  | symbol (.upvalue name index tag) => f.ReadsUpvalue symbols name index tag
  | tempInt r => r < p.maxTemps .int
  | tempFloat r => r < p.maxTemps .float
  | tempAny r | range r _ | select r _ => r < p.maxTemps .any
  | _ => True

theorem Operand.Fits.mono {symbols : SymbolTable} {f : Function} {p q : Proc} {o : Operand}
    (h : o.Fits symbols f p) (hl : p.numLocals ≤ q.numLocals)
    (ht : ∀ kind, p.maxTemps kind ≤ q.maxTemps kind) : o.Fits symbols f q := by
  unfold Fits at h ⊢
  split at h
  · exact Nat.lt_of_lt_of_le h hl
  · exact h
  · exact Nat.lt_of_lt_of_le h (ht .int)
  · exact Nat.lt_of_lt_of_le h (ht .float)
  · exact Nat.lt_of_lt_of_le h (ht .any)
  · exact Nat.lt_of_lt_of_le h (ht .any)
  · exact Nat.lt_of_lt_of_le h (ht .any)
  · trivial

/-- The operand is one of the function at hand. -/
def Operand.Suits (symbols : SymbolTable) (f : Function) (fn : FunctionState) (o : Operand) : Prop :=
  o.Fits symbols f fn.proc ∧ o.Bound symbols fn.history

theorem Operand.Suits.withProc {symbols : SymbolTable} {f : Function} {fn : FunctionState} {q : Proc}
    {o : Operand} (h : o.Suits symbols f fn) (hl : fn.proc.numLocals ≤ q.numLocals)
    (ht : ∀ kind, fn.proc.maxTemps kind ≤ q.maxTemps kind) :
    o.Suits symbols f { fn with proc := q } :=
  ⟨h.1.mono hl ht, h.2⟩

end Operands

/-- What every proc has once its function is lowered. -/
structure Proc.Finished (symbols : SymbolTable) (f : Function) (p : Proc) : Prop where
  code : ∀ i ∈ p.instrs, ∀ o ∈ i.operands ++ i.targets, o.Fits symbols f p
  exit_empty : p.ids exitBlock = []
  listed : p.Listed
  agrees : ∃ C c, p.Agrees C c none
  constants : p.constants.entries.toList.Nodup
  temps : p.Holds []
  locals_free : p.locals.free = List.range p.numLocals

/-- The instruction with this id reads these operands. -/
def Proc.Reads (p : Proc) (j : Nat) (operands : List Operand) : Prop :=
  ∃ i, p.instrs[j]? = some i ∧ i.operands = operands

section Places

/-- What a proc has besides its code and its registers is the same. -/
structure Proc.SameHeader (p q : Proc) : Prop where
  id_eq : q.id = p.id
  parent_eq : q.parent = p.parent
  upvalues_eq : q.upvalues = p.upvalues
  name_eq : q.name = p.name
  params_eq : q.params = p.params
  isVararg_eq : q.isVararg = p.isVararg

theorem Proc.Heads.of_same {p q : Proc} {f : Function} (h : p.Heads f) (hq : p.SameHeader q) :
    q.Heads f :=
  ⟨hq.name_eq.trans h.name_eq, hq.params_eq.trans h.params_eq, hq.isVararg_eq.trans h.isVararg_eq⟩

/-- A function whose lowering was begun. -/
structure Opening where
  id : Nat
  parent : Option Nat
  here : Placement

/-- The function at hand and those that enclose it. -/
structure Locale where
  symbols : SymbolTable
  main : Function
  current : Opening
  enclosing : List Opening
  upvalues : List Upvalue
  /-- Whether the code is watched too, and not only what is held. -/
  isWatched : Bool := true

def Locale.openings (Λ : Locale) : List Opening := Λ.current :: Λ.enclosing

def Locale.function (Λ : Locale) : Function := Λ.current.here.function

/-- Every proc so far is the code of a function of the tree, or will be once its function is
lowered. -/
structure Module.Populated (m : Module) (symbols : SymbolTable) (main : Function)
    (openings : List Opening) (placements : List Placement) : Prop where
  assigned : m.Assigned symbols main placements (openings.map (·.id))
  placed : ∀ o ∈ openings, placements[o.id]? = some o.here
  header : ∀ o ∈ openings, ∃ p, m.procs[o.id]? = some p ∧ p.parent = o.parent
  finished : ∀ (i : Nat) (p : Proc) (pl : Placement), m.procs[i]? = some p →
    placements[i]? = some pl → p.Finished symbols pl.function

/-- The history of every proc that is finished tells the registers of its locals. -/
def Module.Recorded (m : Module) (histories : List (Nat × History)) (symbols : SymbolTable)
    (openings : List Opening) (placements : List Placement) : Prop :=
  ∀ (i : Nat) (p : Proc) (pl : Placement), m.procs[i]? = some p → placements[i]? = some pl →
    i ∉ openings.map (·.id) → ∃ history, histories.lookup i = some history ∧
      p.Numbers symbols pl.function history

/-- The state is at the function of the locale, with these locals in scope. -/
structure LoweringState.Situated (Λ : Locale) (locals : List (List SymbolId)) (s : LoweringState) :
    Prop where
  function_eq : s.fn.function = Λ.function.id
  captures_eq : s.fn.captures = Λ.current.here.captures
  id_eq : s.fn.proc.id = Λ.current.id
  parent_eq : s.fn.proc.parent = Λ.current.parent
  upvalues_eq : s.fn.proc.upvalues = Λ.upvalues
  heads : s.fn.proc.Heads Λ.function
  scopes_eq : s.fn.scopes.map (·.map Prod.fst) = locals
  numbered_eq : s.fn.scopes.flatten = numbered locals.flatten
  length_le : locals.flatten.length ≤ s.fn.proc.numLocals
  free_eq : s.fn.proc.locals.free =
    List.range' locals.flatten.length (s.fn.proc.numLocals - locals.flatten.length)
  enclosing_lt : ∀ o ∈ Λ.enclosing, o.id < Λ.current.id
  chronicle : Chronicle Λ.function locals.flatten s.fn.history s.fn.proc.numLocals
  populated : ∃ placements, s.module.Populated Λ.symbols Λ.main Λ.openings placements ∧
    s.module.Recorded s.histories Λ.symbols Λ.openings placements

namespace LoweringState.Situated

variable {Λ : Locale} {locals : List (List SymbolId)} {s : LoweringState}

theorem withProc {q : Proc} (h : s.Situated Λ locals) (hq : s.fn.proc.SameHeader q)
    (hlocals : q.locals = s.fn.proc.locals) : (s.withProc q).Situated Λ locals where
  __ := h
  id_eq := hq.id_eq.trans h.id_eq
  parent_eq := hq.parent_eq.trans h.parent_eq
  upvalues_eq := hq.upvalues_eq.trans h.upvalues_eq
  heads := h.heads.of_same hq
  length_le := by
    show _ ≤ q.locals.next
    rw [hlocals]
    exact h.length_le
  free_eq := by
    show q.locals.free = List.range' _ (q.locals.next - _)
    rw [hlocals]
    exact h.free_eq
  chronicle := by
    show Chronicle _ _ _ q.locals.next
    rw [hlocals]
    exact h.chronicle

end LoweringState.Situated

end Places

/-- What is known between two actions. -/
structure Outlook where
  /-- Temporaries to be returned later. -/
  held : List (TempKind × Nat)
  /-- Operands of the proc. -/
  known : List Operand
  grants : Grants
  /-- The call just made, if the number of its results is open. -/
  open? : Option OpenCall
  /-- Whether the current block is open, if that is known. -/
  isOpen? : Option Bool
  /-- Blocks that wait for their instructions. -/
  pending : List Nat
  /-- Blocks with the results that are at hand where they begin. -/
  joins : List (Nat × Grants)
  locals : List (List SymbolId)
  /-- Loads with what they read. -/
  loads : List (Nat × List Operand)

namespace LoweringState

/-- What the code leaves behind at the point where it continues. -/
def standing (s : LoweringState) (C : Certificate) : Standing :=
  if s.fn.proc.isTerminated s.fn.block then ⟨fun _ => none, none⟩
  else s.fn.proc.standing C s.fn.block (s.fn.proc.ids s.fn.block)

/-- The certificate bears out what is known. -/
structure Vouches (s : LoweringState) (C : Certificate) (K : Outlook) : Prop where
  grants : ∀ r c n, K.grants r = some (c, n) →
    (s.standing C).origins r = some c ∧ C.taken c = some n
  joins : ∀ j ∈ K.joins, j.1 < s.fn.proc.blocks.size ∧
    (∀ r, C.entry j.1 r = (j.2 r).map Prod.fst) ∧ ∀ r c n, j.2 r = some (c, n) → C.taken c = some n
  exits : ∀ b ∈ s.fn.exits, b < s.fn.proc.blocks.size ∧ C.entry b = fun _ => none

structure Proper (Λ : Locale) (K : Outlook) (s : LoweringState) : Prop where
  laid : s.fn.proc.Laid s.fn.block K.pending
  phase : ∀ b, K.isOpen? = some b → s.fn.proc.isTerminated s.fn.block = !b
  listed : s.fn.proc.Listed
  code : ∀ i ∈ s.fn.proc.instrs, ∀ o ∈ i.operands ++ i.targets,
    o.Suits Λ.symbols Λ.function s.fn
  known : ∀ o ∈ K.known, o.Suits Λ.symbols Λ.function s.fn
  loads : ∀ l ∈ K.loads, s.fn.proc.Reads l.1 l.2
  constants : s.fn.proc.constants.entries.toList.Nodup
  agrees : ∃ C, s.fn.proc.Agrees C s.fn.block K.open? ∧ s.Vouches C K
  situated : s.Situated Λ K.locals

end LoweringState

/-- What is known in `K'` is known in `K`. -/
structure Outlook.Covers (K K' : Outlook) : Prop where
  held : K.held.Perm K'.held
  known : ∀ o ∈ K'.known, o ∈ K.known
  grants : K'.grants.Le K.grants
  open?_eq : K'.open? = K.open?
  phase : ∀ b, K'.isOpen? = some b → K.isOpen? = some b
  pending : K.pending.Perm K'.pending
  joins : ∀ j ∈ K'.joins, j ∈ K.joins
  locals_eq : K'.locals = K.locals
  loads : ∀ l ∈ K'.loads, l ∈ K.loads

theorem Outlook.Covers.refl (K : Outlook) : K.Covers K where
  held := .refl _
  known _ h := h
  grants := .refl _
  open?_eq := rfl
  phase _ h := h
  pending := .refl _
  joins _ h := h
  locals_eq := rfl
  loads _ h := h

namespace Proc

variable {p q : Proc} {C : Certificate} {c : Nat} {open? : Option OpenCall}

/-- Only an open call leaves its results behind unsettled. -/
theorem Agrees.open?_eq (h : p.Agrees C c open?) :
    (p.standing C c (p.ids c)).open? = open?.map (·.base) := by
  cases open? with
  | none => exact h.settled c (Or.inr rfl)
  | some o =>
    obtain ⟨_, -, hs⟩ := h.standing_unsettled
    rw [hs]
    rfl

/-- The block of an open call has not ended. -/
theorem Agrees.not_terminated {o : OpenCall} (h : p.Agrees C c (some o)) :
    p.isTerminated c = false := by
  obtain ⟨⟨start, hs⟩, -, i, hi, hc, -⟩ := h.unsettled o rfl
  simp [isTerminated_eq, hs, isEnd, hi, hc, Opcode.isTerminator]

/-- No call is open once the block has ended. -/
theorem Agrees.open?_eq_none_of_terminated (h : p.Agrees C c open?)
    (ht : p.isTerminated c = true) : open? = none := by
  cases open? with
  | none => rfl
  | some o => simp [h.not_terminated] at ht

theorem Laid.opened {pending : List Nat} (h : p.Laid c pending) (ht : p.isTerminated c = true) :
    p.newBlock.1.Laid p.blocks.size pending :=
  h.newBlock.start (by simpa using h.isTerminated_iff.mp ht)

theorem Reads.of_instr {j : Nat} {operands : List Operand} (h : p.Reads j operands)
    (hi : ∀ i, p.instrs[j]? = some i → q.instrs[j]? = some i) : q.Reads j operands := by
  obtain ⟨i, hp, hr⟩ := h
  exact ⟨i, hi i hp, hr⟩

end Proc

namespace LoweringState

variable {Λ : Locale} {K K' : Outlook} {s s' : LoweringState} {C : Certificate}

theorem standing_of_not_terminated (s : LoweringState)
    (h : s.fn.proc.isTerminated s.fn.block = false) :
    s.standing C = s.fn.proc.standing C s.fn.block (s.fn.proc.ids s.fn.block) := by
  simp [standing, h]

theorem standing_of_terminated (h : s.fn.proc.isTerminated s.fn.block = true) :
    s.standing C = ⟨fun _ => none, none⟩ := by
  simp [standing, h]

/-- Only the function matters. -/
theorem Vouches.of_eq (h : s.Vouches C K) (hf : s'.fn = s.fn) : s'.Vouches C K where
  grants := by
    rw [standing, hf]
    exact h.grants
  joins := hf ▸ h.joins
  exits := hf ▸ h.exits

/-- A proc with as many blocks keeps what is known where they begin. -/
theorem Vouches.withProc {q : Proc} (h : s.Vouches C K)
    (hsize : q.blocks.size = s.fn.proc.blocks.size) (hjoins : K'.joins = K.joins)
    (hgrants : ∀ r c n, K'.grants r = some (c, n) →
      ((s.withProc q).standing C).origins r = some c ∧ C.taken c = some n) :
    (s.withProc q).Vouches C K' where
  grants := hgrants
  joins := by
    rw [hjoins, withProc_proc, hsize]
    exact h.joins
  exits := by
    rw [withProc_proc, hsize]
    exact h.exits

namespace Proper

theorem weaken (h : s.Proper Λ K) (hK : K.Covers K') : s.Proper Λ K' where
  laid := h.laid.of_perm hK.pending
  phase b hb := h.phase b (hK.phase b hb)
  listed := h.listed
  code := h.code
  known o ho := h.known o (hK.known o ho)
  loads l hl := h.loads l (hK.loads l hl)
  constants := h.constants
  agrees := by
    obtain ⟨C, ha, hv⟩ := h.agrees
    refine ⟨C, hK.open?_eq ▸ ha, fun r c n hr => hv.grants r c n (hK.grants r _ hr),
      fun j hj => hv.joins j (hK.joins j hj), hv.exits⟩
  situated := hK.locals_eq ▸ h.situated

/-- Only the function, the module and the histories matter. -/
theorem of_eq (h : s.Proper Λ K) (hf : s'.fn = s.fn)
    (hm : s'.module = s.module ∧ s'.histories = s.histories) : s'.Proper Λ K := by
  constructor
  · exact hf ▸ h.laid
  · exact hf ▸ h.phase
  · exact hf ▸ h.listed
  · exact hf ▸ h.code
  · exact hf ▸ h.known
  · exact hf ▸ h.loads
  · exact hf ▸ h.constants
  · obtain ⟨C, ha, hv⟩ := h.agrees
    exact ⟨C, hf ▸ ha, hv.of_eq hf⟩
  · obtain ⟨h₁, h₂, h₃, h₄, h₅, h₆, h₇, h₈, h₉, h₁₀, h₁₁, h₁₂, h₁₃⟩ := h.situated
    exact ⟨hf ▸ h₁, hf ▸ h₂, hf ▸ h₃, hf ▸ h₄, hf ▸ h₅, hf ▸ h₆, hf ▸ h₇, hf ▸ h₈, hf ▸ h₉, hf ▸ h₁₀,
      h₁₁, hf ▸ h₁₂, hm.1 ▸ hm.2 ▸ h₁₃⟩

/-- Only the pools and the constants of the proc change. -/
theorem withPools {q : Proc} {held : List (TempKind × Nat)} (h : s.Proper Λ K)
    (hb : q.blocks = s.fn.proc.blocks) (hi : q.instrs = s.fn.proc.instrs)
    (hq : s.fn.proc.SameHeader q) (hlocals : q.locals = s.fn.proc.locals)
    (hk : ∀ k c, s.fn.proc.constants.get? k = some c → q.constants.get? k = some c)
    (hnodup : q.constants.entries.toList.Nodup)
    (ht : ∀ kind, s.fn.proc.maxTemps kind ≤ q.maxTemps kind) :
    (s.withProc q).Proper Λ { K with held } := by
  have hids : q.ids = s.fn.proc.ids := by funext b; simp only [Proc.ids, hb]
  have hend : q.isEnd = s.fn.proc.isEnd := by funext i; simp only [Proc.isEnd, hi]
  have hterm : q.isTerminated s.fn.block = s.fn.proc.isTerminated s.fn.block := by
    rw [Proc.isTerminated_eq, Proc.isTerminated_eq, hids, hend]
  have hnum : s.fn.proc.numLocals ≤ q.numLocals :=
    Nat.le_of_eq (congrArg Registers.next hlocals.symm)
  have hstand : ∀ C, (s.withProc q).standing C = s.standing C := by
    intro C
    simp only [standing, withProc, hterm, hids, Proc.standing_of_instrs hi]
  constructor
  · exact h.laid.of_eq hb hi
  · intro b hb'
    exact hterm.trans (h.phase b hb')
  · exact h.listed.of_eq hb hi
  · intro i hi' o ho
    exact (h.code i (hi ▸ hi') o ho).withProc hnum ht
  · intro o ho
    exact (h.known o ho).withProc hnum ht
  · intro l hl
    exact (h.loads l hl).of_instr fun i hp => hi ▸ hp
  · exact hnodup
  · obtain ⟨C, ha, hv⟩ := h.agrees
    refine ⟨C, ha.of_code hb hi hk (ht .any), hv.withProc (congrArg Array.size hb) rfl ?_⟩
    rw [hstand]
    exact hv.grants
  · exact h.situated.withProc hq hlocals

/-- The current block can be opened if it has ended. -/
theorem opened (h : s.Proper Λ K) :
    s.opened.Proper Λ { K with isOpen? := some true } ∧
      s.opened.fn.proc.IsOpen s.opened.fn.block := by
  by_cases ht : s.fn.proc.isTerminated s.fn.block = true
  · have hs : s.opened = { s with fn := { s.fn with
        proc := s.fn.proc.newBlock.1, block := s.fn.proc.blocks.size } } := by
      simp [LoweringState.opened, FunctionState.opened, ht]
    have hopen : s.fn.proc.newBlock.1.IsOpen s.fn.proc.blocks.size := by
      simp [Proc.IsOpen, Proc.ids_of_size_le]
    have hsize : s.fn.proc.newBlock.1.blocks.size = s.fn.proc.blocks.size + 1 := Array.size_push _
    refine ⟨?_, hs ▸ hopen⟩
    obtain ⟨C, ha, hg, hj, he⟩ := h.agrees
    have hnone := ha.open?_eq_none_of_terminated ht
    have hstand : s.opened.standing C = ⟨fun _ => none, none⟩ := by
      rw [hs]
      refine (standing_of_not_terminated _ hopen.isTerminated).trans ?_
      rw [Proc.ids_newBlock, Proc.ids_of_size_le (Nat.le_refl _), Proc.standing_nil,
        ha.entry_eq _ (Or.inr (Or.inr (Nat.le_refl _)))]
    rw [hs] at hstand ⊢
    constructor
    · exact h.laid.opened ht
    · rintro b ⟨⟩
      exact hopen.isTerminated
    · exact h.listed.newBlock
    · exact h.code
    · exact h.known
    · exact h.loads
    · exact h.constants
    · refine ⟨C, ?_, ?_, fun j hj' => ?_, fun b hb => ?_⟩
      · rw [hnone] at ha ⊢
        exact ha.newBlock.start _
      · intro r c n hr
        have hempty := (hg r c n hr).1
        rw [standing_of_terminated ht] at hempty
        cases hempty
      · exact ⟨Nat.lt_of_lt_of_le (hj j hj').1 (by simp [hsize]), (hj j hj').2⟩
      · exact ⟨Nat.lt_of_lt_of_le (he b hb).1 (by simp [hsize]), (he b hb).2⟩
    · exact { h.situated with
        heads := h.situated.heads.of_same ⟨rfl, rfl, rfl, rfl, rfl, rfl⟩ }
  · have hopen := h.laid.isOpen_of_not_terminated ht
    have hs : s.opened = s := by simp [LoweringState.opened, FunctionState.opened, ht]
    rw [hs]
    refine ⟨{ h with phase := ?_, agrees := ?_ }, hopen⟩
    · rintro b ⟨⟩
      exact hopen.isTerminated
    · obtain ⟨C, ha, hv⟩ := h.agrees
      exact ⟨C, ha, { hv with }⟩

/-- Another module may stand beside the function. -/
theorem withModule (h : s.Proper Λ K) (hf : s'.fn = s.fn)
    (hp : ∃ placements, s'.module.Populated Λ.symbols Λ.main Λ.openings placements ∧
      s'.module.Recorded s'.histories Λ.symbols Λ.openings placements) :
    s'.Proper Λ K := by
  have hr : Proper Λ K { s' with module := s.module, histories := s.histories } :=
    h.of_eq hf ⟨rfl, rfl⟩
  exact { hr with
    agrees := by
      obtain ⟨C, ha, hv⟩ := hr.agrees
      exact ⟨C, ha, hv.of_eq rfl⟩
    situated := { hr.situated with populated := hp } }

end Proper

end LoweringState

end ScriptC
