import ScriptC.Proofs.Policies.Upkeep

/-! # Code that stays

Evaluating an expression appends instructions. Of those that were there before it changes none,
since the only instructions that are changed later are the calls it made itself.
-/

namespace ScriptC

/-- The instructions of `code` are still what they were. -/
structure LoweringState.Retains (code : Array Instr) (s : LoweringState) : Prop where
  size_le : code.size ≤ s.fn.proc.instrs.size
  getElem?_eq : ∀ i < code.size, s.fn.proc.instrs[i]? = code[i]?

namespace LoweringState.Retains

variable {code : Array Instr} {s s' : LoweringState}

theorem refl (s : LoweringState) : s.Retains s.fn.proc.instrs := ⟨Nat.le_refl _, fun _ _ => rfl⟩

theorem of_eq (h : s.Retains code) (he : s'.fn.proc.instrs = s.fn.proc.instrs) :
    s'.Retains code := by
  constructor
  · rw [he]
    exact h.size_le
  · rw [he]
    exact h.getElem?_eq

theorem trans (h : s.Retains code) (h' : s'.Retains s.fn.proc.instrs) : s'.Retains code := by
  constructor
  · exact Nat.le_trans h.size_le h'.size_le
  · intro i hi
    rw [h'.getElem?_eq i (Nat.lt_of_lt_of_le hi h.size_le), h.getElem?_eq i hi]

theorem push (h : s.Retains code) {instr : Instr}
    (he : s'.fn.proc.instrs = s.fn.proc.instrs.push instr) : s'.Retains code := by
  constructor
  · rw [he, Array.size_push]
    exact Nat.le_succ_of_le h.size_le
  · intro i hi
    rw [he, Array.getElem?_push_lt (Nat.lt_of_lt_of_le hi h.size_le), ← h.getElem?_eq i hi,
      Array.getElem?_eq_getElem (Nat.lt_of_lt_of_le hi h.size_le)]

theorem modify (h : s.Retains code) {j : Nat} {f : Instr → Instr} (hj : code.size ≤ j)
    (he : s'.fn.proc.instrs = s.fn.proc.instrs.modify j f) : s'.Retains code := by
  constructor
  · rw [he, Array.size_modify]
    exact h.size_le
  · intro i hi
    rw [he, Array.getElem?_modify, if_neg (by omega), h.getElem?_eq i hi]

theorem getElem?_eq_some (h : s.Retains code) {i : Nat} {instr : Instr}
    (hi : code[i]? = some instr) : s.fn.proc.instrs[i]? = some instr := by
  rw [h.getElem?_eq i (Array.getElem?_eq_some_iff.mp hi).1, hi]

end LoweringState.Retains

namespace Lower

variable {s : LoweringState} {code : Array Instr}

theorem instrs_opened (s : LoweringState) : s.opened.fn.proc.instrs = s.fn.proc.instrs := by
  unfold LoweringState.opened FunctionState.opened
  split <;> rfl

theorem ends_emitId_fresh (opcode : Opcode) (operands targets : List Operand)
    (s : LoweringState) : Ends (emitId opcode operands targets) s (fun id s' =>
      s'.fn.proc.constants = s.fn.proc.constants ∧
        ∃ b, s'.fn.proc.instrs[id]? = some ⟨opcode, operands, targets, b⟩) fun _ _ => True := by
  have hs : s.opened.fn.proc.constants = s.fn.proc.constants := by
    unfold LoweringState.opened FunctionState.opened
    split <;> rfl
  rw [ends_emitId]
  refine ends_append_proc.imp ?_
  rintro _ s' ⟨-, rfl, -, hproc, -⟩
  rw [hproc]
  exact ⟨hs, _, Array.getElem?_push_size⟩

section Policy

open Policy

/-- The instructions of `code` are to stay. What comes later may be changed. -/
abbrev retention (code : Array Instr) : Policy :=
  .keeping (·.Retains code) (fun _ => True) (code.size ≤ ·)

variable {P : Prop} {α : Type} {Q : α → Prop} {x : Lower α}

theorem observes_retention (h : ∀ s, Ends x s (fun a s' => s'.fn.proc.instrs = s.fn.proc.instrs ∧ Q a)
      fun _ _ => True) : (retention code).Observes P x Q :=
  observes_keeping fun s _ hs => (h s).imp fun _ _ h' => ⟨hs.of_eq h'.1, h'.2⟩

theorem observes_retention_tryProc {g : Proc → Except Breach Proc}
    (h : ∀ p q, g p = .ok q → q.instrs = p.instrs) :
    (retention code).Observes P (tryProc fun q => return (← g q, ())) fun _ => True :=
  observes_keeping_tryProc fun _ _ _ hs hg => hs.of_eq (h _ _ hg)

theorem observes_retention_turnIntoStore {load : Nat} {value : Operand} (h : P → code.size ≤ load) :
    (retention code).Observes P (turnIntoStore load value) fun _ => True := by
  refine observes_keeping fun s hP hs => ?_
  refine (ends_turnIntoStore load value s).imp ?_
  rintro _ s' ⟨_, _, -, -, hinstrs, -⟩
  exact ⟨(hs.of_eq (instrs_opened s)).modify (h hP) hinstrs, trivial⟩

/-- No lowering changes the code that was there before. -/
theorem lawful_retention (code : Array Instr) (symbols : SymbolTable) :
    Lawful symbols (fun _ => True) fun _ : Unit => retention code where
  owns _ _ _ := trivial
  modifyFn _ _ hg := observes_retention fun s => ⟨congrArg Proc.instrs (hg s.fn), trivial⟩
  newBlock _ := observes_retention fun _ => ⟨rfl, trivial⟩
  append _ _ opcode operands targets _ := by
    refine observes_keeping fun s _ hs => ?_
    refine ends_append_proc.imp ?_
    rintro _ s' ⟨-, rfl, -, hproc, -⟩
    exact ⟨hs.push (by rw [hproc]; rfl), hs.size_le⟩
  allocTemp _ kind := observes_retention fun _ => ⟨by cases kind <;> rfl, trivial⟩
  free _ _ _ _ := observes_retention_tryProc fun _ _ hf => by
    rcases Proc.freeTemp_ok hf with ⟨-, rfl⟩ | ⟨kind, _, _, -, -, rfl⟩
    · rfl
    · cases kind <;> rfl
  reserveTemp _ _ := observes_retention_tryProc fun _ _ ht => by
    obtain ⟨regs, rfl⟩ := Proc.reserveTemp_ok ht
    rfl
  constant _ _ := observes_retention fun _ => by
    simp only [constant, ends_bind, ends_onProc]
    split <;> exact ⟨rfl, trivial⟩
  setTarget _ _ _ _ k h := observes_keeping_tryProc fun _ _ hP hs ht => by
    rw [Proc.setTarget_ok ht]
    exact hs.modify (f := fun i => { i with targets := i.targets.set 1 k }) (h hP).1 rfl
  turnIntoStore _ _ _ _ _ h := observes_retention_turnIntoStore fun hP => (h hP).1
  allocLocal _ := observes_retention fun _ => ⟨rfl, trivial⟩
  freeLocal _ _ := observes_retention_tryProc fun _ _ ht => by
    obtain ⟨regs, rfl⟩ := Proc.freeLocal_ok ht
    rfl
  function _ f body _ := observes_get_bind fun _ => observes_retention fun s =>
    (ends_function_fn symbols f _ body s).imp fun _ _ h => ⟨by rw [h], trivial⟩

theorem evaluates_retention (code : Array Instr) (symbols : SymbolTable) (e : Expr) :
    Evaluates symbols (fun _ => True) (fun _ : Unit => retention code) e :=
  (lawful_retention code symbols).treeCases.expr e fun _ _ => trivial

end Policy

end Lower

end ScriptC
