import Mathlib.Tactic.Common
import ScriptC.Lowering

/-! # Runs of lowering actions

A run of an action either succeeds with a result or fails, and leaves a state behind in both cases.
What is known about both outcomes is computed from the end of the action to its start.
-/

namespace ScriptC

/-- The state with another proc at hand. -/
def LoweringState.withProc (s : LoweringState) (p : Proc) : LoweringState :=
  { s with fn := { s.fn with proc := p } }

/-- The function with its current block open: after a terminator, with a fresh one. -/
def FunctionState.opened (fn : FunctionState) : FunctionState :=
  if fn.proc.isTerminated fn.block then
    { fn with proc := fn.proc.newBlock.1, block := fn.proc.blocks.size }
  else fn

def LoweringState.opened (s : LoweringState) : LoweringState := { s with fn := s.fn.opened }

/-- Only the locals differ, and the history of `s` goes on. -/
def LoweringState.SameButLocals (s s' : LoweringState) : Prop :=
  ∃ scopes history locals, s.fn.history <:+ history ∧
    s' = { s with fn := { s.fn with scopes, history, proc := { s.fn.proc with locals } } }

namespace Lower

variable {α β : Type} {s : LoweringState} {Q : α → LoweringState → Prop}
  {E : Failure → LoweringState → Prop}

/-- From `s`, success of `x` ends in `Q` and failure in `E`. -/
def Ends (x : Lower α) (s : LoweringState) (Q : α → LoweringState → Prop)
    (E : Failure → LoweringState → Prop) : Prop :=
  match x s with
  | .ok a s' => Q a s'
  | .error e s' => E e s'

theorem Ends.mono {x : Lower α} {Q' : α → LoweringState → Prop}
    {E' : Failure → LoweringState → Prop} (h : Ends x s Q E) (hQ : ∀ a s', Q a s' → Q' a s')
    (hE : ∀ e s', E e s' → E' e s') : Ends x s Q' E' := by
  unfold Ends at h ⊢
  cases hx : x s with
  | ok a s' => exact hQ _ _ (by simpa [hx] using h)
  | error e s' => exact hE _ _ (by simpa [hx] using h)

/-- What is known about failure stays. -/
theorem Ends.imp {x : Lower α} {Q' : α → LoweringState → Prop} (h : Ends x s Q E)
    (hQ : ∀ a s', Q a s' → Q' a s') : Ends x s Q' E :=
  h.mono hQ fun _ _ he => he

theorem Ends.and {x : Lower α} {Q' : α → LoweringState → Prop}
    {E' : Failure → LoweringState → Prop} (h : Ends x s Q E) (h' : Ends x s Q' E') :
    Ends x s (fun a s' => Q a s' ∧ Q' a s') fun e s' => E e s' ∧ E' e s' := by
  unfold Ends at h h' ⊢
  cases hx : x s with
  | ok a s' => exact ⟨by simpa [hx] using h, by simpa [hx] using h'⟩
  | error e s' => exact ⟨by simpa [hx] using h, by simpa [hx] using h'⟩

theorem Ends.of_ok {x : Lower α} {a : α} {s' : LoweringState} (h : Ends x s Q E)
    (hx : x s = .ok a s') : Q a s' := by
  simpa [Ends, hx] using h

theorem Ends.of_error {x : Lower α} {e : Failure} {s' : LoweringState} (h : Ends x s Q E)
    (hx : x s = .error e s') : E e s' := by
  simpa [Ends, hx] using h

theorem ends_run {α : Type} (x : Lower α) (s : LoweringState) :
    Ends x s (fun a s' => x s = .ok a s') fun _ _ => True := by
  unfold Ends
  cases x s <;> trivial

/-- A run with a result ends in a state. -/
theorem exists_run {x : Lower α} (h : (EStateM.run' x s).isSome = true) :
    ∃ a s', x s = .ok a s' := by
  cases hx : x s with
  | ok a s' => exact ⟨a, s', rfl⟩
  | error e s' =>
    delta EStateM.run' EStateM.run at h
    rw [hx] at h
    cases h

section Primitives

@[simp] theorem ends_pure {a : α} : Ends (pure a) s Q E ↔ Q a s := Iff.rfl

@[simp] theorem ends_bind {x : Lower α} {f : α → Lower β} {Q : β → LoweringState → Prop} :
    Ends (x >>= f) s Q E ↔ Ends x s (fun a s' => Ends (f a) s' Q E) E := by
  simp only [Ends, bind, EStateM.bind]
  cases x s <;> rfl

@[simp] theorem ends_map {x : Lower α} {g : α → β} {Q : β → LoweringState → Prop} :
    Ends (g <$> x) s Q E ↔ Ends x s (fun a s' => Q (g a) s') E := by
  simp only [Ends, Functor.map, EStateM.map]
  cases x s <;> rfl

@[simp] theorem ends_discard {x : Lower α} {Q : Unit → LoweringState → Prop} :
    Ends (discard x) s Q E ↔ Ends x s (fun _ s' => Q () s') E := by
  simp only [Functor.discard, Functor.mapConst]
  simp only [Ends, Function.comp, EStateM.map]
  cases x s <;> rfl

@[simp] theorem ends_get {Q : LoweringState → LoweringState → Prop} :
    Ends get s Q E ↔ Q s s := Iff.rfl

@[simp] theorem ends_throw {e : Failure} : Ends (throw e) s Q E ↔ E e s := Iff.rfl

@[simp] theorem ends_modify {g : LoweringState → LoweringState} {Q : Unit → LoweringState → Prop} :
    Ends (modify g) s Q E ↔ Q () (g s) := Iff.rfl

@[simp] theorem ends_modifyFn {g : FunctionState → FunctionState}
    {Q : Unit → LoweringState → Prop} :
    Ends (modifyFn g) s Q E ↔ Q () { s with fn := g s.fn } := Iff.rfl

@[simp] theorem ends_modifyStats {g : Stats → Stats} {Q : Unit → LoweringState → Prop} :
    Ends (modifyStats g) s Q E ↔ Q () { s with stats := g s.stats } := Iff.rfl

@[simp] theorem ends_onProc {f : Proc → Proc × α} :
    Ends (onProc f) s Q E ↔ Q (f s.fn.proc).2 (s.withProc (f s.fn.proc).1) := Iff.rfl

theorem ends_tryProc {f : Proc → Except Breach (Proc × α)} :
    Ends (tryProc f) s Q E ↔
      match f s.fn.proc with
      | .ok (p, a) => Q a (s.withProc p)
      | .error b => E (.stopped b) s := by
  simp only [tryProc, ends_bind, ends_get]
  cases f s.fn.proc <;> rfl

theorem ends_setTarget {i k : Nat} {o : Operand} {Q : Unit → LoweringState → Prop} :
    Ends (tryProc fun p => return (← p.setTarget i k o, ())) s Q E ↔
      if i < s.fn.proc.instrs.size then
        Q () (s.withProc { s.fn.proc with instrs := s.fn.proc.instrs.modify i fun instr =>
          { instr with targets := instr.targets.set k o } })
      else E (.stopped .outOfBounds) s := by
  rw [ends_tryProc]
  by_cases hi : i < s.fn.proc.instrs.size
  · simp only [Proc.setTarget, if_pos hi]
    rfl
  · simp only [Proc.setTarget, if_neg hi]
    rfl

@[simp] theorem ends_invalid {reason : Reason} :
    Ends (invalid reason : Lower α) s Q E ↔ E (.invalid s.fn.proc.id reason) s := Iff.rfl

@[simp] theorem ends_isTerminated {Q : Bool → LoweringState → Prop} :
    Ends isTerminated s Q E ↔ Q (s.fn.proc.isTerminated s.fn.block) s := Iff.rfl

@[simp] theorem ends_newBlock {Q : Nat → LoweringState → Prop} :
    Ends newBlock s Q E ↔ Q s.fn.proc.blocks.size (s.withProc s.fn.proc.newBlock.1) := Iff.rfl

@[simp] theorem ends_ensureOpen {Q : Unit → LoweringState → Prop} :
    Ends ensureOpen s Q E ↔ Q () s.opened := by
  simp only [ensureOpen, ends_bind, ends_isTerminated, LoweringState.opened, FunctionState.opened]
  split <;> simp [LoweringState.withProc]

@[simp] theorem ends_emitId {opcode : Opcode} {operands targets : List Operand}
    {Q : Nat → LoweringState → Prop} :
    Ends (emitId opcode operands targets) s Q E ↔
      Ends (append opcode operands targets) s.opened Q E := by
  simp only [emitId, ends_bind, ends_ensureOpen]

@[simp] theorem ends_emit {opcode : Opcode} {operands targets : List Operand}
    {Q : Unit → LoweringState → Prop} :
    Ends (emit opcode operands targets) s Q E ↔
      Ends (append opcode operands targets) s.opened (fun _ s' => Q () s') E := by
  simp only [emit, ends_discard, ends_emitId]

theorem ends_ite {c : Prop} [Decidable c] {x y : Lower α} :
    Ends (if c then x else y) s Q E ↔ (c → Ends x s Q E) ∧ (¬ c → Ends y s Q E) := by
  split <;> rename_i h <;> simp [h]

end Primitives

theorem ends_closeScope (s : LoweringState) :
    Ends closeScope s (fun _ => s.SameButLocals) fun _ => s.SameButLocals := by
  have hloop : ∀ (scope : List (SymbolId × Nat)) (s' : LoweringState), s.SameButLocals s' →
      Ends (scope.forM fun x => tryProc fun p => return (← p.freeLocal x.2, ())) s'
        (fun _ => s.SameButLocals) fun _ => s.SameButLocals := by
    intro scope
    induction scope with
    | nil => exact fun _ h => h
    | cons entry scope ih =>
      rintro _ ⟨scopes, history, locals, h, rfl⟩
      change Ends (_ >>= fun _ => scope.forM _) _ _ _
      rw [ends_bind, ends_tryProc, Proc.freeLocal]
      cases locals.release entry.2 with
      | error e => exact ⟨scopes, history, locals, h, rfl⟩
      | ok r => exact ih _ ⟨scopes, history, r, h, rfl⟩
  simp only [closeScope, ends_bind, ends_get]
  split
  · exact ⟨_, _, _, List.suffix_refl _, rfl⟩
  · exact hloop _ _ ⟨_, _, _, List.suffix_cons _ _, rfl⟩

end Lower

end ScriptC
