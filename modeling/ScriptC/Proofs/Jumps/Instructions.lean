import ScriptC.Proofs.Jumps.Texts
import ScriptC.Proofs.Resources.Functions

/-! # Jumps of instructions

The code of an instruction that does not end its block jumps nowhere but to where errors are raised.
The code of a terminator ends in a jump, and a branch on a value whose truth is known has only one.
-/

namespace ScriptC

namespace CodeContext

variable {c : CodeContext} {i : Instr}

/-- Only a terminator leaves its block, but for errors. -/
theorem stays_instr (hi : i.opcode.isTerminator = false) :
    Yields (c.instr i) fun code => ∀ st ∈ code, st.Stays :=
  ((covers_any c i).instr (fun _ _ _ _ _ => ⟨fun _ _ => trivial, fun _ _ _ _ => trivial⟩)
    fun _ _ _ _ _ => trivial).mono fun _ h => h.2 hi

end CodeContext

section Terminators

/-- Whether an operand is true, where its form tells: only nil and false are false. -/
def Proc.truth? (p : Proc) : Operand → Option Bool
  | .nil | .false => some false
  | .true | .tempInt _ | .tempFloat _ => some true
  | .constant k =>
    match p.constants.get? k with
    | some (.integer _) | some (.number _) => some true
    | _ => none
  | _ => none

/-- Control never runs past the statement. -/
inductive Code.Transfers : Code → Prop
  | goto (b : Nat) : Transfers (.goto b)
  | branch (a : Address) (t f : Nat) : Transfers (.branch a t f)
  | scope (body : List Code) {last : Code} (h : Transfers last) : Transfers (.scope (body ++ [last]))

namespace CodeContext

variable {c : CodeContext} {i : Instr}

/-- How an operand is held tells what is known of its truth. -/
theorem yields_holding (o : Operand) : Yields (c.holding o) fun held =>
    c.proc.truth? o = match held with
      | .nil => some false
      | .boolean v => some v
      | .int | .float => some true
      | .tagged => none := by
  unfold holding
  split
  · exact yields_ok rfl
  · exact yields_ok rfl
  · exact yields_ok rfl
  · exact yields_ok rfl
  · exact yields_ok rfl
  · rename_i k
    have hconst : c.proc.constant? (.constant k) = c.proc.constants.get? k := rfl
    rw [hconst, Proc.truth?]
    cases c.proc.constants.get? k with
    | none => exact yields_error
    | some const => cases const <;> exact yields_ok rfl
  · exact yields_error
  · exact yields_error
  · exact yields_error
  · apply yields_ok
    unfold Proc.truth?
    split <;> simp_all

/-- A condition is tested at run time exactly if its truth is not known. -/
theorem yields_falsity (o : Operand) : Yields (c.falsity o) fun r =>
    match c.proc.truth? o with
    | some v => r = .inl !v
    | none => ∃ a, r = .inr a := by
  refine (yields_holding o).bind fun held hheld => ?_
  rw [hheld]
  split
  · exact yields_ok rfl
  · exact yields_ok rfl
  · exact yields_ok rfl
  · exact yields_ok rfl
  · exact yields_ok rfl
  · exact yields_bind_any fun a => yields_ok ⟨a, rfl⟩

theorem yields_blockTarget (i : Instr) (n : Nat) :
    Yields (c.blockTarget i n) fun b => i.targets[n]? = some (.block b) := by
  refine (yields_target i n).bind fun o ho => ?_
  split
  · exact yields_ok ho
  · exact yields_error

theorem yields_br (hi : i.opcode = .br) : Yields (c.instr i) fun code =>
    ∃ t, i.targets[0]? = some (.block t) ∧ code = [.goto t] := by
  unfold instr
  rw [hi]
  exact (yields_blockTarget i 0).bind fun t ht => yields_ok ⟨t, ht, rfl⟩

theorem yields_cbr (hi : i.opcode = .cbr) : Yields (c.instr i) fun code =>
    ∃ cond t f, i.operands[0]? = some cond ∧ i.targets[0]? = some (.block t) ∧
      i.targets[1]? = some (.block f) ∧
      match c.proc.truth? cond with
      | some v => code = [.goto (if v then t else f)]
      | none => ∃ a, code = [.branch a t f] := by
  unfold instr
  rw [hi]
  refine (yields_operand i 0).bind fun cond hcond => (yields_blockTarget i 0).bind fun t ht =>
    (yields_blockTarget i 1).bind fun f hf => (yields_falsity cond).bind fun r hr => ?_
  cases htruth : c.proc.truth? cond with
  | some v =>
    rw [htruth] at hr
    subst hr
    cases v <;> exact yields_ok ⟨cond, t, f, hcond, ht, hf, by rw [htruth]; rfl⟩
  | none =>
    rw [htruth] at hr
    obtain ⟨a, rfl⟩ := hr
    exact yields_ok ⟨cond, t, f, hcond, ht, hf, by rw [htruth]; exact ⟨a, rfl⟩⟩

theorem yields_ret (hi : i.opcode = .ret) : Yields (c.instr i) fun code =>
    ∃ body, (∀ st ∈ body, st.Stays) ∧ code = [.scope (body ++ [.goto exitBlock])] := by
  unfold instr
  rw [hi]
  refine (covers_any c i).ret.mono ?_
  rintro _ ⟨body, hbody, rfl⟩
  exact ⟨body, fun st hst => (hbody st hst).stays, rfl⟩

end CodeContext

end Terminators

end ScriptC
