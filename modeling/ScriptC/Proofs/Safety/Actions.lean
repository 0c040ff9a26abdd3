import ScriptC.Proofs.Evaluation.Expressions
import ScriptC.Proofs.Safety.Holdings

/-! # How lowering can fail

A tree may be refused. Apart from that, only the results of a call beyond the first are claimed
without being handed out, and they are free unless a call was crowded.
-/

namespace ScriptC.Lower

open LoweringState

variable {α : Type} {s : LoweringState}

/-- A tree may be refused. Otherwise the registers run out, or a result is already live after a
crowded call. -/
def Admissible : Failure → LoweringState → Prop
  | .refused _, _ => True
  | .stopped .overflow, s => wordLimit ≤ s.fn.proc.anys.next + 1
  | .stopped (.alreadyLive _), s => s.Crowded
  | .stopped _, _ => False

/-- From every state with `P`, success of `x` ends in `Q`, and failure is admissible. -/
abbrev Leads (P : LoweringState → Prop) (x : Lower α) (Q : α → LoweringState → Prop) : Prop :=
  Meets Admissible P x Q

theorem leads_refuse {P : LoweringState → Prop} {Q : α → LoweringState → Prop} {e : CompileError} :
    Leads P (throw (.refused e)) Q := fun _ _ => trivial

/-- A complaint that shows no operand always has a text. -/
theorem leads_invalid {P : LoweringState → Prop} {Q : α → LoweringState → Prop}
    {reason : Reason} (h : reason.operand? = none) : Leads P (invalid reason) Q := by
  intro s _
  rw [ends_invalid, Failure.invalid, h]
  trivial

section Temporaries

/-- The temporaries of operands, those of the last first. -/
def tempsOf (os : List Operand) : List (TempKind × Nat) := os.reverse.flatMap Operand.temps

theorem tempsOf_cons (o : Operand) (os : List Operand) :
    tempsOf (o :: os) = tempsOf os ++ o.temps := by
  simp [tempsOf]

theorem tempsOf_append (os os' : List Operand) : tempsOf (os ++ os') = tempsOf os' ++ tempsOf os := by
  simp [tempsOf]

theorem tempsOf_singleton (o : Operand) : tempsOf [o] = o.temps := by simp [tempsOf]

theorem mem_temps_of_generic? {o : Operand} {q : Nat} (h : o.generic? = some q) :
    (TempKind.any, q) ∈ o.temps := by
  unfold Operand.generic? at h
  split at h
  · rename_i r ho
    cases h
    simp [Operand.temps, ho]
  · cases h

theorem mem_tempsOf_of_generic? {os : List Operand} {o : Operand} {q : Nat} (ho : o ∈ os)
    (h : o.generic? = some q) : (TempKind.any, q) ∈ tempsOf os :=
  List.mem_flatMap.mpr ⟨o, List.mem_reverse.mpr ho, mem_temps_of_generic? h⟩

/-- What a target holds until it is written. -/
def Target.temps : Target → List (TempKind × Nat)
  | .variable _ => []
  | .element _ result held => result.temps ++ tempsOf held

/-- The temporaries of targets, those of the last first. -/
def targetTemps (ts : List Target) : List (TempKind × Nat) := ts.reverse.flatMap Target.temps

end Temporaries

section Calls

/-- An argument is passed in the register that it owns. -/
def Argument.IsWhole (a : Argument) : Prop := a.operand.stackRegister? = a.owned.generic?

/-- What is returned is no longer in the way. -/
theorem roofed_freed {base : Nat} {o : Operand} {above : List (TempKind × Nat)}
    (h : s.Roofed base (o.temps ++ above)) :
    (s.withProc (s.fn.proc.freed o)).Roofed base above := by
  rcases h with hc | h
  · exact Or.inl hc
  · refine Or.inr fun q hq => ?_
    obtain ⟨hlive, hne⟩ := (@Proc.isLive_freed _ o .any q).mp hq
    rcases h q hlive with hle | hmem
    · exact Or.inl hle
    · rcases List.mem_append.mp hmem with hmem | hmem
      · rw [Operand.temps, Option.mem_toList] at hmem
        exact absurd hmem hne
      · exact Or.inr hmem

/-- Once what is passed to the call is returned, nothing is live above the callee. -/
theorem roofed_of_call {base : Nat} {rest os : List Operand}
    (hcall : ⟨.tempAny base :: rest, s.fn.proc.anys⟩ ∈ s.calls)
    (h : ∀ q, q ∈ rest.filterMap Operand.stackRegister? → (TempKind.any, q) ∈ tempsOf os) :
    s.Roofed base (tempsOf os) := by
  by_cases hclear : CallSite.Clear ⟨.tempAny base :: rest, s.fn.proc.anys⟩
  · obtain ⟨_, _, ho, hlt⟩ := hclear
    cases ho
    refine Or.inr fun q hq => ?_
    by_cases hm : q ∈ rest.filterMap Operand.stackRegister?
    · exact Or.inr (h q hm)
    · by_cases he : q = base
      · exact Or.inl (Nat.le_of_eq he)
      · exact Or.inl (Nat.le_of_lt (hlt q hq he hm))
  · exact Or.inl ⟨_, hcall, hclear⟩

end Calls

end ScriptC.Lower
