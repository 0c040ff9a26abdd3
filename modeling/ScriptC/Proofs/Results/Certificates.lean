import Mathlib.Data.List.Induction
import Mathlib.Logic.Function.Basic
import ScriptC.Proofs.Blocks.Discipline

/-! # Certificates of call results

A call leaves its results in the registers from its callee on, and says how many of them are taken.
A certificate says which calls have left their results last where a block begins, and how many
results of each call are taken. If every instruction is admitted where it stands, then on every way
through the blocks a result is read after the call that it comes from, and before any other call
with the same callee register.
-/

namespace ScriptC

/-- For every register, the call that left its results from there on last, where that is known. -/
abbrev Origins := Nat → Option Nat

/-- What the code up to some point leaves behind. -/
structure Standing where
  origins : Origins
  /-- The callee register of the call just made, if all of its results are passed on. -/
  open? : Option Nat

structure Certificate where
  /-- The origins where a block begins. -/
  entry : Nat → Origins
  /-- How many results of a call are taken, or nothing if all of them are passed on. -/
  taken : Nat → Option Nat

/-- The result that an operand reads, by the register of the call and its position. -/
def Operand.result? : Operand → Option (Nat × Nat)
  | select base index => some (base, index)
  | range base 1 => some (base, 0)
  | _ => none

/-- The callee register of a call. -/
def Instr.callee? (i : Instr) : Option Nat :=
  match i.opcode, i.operands with
  | .call, .tempAny r :: _ => some r
  | _, _ => none

/-- The instruction can stand where the code before it leaves `σ`. Results that are passed on come
last, right after their call; any other result is one of those that were taken; and a branch finds
at its target what the certificate promises there. -/
structure Instr.Admitted (C : Certificate) (σ : Standing) (i : Instr) : Prop where
  operands : ∃ init, i.operands = init ++ (σ.open?.map fun r => .range r (-1)).toList ∧
    ∀ o ∈ init, o.isOpenRange = false
  consumer : σ.open?.isSome = true → i.opcode = .call ∨ i.opcode = .ret
  results : ∀ o ∈ i.operands, ∀ r k, o.result? = some (r, k) →
    ∃ c n, σ.origins r = some c ∧ C.taken c = some n ∧ k < n
  branches : ∀ b, .block b ∈ i.targets →
    i.opcode ≠ .call ∧ ∀ r c, C.entry b r = some c → σ.origins r = some c

theorem Instr.callee?_eq_none {i : Instr} (h : i.opcode ≠ .call) : i.callee? = none := by
  unfold callee?
  split
  · exact absurd ‹_› h
  · rfl

namespace Proc

/-- The register on which the instruction with this id is a call. -/
def calleeOf? (p : Proc) (j : Nat) : Option Nat := p.instrs[j]?.bind Instr.callee?

/-- The standing after an instruction. -/
def advance (p : Proc) (C : Certificate) (σ : Standing) (j : Nat) : Standing :=
  match p.calleeOf? j with
  | some r =>
    ⟨Function.update σ.origins r (some j), if (C.taken j).isSome then none else some r⟩
  | none => ⟨σ.origins, none⟩

/-- The standing after the first instructions of a block. -/
def standing (p : Proc) (C : Certificate) (b : Nat) (ids : List Nat) : Standing :=
  ids.foldl (p.advance C) ⟨C.entry b, none⟩

/-- The last call on a register. -/
def lastCall? (p : Proc) (r : Nat) (ids : List Nat) : Option Nat :=
  ids.reverse.find? fun j => p.calleeOf? j == some r

/-- The instructions on a way from the entry to the begin of a block. -/
inductive Track (p : Proc) : Nat → List Nat → Prop
  | entry : Track p entryBlock []
  | branch {a b last : Nat} {done start : List Nat} {i : Instr} (h : Track p a done)
      (hids : p.ids a = start ++ [last]) (hlast : p.instrs[last]? = some i)
      (hb : .block b ∈ i.targets) : Track p b (done ++ p.ids a)

/-- The first instructions of a block are admitted where they stand. -/
def Admits (p : Proc) (C : Certificate) (b : Nat) (ids : List Nat) : Prop :=
  ∀ before j after, ids = before ++ j :: after → ∀ i, p.instrs[j]? = some i →
    i.Admitted C (p.standing C b before)

/-- Every instruction is admitted where it stands. -/
def Certified (p : Proc) (C : Certificate) : Prop := ∀ b, p.Admits C b (p.ids b)

/-- Every instruction is listed in its own block, once. -/
structure Listed (p : Proc) : Prop where
  block_eq : ∀ b, ∀ j ∈ p.ids b, ∃ i, p.instrs[j]? = some i ∧ i.block = b
  mem : ∀ j i, p.instrs[j]? = some i → j ∈ p.ids i.block
  nodup : ∀ b, (p.ids b).Nodup

section Standings

variable {p q : Proc} {C D : Certificate} {σ : Standing} {b j r : Nat} {ids ids' : List Nat}

@[simp] theorem standing_nil : p.standing C b [] = ⟨C.entry b, none⟩ := rfl

@[simp] theorem standing_concat :
    p.standing C b (ids ++ [j]) = p.advance C (p.standing C b ids) j := by
  simp [standing]

theorem advance_of_calleeOf? (h : p.calleeOf? j = some r) :
    p.advance C σ j =
      ⟨Function.update σ.origins r (some j), if (C.taken j).isSome then none else some r⟩ := by
  rw [advance, h]

theorem advance_of_not_call (h : p.calleeOf? j = none) :
    p.advance C σ j = ⟨σ.origins, none⟩ := by
  rw [advance, h]

/-- The standing depends on the calls only. -/
theorem standing_congr (he : D.entry b = C.entry b)
    (hc : ∀ j ∈ ids, q.calleeOf? j = p.calleeOf? j)
    (ht : ∀ j ∈ ids, p.calleeOf? j ≠ none → D.taken j = C.taken j) :
    q.standing D b ids = p.standing C b ids := by
  induction ids using List.reverseRecOn with
  | nil => simp [he]
  | append_singleton ids j ih =>
    have hmem : j ∈ ids ++ [j] := by simp
    rw [standing_concat, standing_concat, ih (fun k hk => hc k (List.mem_append_left _ hk))
      fun k hk => ht k (List.mem_append_left _ hk)]
    cases hr : p.calleeOf? j with
    | none => rw [advance_of_not_call hr, advance_of_not_call ((hc j hmem).trans hr)]
    | some r =>
      rw [advance_of_calleeOf? hr, advance_of_calleeOf? ((hc j hmem).trans hr),
        ht j hmem (by simp [hr])]

theorem lastCall?_append : p.lastCall? r (ids ++ ids') = (p.lastCall? r ids').or (p.lastCall? r ids) := by
  simp [lastCall?]

theorem lastCall?_singleton :
    p.lastCall? r [j] = if p.calleeOf? j = some r then some j else none := by
  by_cases h : p.calleeOf? j = some r <;> simp [lastCall?, h]

/-- The origins are the last calls, as far as the block itself has any. -/
theorem origins_standing :
    (p.standing C b ids).origins r = (p.lastCall? r ids).or (C.entry b r) := by
  induction ids using List.reverseRecOn with
  | nil => simp [lastCall?]
  | append_singleton ids j ih =>
    rw [standing_concat, lastCall?_append, lastCall?_singleton]
    cases hr : p.calleeOf? j with
    | none => simp [advance_of_not_call hr, ih]
    | some r' =>
      rw [advance_of_calleeOf? hr]
      by_cases he : r = r'
      · simp [he]
      · simp [Function.update_of_ne he, Ne.symm he, ih]

/-- On every way to a block, the calls that the certificate promises there are the last ones. -/
theorem Track.lastCall?_eq (h : p.Certified C) (h₀ : C.entry entryBlock = fun _ => none)
    {done : List Nat} (ht : p.Track b done) {c : Nat} (hc : C.entry b r = some c) :
    p.lastCall? r done = some c := by
  induction ht generalizing c with
  | entry => simp [h₀] at hc
  | branch _ hids hlast hb ih =>
    rename_i a b last done start i _
    obtain ⟨hcall, hentry⟩ := (h a start last [] hids i hlast).branches b hb
    have hc' := hentry r c hc
    -- The branch is no call, so the last call of the block is one before it.
    have hskip : p.lastCall? r (p.ids a) = p.lastCall? r start := by
      rw [hids, lastCall?_append, lastCall?_singleton]
      simp [calleeOf?, hlast, Instr.callee?_eq_none hcall]
    rw [origins_standing] at hc'
    rw [lastCall?_append, hskip]
    cases hr : p.lastCall? r start with
    | some c' => simpa [hr] using hc'
    | none =>
      rw [hr, Option.none_or] at hc'
      simpa using ih hc'

end Standings

section Admission

variable {p q : Proc} {C D : Certificate} {b j : Nat} {ids : List Nat}

theorem admits_nil : p.Admits C b [] := by simp [Admits]

theorem admits_concat : p.Admits C b (ids ++ [j]) ↔
    p.Admits C b ids ∧ ∀ i, p.instrs[j]? = some i → i.Admitted C (p.standing C b ids) := by
  constructor
  · intro h
    refine ⟨fun before k after he => ?_, h ids j [] rfl⟩
    exact h before k (after ++ [j]) (by simp [he])
  · rintro ⟨h, hj⟩ before k after he
    rcases List.eq_nil_or_concat after with rfl | ⟨after, last, rfl⟩
    · obtain ⟨rfl, hk⟩ := List.append_inj_left' he rfl, List.append_inj_right' he rfl
      cases hk
      exact hj
    · rw [List.concat_eq_append, ← List.cons_append, ← List.append_assoc] at he
      exact h before k after (List.append_inj_left' he rfl)

/-- What is admitted stays so if the calls are the same and every instruction has become one that is
admitted wherever the old one was. -/
theorem Admits.transfer (h : p.Admits C b ids) (he : D.entry b = C.entry b)
    (hc : ∀ j ∈ ids, q.calleeOf? j = p.calleeOf? j)
    (ht : ∀ j ∈ ids, p.calleeOf? j ≠ none → D.taken j = C.taken j)
    (hi : ∀ j ∈ ids, ∀ i, q.instrs[j]? = some i →
      ∃ i', p.instrs[j]? = some i' ∧ ∀ σ, i'.Admitted C σ → i.Admitted D σ) :
    q.Admits D b ids := by
  intro before j after heq i hj
  have hmem : ∀ k ∈ before, k ∈ ids := fun k hk => heq ▸ List.mem_append_left _ hk
  obtain ⟨i', hi', ha⟩ := hi j (by simp [heq]) i hj
  rw [standing_congr he (fun k hk => hc k (hmem k hk)) fun k hk => ht k (hmem k hk)]
  exact ha _ (h before j after heq i' hi')

end Admission

end Proc

end ScriptC
