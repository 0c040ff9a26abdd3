import ScriptC.Proofs.Calls.Trees

/-! # Stack discipline of values

While a value is computed the generic temporaries are a stack. A value that needs one takes the
register on top of all that was live before; any other leaves the stack as it was. Functions that
are created on the way have pools of their own, so their bodies do not matter.
-/

namespace ScriptC

namespace Registers

variable {k : Nat} {p : Registers}

/-- The live registers are those below `k`, and the registers from `k` on are handed out next, in
order. -/
def IsStacked (k : Nat) (p : Registers) : Prop :=
  (∀ r, p.IsLive r ↔ r < k) ∧ ∀ i, p.upcoming i = k + i

theorem upcoming_zero (p : Registers) : p.upcoming 0 = p.alloc.2 := by
  unfold upcoming alloc
  split <;> rename_i h <;> simp [h]

theorem upcoming_succ (p : Registers) (i : Nat) : p.upcoming (i + 1) = p.alloc.1.upcoming i := by
  unfold upcoming alloc
  split <;> rename_i h <;> simp [h]
  omega

theorem IsStack.upcoming (h : p.IsStack k) (i : Nat) : p.upcoming i = k + i := by
  induction i generalizing k p with
  | zero => rw [upcoming_zero, h.alloc.1, Nat.add_zero]
  | succ i ih =>
    rw [upcoming_succ, ih h.alloc.2]
    omega

/-- The order in which registers are handed out determines the pool. -/
theorem isStack_of_upcoming (h : ∀ i, p.upcoming i = k + i) : p.IsStack k := by
  obtain ⟨next, free⟩ := p
  refine ⟨free.length, ?_⟩
  have hnext : next = k + free.length := by simpa [upcoming] using h free.length
  have hfree : free = List.range' k free.length := by
    refine List.ext_getElem (by simp) fun i hi _ => ?_
    have := h i
    simpa [upcoming, hi] using this
  rw [← hfree, ← hnext]

theorem isStacked_iff : p.IsStacked k ↔ p.IsStack k := by
  refine ⟨fun h => isStack_of_upcoming h.2, fun h => ⟨fun r => ⟨h.lt_of_isLive, ?_⟩, h.upcoming⟩⟩
  obtain ⟨n, rfl⟩ := h
  intro hr
  refine ⟨?_, ?_⟩
  · simp only
    omega
  · simp only [List.mem_range'_1]
    omega

end Registers

/-- What a value holds tells its form. -/
theorem Value.Denotes.operand_cases {ty : Ty} {d : Usage.Value} {s : LoweringState} {v : Value}
    {held : Option Nat} (h : v.Denotes ty d s held) :
    held = none ∧ v.operand.isUnstacked = true ∨
      ∃ r, held = some r ∧ (v.operand = .tempAny r ∨ v.operand = .range r (-1)) := by
  cases h with
  | @results base => exact .inr ⟨base, rfl, .inr rfl⟩
  | @operand o _ _ _ _ ho hf =>
    obtain rfl := ho.1
    cases o with
    | tempAny r => exact .inr ⟨r, rfl, .inl rfl⟩
    | _ => first | exact .inl ⟨rfl, rfl⟩ | (rcases hf with hf | hf <;> cases hf)

open Lower

variable (symbols : SymbolTable)

/-- An expression keeps the stack whatever the loops in the functions that it creates. -/
theorem piles_usage (e : Expr) : Usage.Piles (fun _ => True) (e.usage symbols) :=
  ((treeCases_piles symbols fun _ _ => trivial).expr e (.inr fun _ => trivial)).1

/-- A constant, a sentinel, a variable or a native temporary leaves the stack as it was. Any other
value is the register on top, or the results of a call from that register on. -/
theorem value_isStacked (e : Expr) {k : Nat} {s s' : LoweringState} {v : Value}
    (hs : s.fn.proc.anys.IsStacked k) (h : (ofExpr symbols e).value s = .ok v s') :
    v.operand.isUnstacked = true ∧ s'.fn.proc.anys.IsStacked k ∨
      (v.operand = .tempAny k ∨ v.operand = .range k (-1)) ∧ s'.fn.proc.anys.IsStacked (k + 1) := by
  obtain ⟨hpool, -, -, hv⟩ := Ends.of_ok ((treeCases_follows symbols).expr e s) h
  obtain ⟨-, m, hm, hp⟩ := piles_usage symbols e (Registers.isStacked_iff.mp hs)
  change s'.fn.proc.anys = _ at hpool
  rw [Registers.isStacked_iff, Registers.isStacked_iff, hpool]
  rcases hv.operand_cases with ⟨hr, hv⟩ | ⟨r, hr, hv⟩
  · rw [show (e.usage symbols s.fn.proc.anys).1 = none from hr] at hm
    exact .inl ⟨hv, hm.eq_of_none ▸ hp⟩
  · rw [show (e.usage symbols s.fn.proc.anys).1 = some r from hr] at hm
    obtain ⟨rfl, rfl⟩ := hm.eq_of_some
    exact .inr ⟨hv, hp⟩

/-- A call that passes a global and a function with a loop. -/
def callWithLoop : Expr :=
  ⟨.any, .call ⟨.any, .symbol 2⟩
    [⟨.any, .symbol 1⟩, ⟨.any, .function Tree.countFromGlobal.main⟩]⟩

/-- Two generic temporaries are held and a third one was. -/
def twoHeld : LoweringState where
  stats := {}
  module := {}
  fn := { proc := { id := 0, parent := none, anys := ⟨3, [2]⟩ }, function := 0 }

theorem callWithLoop_isStacked : twoHeld.fn.proc.anys.IsStacked 2 ∧ ∃ v s',
    (ofExpr Tree.countFromGlobal.symbols callWithLoop).value twoHeld = .ok v s' ∧
      v.operand = .range 2 (-1) ∧ s'.fn.proc.anys.IsStacked 3 := by
  have hs : twoHeld.fn.proc.anys.IsStacked 2 := Registers.isStacked_iff.mpr ⟨1, rfl⟩
  have hrun : (EStateM.run' (ofExpr Tree.countFromGlobal.symbols callWithLoop).value
      twoHeld).map (·.operand) = some (.range 2 (-1)) := by decide +kernel
  delta EStateM.run' EStateM.run at hrun
  cases h : (ofExpr Tree.countFromGlobal.symbols callWithLoop).value twoHeld with
  | error e s' =>
    rw [h] at hrun
    cases hrun
  | ok v s' =>
    rw [h] at hrun
    have hv : v.operand = .range 2 (-1) := Option.some.inj hrun
    refine ⟨hs, v, s', rfl, hv, ?_⟩
    rcases value_isStacked _ _ hs h with ⟨hf, -⟩ | ⟨-, h⟩
    · rw [hv] at hf
      cases hf
    · exact h

end ScriptC
