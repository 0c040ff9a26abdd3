import ScriptC.Proofs.Regularity.Trees

/-! # The protocol of call results

Whoever takes the results of a call sets their number. All results are passed on only by an
instruction that follows the call at once, and no other result is read than one that was taken.
-/

namespace ScriptC

namespace Proc

/-- How calls, and what reads their results, stand in the blocks of a proc. -/
structure ResultProtocol (p : Proc) : Prop where
  /-- A call has the register of its callee as its result, with the number of values asked for. -/
  asks : ∀ i ∈ p.instrs, i.opcode = .call → ∃ r n, p.Asks i r n ∧ (n = -1 ∨ 0 ≤ n)
  /-- All results are passed on only by a call or a return, as its last operand and right after
  their call. -/
  consumer : ∀ b before j after, p.ids b = before ++ j :: after → ∀ i r, p.instrs[j]? = some i →
    .range r (-1) ∈ i.operands → (i.opcode = .call ∨ i.opcode = .ret) ∧
      (∃ init, i.operands = init ++ [.range r (-1)] ∧ ∀ o ∈ init, o.isOpenRange = false) ∧
      ∃ start c call, before = start ++ [c] ∧ p.instrs[c]? = some call ∧ call.opcode = .call ∧
        p.Asks call r (-1)
  /-- A call that asks for all results is followed by an instruction that passes them on. -/
  passed : ∀ b before j after, p.ids b = before ++ j :: after → ∀ i r, p.instrs[j]? = some i →
    i.opcode = .call → p.Asks i r (-1) → ∃ k next rest, after = k :: rest ∧
      p.instrs[k]? = some next ∧ (next.opcode = .call ∨ next.opcode = .ret) ∧
      next.operands.getLast? = some (.range r (-1))
  /-- Any other result is one of those that its call asks for. On every way to where it is read,
  that call is the last one on its register. -/
  taken : ∀ b before j after, p.ids b = before ++ j :: after → ∀ i o r (k : Nat), p.instrs[j]? = some i →
    o ∈ i.operands → o.result? = some (r, k) → ∃ c call n, p.instrs[c]? = some call ∧
      call.opcode = .call ∧ p.Asks call r n ∧ (k : Int) < n.toInt ∧
      (∀ c', p.lastCall? r before = some c' → c' = c) ∧
      ∀ done, p.Track b done → p.lastCall? r (done ++ before) = some c
  listed : p.Listed

variable {p : Proc} {C : Certificate} {c j r b : Nat} {i : Instr} {ids : List Nat} {n : Int64}

theorem Asks.unique {r' : Nat} {n' : Int64} (h : p.Asks i r n) (h' : p.Asks i r' n') :
    r = r' ∧ n = n' := by
  obtain ⟨args, k, ho, ht, hk⟩ := h
  obtain ⟨args', k', ho', ht', hk'⟩ := h'
  cases ho.symm.trans ho'
  cases ht.symm.trans ht'
  cases hk.symm.trans hk'
  exact ⟨rfl, rfl⟩

/-- All results are passed on only right after their call. -/
theorem standing_open?_eq_some (h : (p.standing C b ids).open? = some r) :
    ∃ start c, ids = start ++ [c] ∧ p.calleeOf? c = some r ∧ C.taken c = none := by
  rcases List.eq_nil_or_concat ids with rfl | ⟨start, c, rfl⟩
  · simp at h
  · rw [List.concat_eq_append, standing_concat] at h
    refine ⟨start, c, List.concat_eq_append, ?_⟩
    cases hc : p.calleeOf? c with
    | none => simp [advance_of_not_call hc] at h
    | some r' =>
      rw [advance_of_calleeOf? hc] at h
      cases ht : C.taken c with
      | some n => simp [ht] at h
      | none =>
        simp only [ht, Option.isSome_none, Bool.false_eq_true, if_false, Option.some.injEq] at h
        exact ⟨h ▸ rfl, rfl⟩

theorem instr_of_calleeOf? (h : p.calleeOf? c = some r) :
    ∃ i, p.instrs[c]? = some i ∧ i.opcode = .call ∧ i.callee? = some r := by
  obtain ⟨i, hi, hc⟩ := Option.bind_eq_some_iff.mp h
  refine ⟨i, hi, ?_, hc⟩
  by_contra hne
  simp [Instr.callee?_eq_none hne] at hc

end Proc

namespace Instr.Admitted

variable {C : Certificate} {σ : Standing} {i : Instr} {r : Nat}

/-- An open range is an operand only where the number of results is open, and then the last one. -/
theorem of_range_mem (h : i.Admitted C σ) (hr : .range r (-1) ∈ i.operands) :
    σ.open? = some r ∧ (i.opcode = .call ∨ i.opcode = .ret) ∧
      ∃ init, i.operands = init ++ [.range r (-1)] ∧ ∀ o ∈ init, o.isOpenRange = false := by
  obtain ⟨init, ho, hinit⟩ := h.operands
  rw [ho, List.mem_append] at hr
  rcases hr with hr | hr
  · cases hinit _ hr
  · obtain ⟨r', hopen, he⟩ := Option.map_eq_some_iff.mp (Option.mem_toList.mp hr)
    cases he
    rw [hopen] at ho
    exact ⟨hopen, h.consumer (by simp [hopen]), init, ho, hinit⟩

theorem getLast?_of_open? (h : i.Admitted C σ) (ho : σ.open? = some r) :
    (i.opcode = .call ∨ i.opcode = .ret) ∧ i.operands.getLast? = some (.range r (-1)) := by
  obtain ⟨init, hops, -⟩ := h.operands
  rw [ho] at hops
  exact ⟨h.consumer (by simp [ho]), by simp [hops]⟩

end Instr.Admitted

namespace Proc.Agrees

variable {p : Proc} {C : Certificate} {c j r b : Nat} {i : Instr} (h : p.Agrees C c none)

include h

/-- A call asks for what the certificate says. -/
theorem asks_of_calleeOf? (hc : p.calleeOf? j = some r) : ∃ i, p.instrs[j]? = some i ∧
    i.opcode = .call ∧ p.Asks i r (C.count j) ∧ ∀ n, C.taken j = some n → r + n ≤ p.maxTemps .any := by
  obtain ⟨i, hi, ho, hr⟩ := instr_of_calleeOf? hc
  obtain ⟨r', ha, hn⟩ := h.calls j i hi ho nofun
  cases (ha.callee? ho).symm.trans hr
  exact ⟨i, hi, ho, ha, hn⟩

/-- The number of results that are taken is not negative. -/
theorem toInt_count (hw : p.maxTemps .any ≤ wordLimit) (hc : p.calleeOf? j = some r) {n : Nat}
    (hn : C.taken j = some n) : (C.count j).toInt = n := by
  obtain ⟨-, -, -, -, hroom⟩ := h.asks_of_calleeOf? hc
  have hlt : n < 2 ^ 63 := by
    have := hroom n hn
    unfold wordLimit at hw
    omega
  rw [Certificate.count, hn]
  exact Int64.toInt_ofNat_of_lt hlt

/-- A call asks for all of its results exactly if none are taken. -/
theorem taken_eq_none (hw : p.maxTemps .any ≤ wordLimit) (hi : p.instrs[j]? = some i)
    (ho : i.opcode = .call) (ha : p.Asks i r (-1)) : C.taken j = none := by
  have hc : p.calleeOf? j = some r := by rw [calleeOf?, hi, Option.bind_some, ha.callee? ho]
  cases ht : C.taken j with
  | none => rfl
  | some n =>
    obtain ⟨i', hi', -, ha', -⟩ := h.asks_of_calleeOf? hc
    cases hi.symm.trans hi'
    have hn := h.toInt_count hw hc ht
    rw [← (ha.unique ha').2] at hn
    exact absurd hn (by simp)

theorem resultProtocol (hl : p.Listed) (hw : p.maxTemps .any ≤ wordLimit) : p.ResultProtocol where
  asks i hi ho := by
    obtain ⟨j, hj⟩ := Array.mem_iff_getElem?.mp hi
    obtain ⟨r, ha, hn⟩ := h.calls j i hj ho nofun
    have hc : p.calleeOf? j = some r := by rw [calleeOf?, hj, Option.bind_some, ha.callee? ho]
    refine ⟨r, _, ha, ?_⟩
    cases ht : C.taken j with
    | none => exact Or.inl (by rw [Certificate.count, ht])
    | some n =>
      refine Or.inr ?_
      rw [Int64.le_iff_toInt_le, h.toInt_count hw hc ht]
      exact Int.natCast_nonneg n
  consumer b before j after hids i r hi hr := by
    obtain ⟨hopen, ho, hlast⟩ := (h.certified b before j after hids i hi).of_range_mem hr
    obtain ⟨start, c, rfl, hc, ht⟩ := standing_open?_eq_some hopen
    obtain ⟨call, hcall, hop, ha, -⟩ := h.asks_of_calleeOf? hc
    rw [Certificate.count, ht] at ha
    exact ⟨ho, hlast, start, c, call, rfl, hcall, hop, ha⟩
  passed b before j after hids i r hi ho ha := by
    have ht := h.taken_eq_none hw hi ho ha
    have hc : p.calleeOf? j = some r := by rw [calleeOf?, hi, Option.bind_some, ha.callee? ho]
    have hopen : (p.standing C b (before ++ [j])).open? = some r := by
      rw [standing_concat, advance_of_calleeOf? hc, ht]
      rfl
    cases after with
    | nil =>
      -- At the end of a block nothing is passed on.
      have hsettled := h.settled b (Or.inr rfl)
      rw [hids, hopen] at hsettled
      cases hsettled
    | cons k rest =>
      obtain ⟨next, hnext, -⟩ := hl.block_eq b k (by simp [hids])
      rw [List.append_cons] at hids
      obtain ⟨hcons, hlast⟩ := (h.certified b _ k rest hids next hnext).getLast?_of_open? hopen
      exact ⟨k, next, rest, rfl, hnext, hcons, hlast⟩
  taken b before j after hids i o r k hi ho hr := by
    obtain ⟨c, n, horigin, ht, hk⟩ := (h.certified b before j after hids i hi).results o ho r k hr
    have hc := h.calleeOf?_of_origins horigin
    obtain ⟨call, hcall, hop, ha, -⟩ := h.asks_of_calleeOf? hc
    rw [origins_standing] at horigin
    refine ⟨c, call, _, hcall, hop, ha, ?_, fun c' hc' => ?_, fun done hdone => ?_⟩
    · rw [h.toInt_count hw hc ht]
      exact Int.ofNat_lt.mpr hk
    · rw [hc', Option.some_or] at horigin
      exact Option.some.inj horigin
    · rw [lastCall?_append]
      cases hl : p.lastCall? r before with
      | some c' =>
        rw [hl, Option.some_or] at horigin
        rw [Option.some_or, horigin]
      | none =>
        rw [hl, Option.none_or] at horigin
        rw [Option.none_or]
        exact hdone.lastCall?_eq h.certified (h.entry_eq _ (Or.inl rfl)) horigin
  listed := hl

end Proc.Agrees

namespace Tree

/-- In every proc of a lowered tree whose registers can be numbered, calls and what reads their
results keep the protocol. -/
theorem lower_resultProtocol {t : Tree} {stats : Stats} {m : Module} (h : (t.lower stats).2 = .ok m)
    {p : Proc} (hp : p ∈ m.procs) (hw : p.maxTemps .any ≤ wordLimit) : p.ResultProtocol := by
  obtain ⟨placements, hpop⟩ := populated_of_lower h
  obtain ⟨i, hi⟩ := Array.mem_iff_getElem?.mp hp
  obtain ⟨pl, hpl⟩ := hpop.assigned.placement? (Array.getElem?_eq_some_iff.mp hi).1
  have hfinished := hpop.finished i p pl hi hpl
  obtain ⟨C, c, ha⟩ := hfinished.agrees
  exact ha.resultProtocol hfinished.listed hw

/-- Two results of a call are taken, one is narrowed, and all of another are passed on twice. -/
def passedOn : Tree where
  symbols := ⟨#[⟨"a", .any, .localOf 0⟩, ⟨"b", .any, .localOf 0⟩, ⟨"f", .any, .global⟩,
    ⟨"g", .any, .global⟩]⟩
  main :=
    { id := 0, name := none, params := [], isVararg := false, upvalues := []
      body :=
        [.declare [0, 1] [⟨.any, .call ⟨.any, .symbol 2⟩ []⟩],
          .ret [⟨.any, .call ⟨.any, .symbol 3⟩ [⟨.any, .call ⟨.any, .symbol 2⟩ []⟩,
            ⟨.any, .call ⟨.any, .symbol 2⟩ [⟨.any, .symbol 0⟩]⟩]⟩]] }

theorem passedOn_resultProtocol : ∃ m, (passedOn.lower {}).2 = .ok m ∧
    ∀ p ∈ m.procs, p.maxTemps .any ≤ wordLimit ∧ p.ResultProtocol := by
  have hwords : (match (passedOn.lower {}).2 with
      | .ok m => m.procs.all fun p => decide (p.maxTemps .any ≤ wordLimit)
      | .error _ => false) = true := by decide +kernel
  cases hm : (passedOn.lower {}).2 with
  | error e => simp [hm] at hwords
  | ok m =>
    simp only [hm, Array.all_eq_true', decide_eq_true_eq] at hwords
    exact ⟨m, rfl, fun p hp => ⟨hwords p hp, lower_resultProtocol hm hp (hwords p hp)⟩⟩

end Tree

end ScriptC
