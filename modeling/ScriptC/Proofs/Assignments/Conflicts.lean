import ScriptC.Proofs.Assignments.Rewriting

/-! # Conflicts in multiple assignments

The targets of an assignment are written one after the other. A value is never overwritten before it
is stored. The container or the key of an element is, if a target to the right of the element is the
variable that holds it.
-/

namespace ScriptC

namespace Lower

variable {s s' : LoweringState} {code : Array Instr}

section Conflicts

variable {ts : List Target} {vs : List (Operand × TypeTag)} {entry entry' : Operand × TypeTag}
  {w w' : Write}

/-- A value that is no variable is always moved. -/
theorem Target.write?_variable {dest : Operand} (hd : dest.isVariable = true)
    (hv : entry.1.isVariable = false) : (Target.variable dest).write? code entry =
      some ⟨none, moveOpcode (destTag dest) entry.2, [entry.1], [dest]⟩ := by
  rw [write?, if_neg]
  rw [Operand.sameStorage_iff]
  rintro ⟨x, hx, hx'⟩
  exact Operand.not_sameStorage hd hv ⟨x, hx', hx⟩

theorem Target.write?_element (load : Nat) (result : Operand) (held : List Operand) {instr : Instr}
    {store : Opcode} (hi : code[load]? = some instr)
    (hs : instr.opcode.storeCounterpart? = some store) :
    (Target.element load result held).write? code entry =
      some ⟨load, store, instr.operands ++ [entry.1], []⟩ := by
  simp [write?, hi, hs]

/-- Writing a target takes one instruction, which reads the value last. -/
theorem Target.ReadsIn.exists_write? {t : Target} (ht : t.ReadsIn code)
    (hv : entry.1.isVariable = false) :
    ∃ w, t.write? code entry = some w ∧ w.operands.getLast? = some entry.1 := by
  obtain dest | ⟨load, result, held⟩ := t
  · exact ⟨_, Target.write?_variable ht hv, rfl⟩
  · obtain ⟨instr, store, hi, hs, -⟩ := ht
    exact ⟨_, Target.write?_element load result held hi hs, List.getLast?_concat⟩

theorem isVariable_headD (hvs : ∀ v ∈ vs, v.1.isVariable = false) :
    (vs.headD (.nil, .nil)).1.isVariable = false := by
  cases vs with
  | nil => rfl
  | cons v vs => exact hvs v List.mem_cons_self

theorem mem_writesTo (h : w ∈ writesTo code ts vs) (hvs : ∀ v ∈ vs, v.1.isVariable = false) :
    ∃ t ∈ ts, ∃ v : Operand × TypeTag, v.1.isVariable = false ∧ t.write? code v = some w := by
  induction ts generalizing vs with
  | nil => cases h
  | cons t ts ih =>
    rw [writesTo, List.mem_append, Option.mem_toList] at h
    rcases h with h | h
    · obtain ⟨u, hu, v, hv, hw⟩ := ih h fun v hv => hvs v (List.mem_of_mem_tail hv)
      exact ⟨u, List.mem_cons_of_mem t hu, v, hv, hw⟩
    · exact ⟨t, List.mem_cons_self, _, isVariable_headD hvs, h⟩

theorem write?_mem_writesTo {t : Target} (ht : t ∈ ts) (hvs : ∀ v ∈ vs, v.1.isVariable = false) :
    ∃ v : Operand × TypeTag, v.1.isVariable = false ∧
      ∀ w, t.write? code v = some w → w ∈ writesTo code ts vs := by
  induction ts generalizing vs with
  | nil => cases ht
  | cons u ts ih =>
    simp only [writesTo, List.mem_append, Option.mem_toList]
    rcases List.mem_cons.mp ht with rfl | ht
    · exact ⟨_, isVariable_headD hvs, fun w hw => .inr hw⟩
    · obtain ⟨v, hv, hmem⟩ := ih ht fun v hv => hvs v (List.mem_of_mem_tail hv)
      exact ⟨v, hv, fun w hw => .inl (hmem w hw)⟩

/-- A later target overwrites what an earlier one reads exactly if it clobbers it. -/
theorem overwrites_iff {t u : Target} (ht : t.ReadsIn code) (hu : u.ReadsIn code)
    (hv : entry.1.isVariable = false) (hv' : entry'.1.isVariable = false)
    (hw : u.write? code entry = some w) (hw' : t.write? code entry' = some w') :
    w.access.Overwrites w'.access ↔ u.Clobbers t := by
  obtain dest | ⟨load, result, held⟩ := u
  · rw [Target.write?_variable hu hv] at hw
    cases hw
    have hmove : Access.Overwrites ⟨[entry.1], [dest]⟩ w'.access ↔
        ∃ o ∈ w'.operands, dest.sameStorage o = true := by
      constructor
      · rintro ⟨_, hm, -, h⟩
        cases List.mem_singleton.mp hm
        exact h
      · exact fun h => ⟨dest, List.mem_singleton_self dest, hu, h⟩
    have hvalue : ¬ dest.sameStorage entry'.1 = true := by
      rw [Operand.sameStorage_iff]
      exact Operand.not_sameStorage hu hv'
    refine hmove.trans ?_
    obtain dest' | ⟨load, result, held⟩ := t
    · rw [Target.write?_variable ht hv'] at hw'
      cases hw'
      simpa [Target.Clobbers] using hvalue
    · obtain ⟨instr, store, hi, hs, hread⟩ := ht
      rw [Target.write?_element load result held hi hs] at hw'
      cases hw'
      rw [Target.Clobbers, @Operand.exists_sameStorage_iff dest held, ← hread,
        ← Operand.exists_sameStorage_iff]
      simp [or_and_right, exists_or, hvalue]
  · obtain ⟨instr, store, hi, hs, -⟩ := hu
    rw [Target.write?_element load result held hi hs] at hw
    cases hw
    constructor
    · rintro ⟨_, hwrites, -⟩
      cases hwrites
    · intro h
      rcases t with _ | _ <;> exact h.elim

/-- The writes are in conflict exactly if a target clobbers one to its left. -/
theorem pairwise_writesTo (hts : ∀ t ∈ ts, t.ReadsIn code)
    (hvs : ∀ v ∈ vs, v.1.isVariable = false) :
    (writesTo code ts vs).Pairwise (fun a b => ¬ a.access.Overwrites b.access) ↔
      ts.Pairwise fun t u => ¬ u.Clobbers t := by
  induction ts generalizing vs with
  | nil => exact iff_of_true .nil .nil
  | cons t ts ih =>
    obtain ⟨ht, hts⟩ := List.forall_mem_cons.mp hts
    have hvs' : ∀ v ∈ vs.tail, v.1.isVariable = false := fun v hv => hvs v (List.mem_of_mem_tail hv)
    have hhead := isVariable_headD hvs
    obtain ⟨b, hb, -⟩ := ht.exists_write? hhead
    rw [writesTo, hb, Option.toList_some, List.pairwise_append, ih hts hvs',
      List.pairwise_cons (a := t)]
    constructor
    · rintro ⟨hrest, -, hcross⟩
      refine ⟨fun u hu hc => ?_, hrest⟩
      obtain ⟨v, hv, hmem⟩ := @write?_mem_writesTo code _ _ u hu hvs'
      obtain ⟨a, ha, -⟩ := (hts u hu).exists_write? hv
      exact hcross a (hmem a ha) b (List.mem_singleton_self b)
        ((overwrites_iff ht (hts u hu) hv hhead ha hb).mpr hc)
    · rintro ⟨hclear, hrest⟩
      refine ⟨hrest, List.pairwise_singleton _ _, fun a ha b' hb' hab => ?_⟩
      obtain rfl := List.mem_singleton.mp hb'
      obtain ⟨u, hu, v, hv, ha⟩ := mem_writesTo ha hvs'
      exact hclear u hu ((overwrites_iff ht (hts u hu) hv hhead ha hb).mp hab)

/-- No value that is written was overwritten before. -/
theorem not_overwritesValue (hts : ∀ t ∈ ts, t.ReadsIn code)
    (hvs : ∀ v ∈ vs, v.1.isVariable = false) (a : Access) (hw : w ∈ writesTo code ts vs) :
    ¬ a.OverwritesValue w.access := by
  obtain ⟨t, ht, v, hv, hw⟩ := mem_writesTo hw hvs
  obtain ⟨_, hw', hlast⟩ := (hts t ht).exists_write? hv
  cases hw.symm.trans hw'
  rintro ⟨dest, -, hd, o, ho, h⟩
  cases hlast.symm.trans ho
  exact Operand.not_sameStorage hd hv (Operand.sameStorage_iff.mp h)

end Conflicts

section Statements

/-- The targets and the values of an assignment. -/
def assignOperands (targets : List (Lower Target)) (exprs : List Part) :
    Lower (List Target × ValueList) := do
  let ts ← targets.mapM id
  return (ts, ← values ts.length exprs)

/-- Write the values to the targets, from copies if there is more than one target. -/
def store (ts : List Target) (list : ValueList) : Lower Unit := do
  let list ←
    if 1 < ts.length then do
      let copies ← snapshots list.values
      pure ⟨copies.values, list.owned ++ copies.owned⟩
    else pure list
  writeAll ts list.values
  freeAll list.owned
  ts.reverse.forM releaseTarget

theorem assign_eq (targets : List (Lower Target)) (exprs : List Part) :
    assign targets exprs = assignOperands targets exprs >>= fun r => store r.1 r.2 := by
  simp only [assign, assignOperands, store, bind_assoc, pure_bind]

theorem ends_assignOperands (symbols : SymbolTable) (targets exprs : List Expr)
    (s : LoweringState) :
    Ends (assignOperands (ofTargets symbols targets) (ofExprs symbols exprs)) s
      (fun r s' => (∀ t ∈ r.1, t.ReadsIn s'.fn.proc.instrs) ∧ (r.1.filterMap Target.load?).Nodup)
      fun _ _ => True := by
  rw [assignOperands, ends_bind]
  refine (ends_targets_loaded symbols targets (.refl s)).imp ?_
  rintro ts s₁ ⟨-, hreads, hnodup, -⟩
  rw [ends_bind]
  rw [ofExprs_eq_map]
  have hvalues := (lawful_retention s₁.fn.proc.instrs symbols).values (i := ()) (P := True) ts.length
    exprs fun e _ => evaluates_retention _ symbols e
  refine (hvalues.keeps (.refl s₁)).imp fun _ s₂ h₂ => ?_
  exact ⟨fun t ht => (hreads t ht).retained fun i instr hi => h₂.1.getElem?_eq_some hi, hnodup⟩

/-- No value is overwritten, and the rest is not exactly if no target clobbers one to its left. -/
def Apart (ts : List Target) (accesses : List Access) : Prop :=
  accesses.Pairwise (fun a b => ¬ a.OverwritesValue b) ∧
    (accesses.Pairwise (fun a b => ¬ a.Overwrites b) ↔ ts.Pairwise fun t u => ¬ u.Clobbers t)

theorem apart_of_copies {ts : List Target} {vs : List (Operand × TypeTag)} {copies : List Write}
    (hts : ∀ t ∈ ts, t.ReadsIn code) (hvs : ∀ v ∈ vs, v.1.isVariable = false)
    (hc : ∀ w ∈ copies, ∀ t ∈ w.targets, t.isVariable = false) :
    Apart ts ((copies ++ writesTo code ts vs).map Write.access) := by
  have hcopy {a : Write} {b : Access} (ha : a ∈ copies) : ¬ a.access.Overwrites b := by
    rintro ⟨t, ht, hv, -⟩
    exact absurd hv (by simp [hc a ha t ht])
  have hcopyValue {a : Write} {b : Access} (ha : a ∈ copies) : ¬ a.access.OverwritesValue b := by
    rintro ⟨t, ht, hv, -⟩
    exact absurd hv (by simp [hc a ha t ht])
  rw [Apart, List.pairwise_map, List.pairwise_map, List.pairwise_append, List.pairwise_append,
    pairwise_writesTo hts hvs]
  constructor
  · exact ⟨List.pairwise_of_forall_mem_list fun a ha _ _ => hcopyValue ha,
      List.pairwise_of_forall_mem_list fun a _ b hb => not_overwritesValue hts hvs _ hb,
      fun a ha _ _ => hcopyValue ha⟩
  · constructor
    · exact fun h => h.2.1
    · exact fun h => ⟨List.pairwise_of_forall_mem_list fun a ha _ _ => hcopy ha, h,
        fun a ha _ _ => hcopy ha⟩

/-- A single target is written by at most one instruction. -/
theorem apart_of_length_le {ts : List Target} (h : ts.length ≤ 1) (vs : List (Operand × TypeTag)) :
    Apart ts ((writesTo code ts vs).map Write.access) := by
  have hone {α : Type} {l : List α} (hl : l.length ≤ 1) (R : α → α → Prop) : l.Pairwise R := by
    rcases l with _ | ⟨a, _ | ⟨b, l⟩⟩
    · exact .nil
    · exact List.pairwise_singleton R a
    · simp at hl
  have hlen : ((writesTo code ts vs).map Write.access).length ≤ 1 := by
    rcases ts with _ | ⟨t, _ | ⟨u, ts⟩⟩
    · exact Nat.zero_le 1
    · simp only [writesTo, List.nil_append, List.length_map]
      cases t.write? code (vs.headD (.nil, .nil)) <;> simp
    · simp at h
  exact ⟨hone hlen _, iff_of_true (hone hlen _) (hone h _)⟩

theorem ends_store {ts : List Target} (hts : ∀ t ∈ ts, t.ReadsIn s.fn.proc.instrs)
    (hnodup : (ts.filterMap Target.load?).Nodup) (list : ValueList) :
    Ends (store ts list) s (fun _ s' => ∃ ids writes,
      Appends s (ts.filterMap Target.load?) ids writes s' ∧ Apart ts (writes.map Write.access))
      fun _ _ => True := by
  rw [store]
  split
  · rw [ends_bind]
    refine ((Appends.refl s).snapshots list.values).imp ?_
    rintro taken s₁ ⟨ids₁, copies, h₁, htaken, hc⟩
    have hvs : ∀ v ∈ taken.values, v.1.isVariable = false := fun v hv => by
      obtain ⟨i, hi, rfl⟩ := List.mem_iff_getElem.mp hv
      exact (htaken.get (by simpa [htaken.length_eq] using hi) hi).isVariable
    rw [pure_bind]
    refine (ends_writeAll_release h₁ hts hnodup _).imp ?_
    rintro _ s₂ ⟨ids₂, h₂⟩
    exact ⟨ids₂, _, h₂, apart_of_copies hts hvs fun w hw => (hc w hw).2⟩
  · rename_i hlen
    rw [pure_bind]
    refine (ends_writeAll_release (.refl s) hts hnodup list).imp ?_
    rintro _ s₁ ⟨ids₁, h₁⟩
    exact ⟨ids₁, _, h₁, apart_of_length_le (Nat.not_lt.mp hlen) _⟩

/-- An assignment ends with the copies, moves and stores that come after the evaluation of its
operands. No value that is stored was overwritten before, and the same holds of every container and
key exactly if no target is the variable that holds the container or the key of a target to its
left. -/
theorem ofStmt_assign_overwrites (symbols : SymbolTable) (targets exprs : List Expr)
    (s : LoweringState) :
    Ends (ofStmt symbols (.assign targets exprs)) s
      (fun _ s' => ∃ ts list s₁ kept ids,
        assignOperands (ofTargets symbols targets) (ofExprs symbols exprs) s
          = .ok (ts, list) s₁ ∧
        s'.fn.proc.ids s'.fn.block = kept ++ ids ∧ kept.Sublist (s₁.fn.proc.ids s'.fn.block) ∧
        (∀ i, i ∈ ids ↔ i ∈ ts.filterMap Target.load? ∨
          s₁.fn.proc.instrs.size ≤ i ∧ i < s'.fn.proc.instrs.size) ∧
        ids.Pairwise (fun i j =>
          ¬ (s'.fn.proc.access i).OverwritesValue (s'.fn.proc.access j)) ∧
        (ids.Pairwise (fun i j => ¬ (s'.fn.proc.access i).Overwrites (s'.fn.proc.access j)) ↔
          ts.Pairwise fun t u => ¬ u.Clobbers t)) fun _ _ => True := by
  rw [ofStmt, assign_eq, ends_bind]
  refine ((ends_assignOperands symbols targets exprs s).and (ends_run _ s)).mono ?_
    fun _ _ _ => trivial
  rintro ⟨ts, list⟩ s₁ ⟨⟨hts, hnodup⟩, hrun⟩
  refine (ends_store hts hnodup list).mono ?_ fun _ _ h' => h'
  rintro _ s' ⟨ids, accesses, h, hvalues, hall⟩
  obtain ⟨kept, hids, hsub⟩ := h.ids_eq
  rw [← h.accesses, List.pairwise_map] at hvalues hall
  exact ⟨ts, list, s₁, kept, ids, hrun, hids, hsub, h.mem_ids, hvalues, hall⟩

end Statements

end Lower

/-- The second of two targets is the key of the first. -/
def Tree.keyedByTarget : Tree where
  symbols := ⟨#[⟨"t", .table, .localOf 0⟩, ⟨"a", .any, .localOf 0⟩]⟩
  main :=
    { id := 0, name := none, params := [], isVararg := false, upvalues := []
      body := [.declare [0, 1] [], .assign
        [⟨.any, .index ⟨.table, .symbol 0⟩ ⟨.any, .symbol 1⟩⟩, ⟨.any, .symbol 1⟩]
        [⟨.integer, .integer 1⟩, ⟨.integer, .integer 2⟩]] }

/-- The key is read by the store after its variable has been written. -/
theorem Tree.keyedByTarget_overwrites : ∃ m p, (keyedByTarget.lower {}).2 = .ok m ∧
    m.procs[0]? = some p ∧ (p.ids 0).take 4 = [0, 1, 3, 2] ∧
      (p.access 3).Overwrites (p.access 2) := by
  have h : (keyedByTarget.lower {}).2.toOption.any (fun m => m.procs[0]?.any fun p =>
      (p.ids 0).take 4 == [0, 1, 3, 2] && (p.access 3).writes.any fun t => t.isVariable &&
        (p.access 2).reads.any (t.sameStorage ·)) = true := by decide +kernel
  simp only [Option.any_eq_true, List.any_eq_true, Bool.and_eq_true, beq_iff_eq] at h
  obtain ⟨m, hm, p, hp, hids, ht⟩ := h
  cases hl : (keyedByTarget.lower {}).2 with
  | ok _ =>
    rw [hl] at hm
    cases hm
    exact ⟨m, p, rfl, hp, hids, ht⟩
  | error e => simp [hl, Except.toOption] at hm

end ScriptC
