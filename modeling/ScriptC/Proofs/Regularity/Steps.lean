import ScriptC.Proofs.Regularity.States

/-! # Steps between proper states

Each operation on the proc at hand leads from a proper state to a proper one, and changes what is
known in one respect.
-/

namespace ScriptC

theorem Instr.TargetsWithin.lt {n b : Nat} {i : Instr} (h : i.TargetsWithin n) (hn : exitBlock < n)
    (hb : .block b ∈ i.targets) : b < n := by
  unfold TargetsWithin at h
  split at h
  · obtain ⟨a, ha, he⟩ := h
    simp only [he, List.mem_singleton, Operand.block.injEq] at hb
    exact hb ▸ ha
  · obtain ⟨a, ha, c, hc, he⟩ := h
    simp only [he, List.mem_cons, List.not_mem_nil, or_false, Operand.block.injEq] at hb
    rcases hb with rfl | rfl
    · exact ha
    · exact hc
  · simp only [h, List.mem_singleton, Operand.block.injEq] at hb
    exact hb ▸ hn
  · exact absurd hb (h b)

namespace LoweringState

variable {Λ : Locale} {K K' : Outlook} {s s' : LoweringState} {C : Certificate}

section Append

variable {i : Instr}

theorem isTerminated_appended (hc : s.fn.block < s.fn.proc.blocks.size) :
    (s.fn.proc.appended s.fn.block i).isTerminated s.fn.block = i.opcode.isTerminator := by
  simp [Proc.isTerminated_eq, Proc.ids_appended hc]

/-- The operands of an instruction are known. Those of a call or a return end with all results of
the call before, if their number is open. -/
structure Allows (K : Outlook) (opcode : Opcode) (operands : List Operand) : Prop where
  known : ∀ o ∈ operands, o ∈ K.known
  usable : ∃ init, operands = init ++ (K.open?.map fun o => Operand.range o.base (-1)).toList ∧
    ∀ o ∈ init, o.Usable K.grants
  consumer : ∀ o ∈ K.open?, o.count = -1 ∧ (opcode = .call ∨ opcode = .ret)

theorem allows_of_none {opcode : Opcode} {operands : List Operand} (hK : K.open? = none)
    (h : ∀ o ∈ operands, o ∈ K.known ∧ o.Usable K.grants) : Allows K opcode operands where
  known o ho := (h o ho).1
  usable := ⟨operands, by simp [hK], fun o ho => (h o ho).2⟩
  consumer := by simp [hK]

/-- What is allowed by what is known is admitted by a certificate that bears it out. -/
theorem Vouches.admitted (hv : s.Vouches C K) (ha : s.fn.proc.Agrees C s.fn.block K.open?)
    (ho : s.fn.proc.IsOpen s.fn.block) (hK : Allows K i.opcode i.operands)
    (hb : ∀ b, .block b ∈ i.targets → i.opcode ≠ .call ∧
      ∀ r c, C.entry b r = some c → (s.standing C).origins r = some c) :
    i.Admitted C (s.fn.proc.standing C s.fn.block (s.fn.proc.ids s.fn.block)) := by
  obtain ⟨init, hinit, husable⟩ := hK.usable
  have hopen := ha.open?_eq
  have hs := standing_of_not_terminated s (C := C) ho.isTerminated
  constructor
  · refine ⟨init, ?_, fun o ho => (husable o ho).closed⟩
    rw [hopen, Option.map_map]
    exact hinit
  · intro hsome
    rw [hopen, Option.isSome_map] at hsome
    obtain ⟨o, ho⟩ := Option.isSome_iff_exists.mp hsome
    exact (hK.consumer o ho).2
  · intro o ho r k hr
    rw [hinit] at ho
    rcases List.mem_append.mp ho with ho | ho
    · obtain ⟨c, n, hc, hk⟩ := (husable o ho).granted r k hr
      obtain ⟨hc', hn⟩ := hv.grants r c n hc
      exact ⟨c, n, hs ▸ hc', hn, hk⟩
    · cases hK' : K.open? with
      | none => simp [hK'] at ho
      | some call =>
        simp only [hK', Option.map_some, Option.toList_some, List.mem_singleton] at ho
        subst ho
        cases hr
  · intro b hb'
    rw [← hs]
    exact hb b hb'

namespace Proper

theorem append_of (h : s.Proper Λ K) (ho : s.fn.proc.IsOpen s.fn.block)
    (hb : i.block = s.fn.block) (hw : i.TargetsWithin s.fn.proc.blocks.size)
    (hfits : ∀ o ∈ i.operands ++ i.targets, o.Suits Λ.symbols Λ.function s.fn)
    (open? : Option OpenCall) (grants : Grants)
    (hagrees : ∀ C, s.fn.proc.Agrees C s.fn.block K.open? → s.Vouches C K →
      (s.fn.proc.appended s.fn.block i).Agrees C s.fn.block open? ∧
        ∀ r c n, grants r = some (c, n) →
          ((s.withProc (s.fn.proc.appended s.fn.block i)).standing C).origins r = some c ∧
            C.taken c = some n) :
    (s.withProc (s.fn.proc.appended s.fn.block i)).Proper Λ
      { K with open?, grants, isOpen? := some (!i.opcode.isTerminator) } := by
  constructor
  · exact h.laid.append ho hw
  · rintro b ⟨⟩
    exact (isTerminated_appended h.laid.current_lt).trans (Bool.not_not _).symm
  · exact h.listed.appended h.laid.current_lt hb
  · intro j hj o ho'
    have hsuits : o.Suits Λ.symbols Λ.function s.fn := by
      rcases Array.mem_push.mp hj with hj | rfl
      · exact h.code j hj o ho'
      · exact hfits o ho'
    exact hsuits.withProc (Nat.le_refl _) fun kind => by cases kind <;> exact Nat.le_refl _
  · intro o ho'
    refine (h.known o ho').withProc (Nat.le_refl _) fun kind => ?_
    cases kind <;> exact Nat.le_refl _
  · intro l hl
    refine (h.loads l hl).of_instr fun j hj => ?_
    have hlt := (Array.getElem?_eq_some_iff.mp hj).1
    show (s.fn.proc.instrs.push i)[l.1]? = some j
    rwa [Array.getElem?_push_lt hlt, ← Array.getElem?_eq_getElem hlt]
  · exact h.constants
  · obtain ⟨C, ha, hv⟩ := h.agrees
    obtain ⟨ha', hg⟩ := hagrees C ha hv
    exact ⟨C, ha', hv.withProc Array.size_modify rfl hg⟩
  · exact h.situated.withProc ⟨rfl, rfl, rfl, rfl, rfl, rfl⟩ rfl

theorem origins_appended (h : s.Proper Λ K) (ho : s.fn.proc.IsOpen s.fn.block)
    (hi : i.opcode.isTerminator = false) :
    ((s.withProc (s.fn.proc.appended s.fn.block i)).standing C).origins =
      match i.callee? with
      | some r => Function.update (s.standing C).origins r (some s.fn.proc.instrs.size)
      | none => (s.standing C).origins := by
  have ht : (s.fn.proc.appended s.fn.block i).isTerminated s.fn.block = false :=
    (isTerminated_appended h.laid.current_lt).trans hi
  rw [standing_of_not_terminated (s.withProc (s.fn.proc.appended s.fn.block i)) ht,
    standing_of_not_terminated s ho.isTerminated]
  have hlast := Proc.Agrees.standing_appended_last (C := C) (i := i) h.laid.ids_lt
    h.laid.current_lt
  have horigins := congrArg Standing.origins hlast
  cases hr : i.callee? with
  | none =>
    rw [hr] at horigins
    exact horigins
  | some r =>
    rw [hr] at horigins
    exact horigins

/-- An instruction that is neither a call nor a terminator. -/
theorem step (h : s.Proper Λ K) (ho : s.fn.proc.IsOpen s.fn.block) (hb : i.block = s.fn.block)
    (hi : i.opcode.isTerminator = false) (hc : i.opcode ≠ .call)
    (hK : Allows K i.opcode i.operands) (ht : ∀ o ∈ i.targets, o ∈ K.known)
    (hdata : ∀ b, .block b ∉ i.targets) :
    (s.withProc (s.fn.proc.appended s.fn.block i)).Proper Λ
      { K with open? := none, isOpen? := some true } := by
  have hfits : ∀ o ∈ i.operands ++ i.targets, o.Suits Λ.symbols Λ.function s.fn := by
    intro o ho'
    rcases List.mem_append.mp ho' with ho' | ho'
    · exact h.known o (hK.known o ho')
    · exact h.known o (ht o ho')
  have hr := h.append_of ho hb (Instr.targetsWithin_of_not_terminator hi hdata) hfits none K.grants
    fun C ha hv => by
      refine ⟨ha.append h.laid.ids_lt h.laid.current_lt ?_ (fun o ho' => (hK.consumer o ho').1) hc,
        ?_⟩
      · exact hv.admitted ha ho hK fun b hb' => absurd hb' (hdata b)
      · rw [h.origins_appended ho hi, Instr.callee?_eq_none hc]
        exact hv.grants
  rwa [hi] at hr

/-- A terminator. Nothing is at hand after it. -/
theorem close (h : s.Proper Λ K) (ho : s.fn.proc.IsOpen s.fn.block) (hb : i.block = s.fn.block)
    (hi : i.opcode.isTerminator = true) (hw : i.TargetsWithin s.fn.proc.blocks.size)
    (hK : Allows K i.opcode i.operands) (ht : ∀ o ∈ i.targets, ∃ b, o = .block b)
    (hbranch : ∀ C, s.fn.proc.Agrees C s.fn.block K.open? → s.Vouches C K →
      ∀ b, .block b ∈ i.targets → ∀ r c, C.entry b r = some c →
        (s.standing C).origins r = some c) :
    (s.withProc (s.fn.proc.appended s.fn.block i)).Proper Λ
      { K with open? := none, grants := .nothing, isOpen? := some false } := by
  have hc : i.opcode ≠ .call := by
    intro hc
    rw [hc] at hi
    cases hi
  have hfits : ∀ o ∈ i.operands ++ i.targets, o.Suits Λ.symbols Λ.function s.fn := by
    intro o ho'
    rcases List.mem_append.mp ho' with ho' | ho'
    · exact h.known o (hK.known o ho')
    · obtain ⟨b, rfl⟩ := ht o ho'
      exact ⟨trivial, trivial⟩
  have hr := h.append_of ho hb hw hfits none .nothing fun C ha hv => by
    refine ⟨ha.append h.laid.ids_lt h.laid.current_lt ?_ (fun o ho' => (hK.consumer o ho').1) hc,
      nofun⟩
    exact hv.admitted ha ho hK fun b hb' => ⟨hc, hbranch C ha hv b hb'⟩
  rwa [hi] at hr

/-- A call. The number of its results is open. -/
theorem call (h : s.Proper Λ K) (ho : s.fn.proc.IsOpen s.fn.block) {base k : Nat}
    {args : List Operand} {count : Int64}
    (hi : i = ⟨.call, .tempAny base :: args, [.range base (-1), .constant k], s.fn.block⟩)
    (hk : s.fn.proc.constants.get? k = some (.integer count))
    (hK : Allows K .call (.tempAny base :: args)) (hbase : K.grants base = none) :
    (s.withProc (s.fn.proc.appended s.fn.block i)).Proper Λ
      { K with open? := some ⟨s.fn.proc.instrs.size, base, count⟩, isOpen? := some true } := by
  subst hi
  have hdata : ∀ b, Operand.block b ∉ [Operand.range base (-1), Operand.constant k] := by simp
  have hfits : ∀ o ∈ (Operand.tempAny base :: args) ++ [Operand.range base (-1), Operand.constant k],
      o.Suits Λ.symbols Λ.function s.fn := by
    intro o ho'
    rcases List.mem_append.mp ho' with ho' | ho'
    · exact h.known o (hK.known o ho')
    · simp only [List.mem_cons, List.not_mem_nil, or_false] at ho'
      rcases ho' with rfl | rfl
      · exact h.known (.tempAny base) (hK.known _ List.mem_cons_self)
      · exact ⟨trivial, trivial⟩
  refine h.append_of (i := ⟨.call, .tempAny base :: args, [.range base (-1), .constant k],
    s.fn.block⟩) ho rfl (Instr.targetsWithin_of_not_terminator rfl hdata) hfits
    (some ⟨s.fn.proc.instrs.size, base, count⟩) K.grants fun C ha hv => ⟨?_, ?_⟩
  · refine ha.appendCall h.laid.ids_lt h.laid.current_lt ?_ (fun o ho' => (hK.consumer o ho').1) rfl
      ⟨args, k, rfl, rfl, hk⟩
    exact hv.admitted ha ho hK fun b hb' => absurd hb' (hdata b)
  · intro r c n hr
    have hne : r ≠ base := by
      rintro rfl
      simp [hbase] at hr
    rw [h.origins_appended ho rfl]
    simp only [Instr.callee?, Function.update_of_ne hne]
    exact hv.grants r c n hr

end Proper

end Append

section Blocks

namespace Proper

/-- A new block waits for its instructions. Where it begins, any results are at hand that are at hand
now. -/
theorem newBlock (h : s.Proper Λ K) {G : Grants} (hG : G.Le K.grants) :
    (s.withProc s.fn.proc.newBlock.1).Proper Λ
      { K with
        pending := s.fn.proc.blocks.size :: K.pending
        joins := (s.fn.proc.blocks.size, G) :: K.joins } := by
  have hsize : s.fn.proc.newBlock.1.blocks.size = s.fn.proc.blocks.size + 1 := Array.size_push _
  have hcur := h.laid.current_lt
  have hexit := h.laid.exit_lt
  have hterm : s.fn.proc.newBlock.1.isTerminated s.fn.block =
      s.fn.proc.isTerminated s.fn.block := by
    simp only [Proc.isTerminated_eq, Proc.ids_newBlock]
    rfl
  obtain ⟨C, ha, hg, hj, he⟩ := h.agrees
  have hother (b : Nat) (hb : b < s.fn.proc.blocks.size) :
      (C.enter s.fn.proc.blocks.size fun r => (G r).map Prod.fst).entry b = C.entry b :=
    Function.update_of_ne (Nat.ne_of_lt hb) _ _
  have hstand : (s.withProc s.fn.proc.newBlock.1).standing
      (C.enter s.fn.proc.blocks.size fun r => (G r).map Prod.fst) = s.standing C := by
    unfold standing
    simp only [withProc_proc, withProc_block, hterm, Proc.ids_newBlock]
    split
    · rfl
    · exact Proc.standing_congr (hother _ hcur) (fun _ _ => rfl) fun _ _ _ => rfl
  constructor
  · exact h.laid.newBlock
  · intro b hb
    exact hterm.trans (h.phase b hb)
  · exact h.listed.newBlock
  · exact h.code
  · exact h.known
  · exact h.loads
  · exact h.constants
  · refine ⟨C.enter s.fn.proc.blocks.size fun r => (G r).map Prod.fst,
      ha.newBlock.enter ?_ ?_ (by omega) ?_ ?_ ?_, ?_, ?_, ?_⟩
    · intro r c hc
      obtain ⟨⟨c', n⟩, hr, rfl⟩ := Option.map_eq_some_iff.mp hc
      have horigin := (hg r c' n (hG r _ hr)).1
      unfold standing at horigin
      split at horigin
      · cases horigin
      · exact ha.calleeOf?_of_origins horigin
    · rw [Proc.ids_newBlock]
      exact Proc.ids_of_size_le (Nat.le_refl _)
    · simp only [entryBlock, exitBlock] at hexit ⊢
      omega
    · omega
    · intro i hi hb
      obtain ⟨k, hk⟩ := Array.mem_iff_getElem?.mp hi
      have := (h.laid.targets k i hk).lt hexit hb
      omega
    · intro r c n hr
      rw [hstand]
      exact hg r c n hr
    · intro j hj'
      rcases List.mem_cons.mp hj' with rfl | hj'
      · refine ⟨by simp [hsize], fun r => ?_, fun r c n hr => (hg r c n (hG r _ hr)).2⟩
        simp [Certificate.enter]
      · obtain ⟨hlt, hentry, htaken⟩ := hj j hj'
        refine ⟨Nat.lt_of_lt_of_le hlt (by simp [hsize]), ?_, htaken⟩
        rw [hother _ hlt]
        exact hentry
    · intro b hb
      obtain ⟨hlt, hentry⟩ := he b hb
      exact ⟨Nat.lt_of_lt_of_le hlt (by simp [hsize]), (hother b hlt).trans hentry⟩
  · exact h.situated.withProc ⟨rfl, rfl, rfl, rfl, rfl, rfl⟩ rfl

/-- A waiting block becomes current once the block before has ended. -/
theorem enterBlock (h : s.Proper Λ K) (ht : s.fn.proc.isTerminated s.fn.block = true) {b : Nat}
    {G : Grants} {rest : List Nat} (hp : K.pending.Perm (b :: rest)) (hb : (b, G) ∈ K.joins) :
    Proper Λ { K with pending := rest, grants := G, isOpen? := some true }
      { s with fn := { s.fn with block := b } } := by
  have hlaid := (h.laid.of_perm hp).start (h.laid.isTerminated_iff.mp ht)
  have hempty : s.fn.proc.ids b = [] :=
    h.laid.pending_empty b (hp.mem_iff.mpr List.mem_cons_self)
  have hopen : s.fn.proc.isTerminated b = false := by simp [Proc.isTerminated_eq, hempty]
  obtain ⟨C, ha, hg, hj, he⟩ := h.agrees
  have hnone := ha.open?_eq_none_of_terminated ht
  constructor
  · exact hlaid
  · rintro _ ⟨⟩
    exact hopen
  · exact h.listed
  · exact h.code
  · exact h.known
  · exact h.loads
  · exact h.constants
  · refine ⟨C, ?_, ?_, hj, he⟩
    · rw [hnone] at ha ⊢
      exact ha.start b
    · intro r c n hr
      obtain ⟨-, hentry, htaken⟩ := hj _ hb
      rw [standing_of_not_terminated { s with fn := { s.fn with block := b } } hopen]
      simp only [hempty, Proc.standing_nil]
      refine ⟨(hentry r).trans ?_, htaken r c n hr⟩
      exact congrArg (Option.map Prod.fst) hr
  · exact { h.situated with }

/-- A branch can lead to the targets of breaks. -/
theorem pushExit (h : s.Proper Λ K) {b : Nat} (hb : (b, Grants.nothing) ∈ K.joins) :
    Proper Λ K { s with fn := { s.fn with exits := b :: s.fn.exits } } where
  __ := h
  agrees := by
    obtain ⟨C, ha, hv⟩ := h.agrees
    refine ⟨C, ha, hv.grants, hv.joins, fun e he => ?_⟩
    rcases List.mem_cons.mp he with rfl | he
    · obtain ⟨hlt, hentry, -⟩ := hv.joins _ hb
      exact ⟨hlt, funext hentry⟩
    · exact hv.exits e he
  situated := { h.situated with }

theorem popExit (h : s.Proper Λ K) :
    Proper Λ K { s with fn := { s.fn with exits := s.fn.exits.tail } } where
  __ := h
  agrees := by
    obtain ⟨C, ha, hv⟩ := h.agrees
    exact ⟨C, ha, hv.grants, hv.joins, fun e he => hv.exits e (List.mem_of_mem_tail he)⟩
  situated := { h.situated with }

end Proper

end Blocks

section Results

variable {o : OpenCall}

namespace Proper

/-- An open call may ask for another number of results. -/
theorem ask (h : s.Proper Λ K) (ho : K.open? = some o) {k : Nat} {count : Int64}
    (hk : s.fn.proc.constants.get? k = some (.integer count)) :
    (s.withProc { s.fn.proc with instrs := s.fn.proc.instrs.modify o.call fun i =>
      { i with targets := i.targets.set 1 (.constant k) } }).Proper Λ
        { K with open? := some { o with count } } := by
  obtain ⟨C, ha, hg, hj, he⟩ := h.agrees
  rw [ho] at ha
  obtain ⟨-, -, i₀, hi₀, hc₀, args, k₀, -, ht₀, -⟩ := ha.unsettled o rfl
  have hend := Proc.isEnd_modify (p := s.fn.proc) (i := o.call)
    (f := fun i => { i with targets := i.targets.set 1 (.constant k) }) fun _ _ => rfl
  have hterm : Proc.isTerminated { s.fn.proc with instrs := s.fn.proc.instrs.modify o.call fun i =>
      { i with targets := i.targets.set 1 (.constant k) } } s.fn.block =
        s.fn.proc.isTerminated s.fn.block := by
    rw [Proc.isTerminated_eq, Proc.isTerminated_eq, hend]
    rfl
  constructor
  · refine h.laid.modify fun i hi => ⟨rfl, ?_⟩
    obtain rfl : i₀ = i := Option.some.inj (hi₀.symm.trans hi)
    refine Instr.targetsWithin_of_not_terminator (by rw [hc₀]; rfl) fun b => ?_
    simp [ht₀]
  · intro b hb
    exact hterm.trans (h.phase b hb)
  · exact h.listed.modify (f := fun i => { i with targets := i.targets.set 1 (.constant k) })
      (fun _ => rfl) o.call
  · refine forall_mem_modify (f := fun i => { i with targets := i.targets.set 1 (.constant k) })
      h.code o.call fun i hi x hx => ?_
    rcases List.mem_append.mp hx with hx | hx
    · exact hi x (List.mem_append_left _ hx)
    · rcases List.mem_or_eq_of_mem_set hx with hx | rfl
      · exact hi x (List.mem_append_right _ hx)
      · exact ⟨trivial, trivial⟩
  · exact h.known
  · intro l hl
    obtain ⟨i, hi, hops⟩ := h.loads l hl
    simp only [Proc.Reads, withProc_proc, Array.getElem?_modify, hi]
    split
    · exact ⟨_, rfl, hops⟩
    · exact ⟨i, rfl, hops⟩
  · exact h.constants
  · refine ⟨C, ha.ask hk, fun r c n hr => ?_, hj, he⟩
    have hcallee := Proc.calleeOf?_modify (p := s.fn.proc) (j := o.call)
      (f := fun i => { i with targets := i.targets.set 1 (.constant k) }) fun _ _ => rfl
    have hg' := hg r c n hr
    unfold standing at hg' ⊢
    simp only [withProc_proc, withProc_block, hterm]
    split
    · simp_all
    · rw [Proc.standing_congr rfl (fun j _ => hcallee j) fun _ _ _ => rfl]
      simp_all [Proc.ids]
  · exact h.situated.withProc ⟨rfl, rfl, rfl, rfl, rfl, rfl⟩ rfl

/-- It is settled how many results of the open call are taken. They are at hand from now on. -/
theorem settle (h : s.Proper Λ K) (ho : K.open? = some o) {n : Nat}
    (hn : o.count = Int64.ofNat n) (hroom : o.base + n ≤ s.fn.proc.anys.next) :
    s.Proper Λ { K with open? := none, grants := Function.update K.grants o.base (some (o.call, n)) }
    where
  __ := h
  agrees := by
    obtain ⟨C, ha, hg, hj, he⟩ := h.agrees
    rw [ho] at ha
    have htaken := (ha.unsettled o rfl).2.1
    have hkept (c m : Nat) (hc : C.taken c = some m) :
        (C.settle o.call n).taken c = some m := by
      refine (Function.update_of_ne ?_ _ _).trans hc
      rintro rfl
      simp [htaken] at hc
    obtain ⟨start, hs, hstand⟩ := ha.standing_unsettled
    have horigins : (s.standing (C.settle o.call n)).origins = (s.standing C).origins := by
      rw [standing_of_not_terminated s ha.not_terminated, standing_of_not_terminated s ha.not_terminated]
      exact Proc.Agrees.origins_settle
    refine ⟨C.settle o.call n, ha.settle h.listed hn hroom, fun r c m hr => ?_, fun j hj' => ?_, he⟩
    · rw [horigins]
      by_cases hr' : r = o.base
      · subst hr'
        simp only [Function.update_self, Option.some.injEq, Prod.mk.injEq] at hr
        obtain ⟨rfl, rfl⟩ := hr
        refine ⟨?_, Function.update_self _ _ _⟩
        rw [standing_of_not_terminated s ha.not_terminated, hstand]
        exact Function.update_self _ _ _
      · simp only [Function.update_of_ne hr'] at hr
        exact ⟨(hg r c m hr).1, hkept c m (hg r c m hr).2⟩
    · obtain ⟨hlt, hentry, hjoin⟩ := hj j hj'
      exact ⟨hlt, hentry, fun r c m hr => hkept c m (hjoin r c m hr)⟩

end Proper

end Results

section Stores

theorem relocate_rest {p q : Proc} {j b : Nat} (h : p.relocate j b = .ok q) :
    q.constants = p.constants ∧ q.locals = p.locals ∧ p.SameHeader q := by
  unfold Proc.relocate at h
  split at h
  · cases h
  · split at h
    · cases h
      exact ⟨rfl, rfl, rfl, rfl, rfl, rfl, rfl, rfl⟩
    · cases h

/-- A load that turned into a store and moved is the only instruction to change. -/
theorem getElem?_turned {p q : Proc} {load b : Nat} {i : Instr} {value : Operand} {opcode : Opcode}
    (hi : p.instrs[load]? = some i)
    (hq : Proc.relocate { p with instrs := p.instrs.modify load fun i =>
      { i with opcode, operands := i.operands ++ [value], targets := [] } } load b = .ok q)
    (k : Nat) :
    q.instrs[k]? = if k = load then some { i with
      opcode, operands := i.operands ++ [value], targets := [], block := b }
      else p.instrs[k]? := by
  obtain ⟨-, -, hinstrs, -⟩ := Proc.relocate_ok hq
  simp only [hinstrs, Array.getElem?_modify]
  by_cases hk : load = k
  · subst hk
    simp [hi]
  · simp [hk, Ne.symm hk]

/-- A load turns into a store at the end of the current block. -/
theorem Proper.turn (h : s.Proper Λ K) (hopen : s.fn.proc.IsOpen s.fn.block) {load : Nat}
    {i : Instr} {value : Operand} {opcode : Opcode} {q : Proc}
    (hi : s.fn.proc.instrs[load]? = some i) (hop : i.opcode.storeCounterpart? = some opcode)
    (hnone : K.open? = none) (hops : ∀ o ∈ i.operands ++ [value], o ∈ K.known ∧ o.Usable K.grants)
    (hq : Proc.relocate { s.fn.proc with instrs := s.fn.proc.instrs.modify load fun i =>
      { i with opcode, operands := i.operands ++ [value], targets := [] } } load s.fn.block = .ok q)
    {rest : List (Nat × List Operand)} (hrest : ∀ l ∈ rest, l ∈ K.loads ∧ l.1 ≠ load) :
    (s.withProc q).Proper Λ { K with loads := rest, isOpen? := some true } := by
  obtain ⟨hload, hstore⟩ := Opcode.isStraight_of_storeCounterpart? hop
  have hkind : ∀ old, s.fn.proc.instrs[load]? = some old →
      opcode.isTerminator = old.opcode.isTerminator := by
    intro old hold
    obtain rfl : i = old := Option.some.inj (hi.symm.trans hold)
    exact hstore.1.trans hload.1.symm
  have hret : i.opcode ≠ .ret := by
    intro hr
    rw [hr] at hload
    cases hload.1
  obtain ⟨-, -, -, hsize, -, hpool, -⟩ := Proc.relocate_ok hq
  obtain ⟨hconstants, hlocals, hheader⟩ := relocate_rest hq
  have hget := getElem?_turned hi hq
  have hmodified := h.listed.modify (f := fun i =>
    { i with opcode, operands := i.operands ++ [value], targets := [] }) (fun _ => rfl) load
  have hids := hmodified.ids_relocate hq
  obtain ⟨hlaid, hopen'⟩ := (h.laid.modify (f := fun i =>
    { i with opcode, operands := i.operands ++ [value], targets := [] }) fun old hold =>
      ⟨hkind old hold, Instr.targetsWithin_of_not_terminator hstore.1 (by simp)⟩).relocate
    (hopen.modify hkind) (by simp [Proc.isEnd, Array.getElem?_modify, hi, hstore.1]) hq
  have hfits {o : Operand} (ho : o.Suits Λ.symbols Λ.function s.fn) :
      o.Suits Λ.symbols Λ.function { s.fn with proc := q } := by
    refine ho.withProc (Nat.le_of_eq (congrArg Registers.next hlocals.symm)) fun kind => ?_
    rw [Proc.maxTemps, Proc.maxTemps, hpool]
    cases kind <;> exact Nat.le_refl _
  obtain ⟨C, ha, hv⟩ := h.agrees
  have hadmitted : Instr.Admitted C (s.fn.proc.standing C s.fn.block (s.fn.proc.ids s.fn.block))
      { i with opcode, operands := i.operands ++ [value], targets := [], block := s.fn.block } :=
    hv.admitted ha hopen (allows_of_none hnone hops) (by simp)
  rw [hnone] at ha
  have hagrees := ha.turn hi hload.2 hret hstore.2 hadmitted hget (fun b => hids b) hsize hconstants
    (congrFun hpool .any)
  have hcallee := Proc.Agrees.calleeOf?_turned hi hload.2 hstore.2 hget
  have horigins : ((s.withProc q).standing C).origins = (s.standing C).origins := by
    have hnot : q.calleeOf? load = none := by
      rw [hcallee, Proc.calleeOf?, hi]
      exact Instr.callee?_eq_none hload.2
    rw [standing_of_not_terminated (s.withProc q) hopen'.isTerminated,
      standing_of_not_terminated s hopen.isTerminated]
    simp only [withProc_proc, withProc_block, hids, if_true, Proc.standing_concat]
    rw [Proc.advance_of_not_call hnot]
    have hstand := ha.standing_turned hi hload.2 hret hcallee s.fn.block
    exact (congrArg Standing.origins hstand :)
  constructor
  · exact hlaid
  · rintro b ⟨⟩
    exact hopen'.isTerminated
  · exact hmodified.relocate hq
  · intro j hj o ho
    obtain ⟨k, hk⟩ := Array.mem_iff_getElem?.mp hj
    rw [withProc_proc, hget] at hk
    split at hk
    · cases hk
      simp only [List.append_nil] at ho
      exact hfits (h.known o (hops o ho).1)
    · exact hfits (h.code j (Array.mem_of_getElem? hk) o ho)
  · intro o ho
    exact hfits (h.known o ho)
  · intro l hl
    obtain ⟨hmem, hne⟩ := hrest l hl
    refine (h.loads l hmem).of_instr fun j hj => ?_
    rw [withProc_proc, hget, if_neg hne]
    exact hj
  · rw [withProc_proc, hconstants]
    exact h.constants
  · refine ⟨C, hnone ▸ hagrees, hv.withProc hsize rfl ?_⟩
    rw [horigins]
    exact hv.grants
  · exact h.situated.withProc ⟨hheader.id_eq, hheader.parent_eq, hheader.upvalues_eq,
      hheader.name_eq, hheader.params_eq, hheader.isVararg_eq⟩ hlocals

end Stores

section Scopes

/-- A pool whose free registers are all those from some number on hands out that number next. -/
theorem alloc_of_free_eq {r : Registers} {n : Nat} (hn : n ≤ r.next)
    (hf : r.free = List.range' n (r.next - n)) :
    r.alloc.2 = n ∧ r.alloc.1.next = max r.next (n + 1) ∧
      r.alloc.1.free = List.range' (n + 1) (r.alloc.1.next - (n + 1)) := by
  unfold Registers.alloc
  rcases Nat.eq_or_lt_of_le hn with rfl | hlt
  · simp only [Nat.sub_self, List.range'_zero] at hf
    simp [hf]
  · obtain ⟨k, hk⟩ : ∃ k, r.next - n = k + 1 := ⟨r.next - n - 1, by omega⟩
    rw [hk, List.range'_succ] at hf
    have hk' : r.next - (n + 1) = k := by omega
    simp only [hf, hk', true_and, and_true]
    exact (Nat.max_eq_left hlt).symm

namespace Proper

theorem openScope (h : s.Proper Λ K) :
    Proper Λ { K with locals := [] :: K.locals }
      { s with fn := { s.fn with scopes := [] :: s.fn.scopes } } where
  __ := h
  agrees := by
    obtain ⟨C, ha, hv⟩ := h.agrees
    exact ⟨C, ha, hv.grants, hv.joins, hv.exits⟩
  situated := { h.situated with
    scopes_eq := congrArg ([] :: ·) h.situated.scopes_eq
    numbered_eq := h.situated.numbered_eq }

/-- A local is declared in the innermost scope. -/
theorem declared (h : s.Proper Λ K) {scope : List SymbolId} {rest : List (List SymbolId)}
    (hl : K.locals = scope :: rest) {entries : List (SymbolId × Nat)}
    {scopes : List (List (SymbolId × Nat))} (hs : s.fn.scopes = entries :: scopes) {id : SymbolId}
    {sym : Symbol} (hsym : Λ.symbols.get? id = some sym)
    (ha : Λ.function.Admits (id :: (scope :: rest).flatten)) :
    Proper Λ { K with
        locals := (id :: scope) :: rest
        known := .symbol (.localVar sym.name s.fn.proc.allocLocal.2 sym.ty.tag) :: K.known }
      { s with fn := { s.fn with
        proc := s.fn.proc.allocLocal.1
        scopes := ((id, s.fn.proc.allocLocal.2) :: entries) :: scopes
        history := ((id, s.fn.proc.allocLocal.2) :: (entries :: scopes).flatten) ::
          s.fn.history } } := by
  have hsit := h.situated
  rw [hl] at hsit
  obtain ⟨hreg, hnext, hfree⟩ := alloc_of_free_eq hsit.length_le hsit.free_eq
  have hlt : (scope :: rest).flatten.length + 1 ≤ s.fn.proc.locals.alloc.1.next :=
    hnext ▸ Nat.le_max_right _ _
  have hnum : s.fn.proc.numLocals ≤ s.fn.proc.allocLocal.1.numLocals :=
    Registers.next_le_alloc _
  have htemps (kind : TempKind) : s.fn.proc.maxTemps kind ≤ s.fn.proc.allocLocal.1.maxTemps kind := by
    cases kind <;> exact Nat.le_refl _
  constructor
  · exact h.laid.of_eq rfl rfl
  · exact h.phase
  · exact h.listed.of_eq rfl rfl
  · intro i hi o ho
    exact ⟨(h.code i hi o ho).1.mono hnum htemps, (h.code i hi o ho).2.cons _⟩
  · intro o ho
    rcases List.mem_cons.mp ho with rfl | ho
    · refine ⟨?_, id, sym, hsym, rfl, rfl, _, List.mem_cons_self, List.lookup_cons_self⟩
      show s.fn.proc.locals.alloc.2 < s.fn.proc.locals.alloc.1.next
      rw [hreg]
      exact hlt
    · exact ⟨(h.known o ho).1.mono hnum htemps, (h.known o ho).2.cons _⟩
  · exact h.loads
  · exact h.constants
  · obtain ⟨C, ha, hv⟩ := h.agrees
    exact ⟨C, ha.of_code rfl rfl (fun _ _ hk => hk) (Nat.le_refl _), hv.grants, hv.joins, hv.exits⟩
  · have hscopes := hsit.scopes_eq
    have hnumbered := hsit.numbered_eq
    rw [hs] at hscopes hnumbered
    exact { hsit with
      heads := hsit.heads.of_same ⟨rfl, rfl, rfl, rfl, rfl, rfl⟩
      scopes_eq := by
        simp only [List.map_cons, List.cons.injEq, true_and] at hscopes ⊢
        exact hscopes
      numbered_eq := by
        show (id, s.fn.proc.locals.alloc.2) :: (entries :: scopes).flatten = _
        rw [hreg, hnumbered]
        rfl
      length_le := hlt
      free_eq := hfree
      chronicle := by
        show Chronicle _ _ (((id, s.fn.proc.locals.alloc.2) :: (entries :: scopes).flatten) :: _) _
        rw [hreg, hnumbered]
        show Chronicle _ _ _ s.fn.proc.locals.alloc.1.next
        rw [hnext]
        exact hsit.chronicle.declare ha }

/-- What will be in scope once the newest locals are returned is noted. -/
theorem noted (h : s.Proper Λ K) {visible : List (SymbolId × Nat)} {l : List SymbolId}
    (hv : visible = numbered l) (hl : l <:+ K.locals.flatten) :
    Proper Λ K { s with fn := { s.fn with history := visible :: s.fn.history } } := by
  subst hv
  exact { h with
    code := fun i hi o ho => ⟨(h.code i hi o ho).1, (h.code i hi o ho).2.cons _⟩
    known := fun o ho => ⟨(h.known o ho).1, (h.known o ho).2.cons _⟩
    agrees := by
      obtain ⟨C, ha, hv⟩ := h.agrees
      exact ⟨C, ha, hv.grants, hv.joins, hv.exits⟩
    situated := { h.situated with chronicle := h.situated.chronicle.note hl } }

/-- The newest local goes out of scope. -/
theorem undeclared {id : SymbolId} {scope : List SymbolId} {rest : List (List SymbolId)}
    {entry : SymbolId × Nat} {entries : List (SymbolId × Nat)}
    (h : Proper Λ { K with locals := (id :: scope) :: rest } (s.scoped (entry :: entries))) :
    Proper Λ { K with locals := scope :: rest } ((s.withProc { s.fn.proc with
      locals := { s.fn.proc.locals with free := entry.2 :: s.fn.proc.locals.free } }).scoped
        entries) := by
  have hsit := h.situated
  have hlt : (scope :: rest).flatten.length + 1 ≤ s.fn.proc.numLocals := hsit.length_le
  have hnumbered : entry :: (entries :: s.fn.scopes).flatten =
      (id, (scope :: rest).flatten.length) :: numbered (scope :: rest).flatten := hsit.numbered_eq
  obtain ⟨rfl, hrest⟩ := List.cons.inj hnumbered
  constructor
  · exact h.laid.of_eq rfl rfl
  · exact h.phase
  · exact h.listed.of_eq rfl rfl
  · intro i hi o ho
    exact ⟨(h.code i hi o ho).1.mono (Nat.le_refl _) fun kind => by cases kind <;> exact Nat.le_refl _,
      (h.code i hi o ho).2⟩
  · intro o ho
    exact ⟨(h.known o ho).1.mono (Nat.le_refl _) fun kind => by cases kind <;> exact Nat.le_refl _,
      (h.known o ho).2⟩
  · exact h.loads
  · exact h.constants
  · obtain ⟨C, ha, hv⟩ := h.agrees
    exact ⟨C, ha.of_code rfl rfl (fun _ _ hk => hk) (Nat.le_refl _), hv.grants, hv.joins, hv.exits⟩
  · have hscopes := hsit.scopes_eq
    simp only [LoweringState.scoped, List.map_cons, List.cons.injEq] at hscopes
    have hfree : s.fn.proc.locals.free = List.range' ((scope :: rest).flatten.length + 1)
        (s.fn.proc.numLocals - ((scope :: rest).flatten.length + 1)) := hsit.free_eq
    exact { hsit with
      heads := hsit.heads.of_same ⟨rfl, rfl, rfl, rfl, rfl, rfl⟩
      scopes_eq := by
        simp only [LoweringState.scoped, LoweringState.withProc, List.map_cons, hscopes.1.2,
          hscopes.2]
      numbered_eq := hrest
      length_le := Nat.le_of_succ_le hlt
      free_eq := by
        show _ :: s.fn.proc.locals.free =
          List.range' (scope :: rest).flatten.length
            (s.fn.proc.numLocals - (scope :: rest).flatten.length)
        obtain ⟨k, hk⟩ : ∃ k, s.fn.proc.numLocals - (scope :: rest).flatten.length = k + 1 :=
          ⟨_, (Nat.succ_pred_eq_of_pos (Nat.sub_pos_of_lt hlt)).symm⟩
        have hk' : s.fn.proc.numLocals - ((scope :: rest).flatten.length + 1) = k := by omega
        rw [hfree, hk, hk', List.range'_succ]
      chronicle := hsit.chronicle.drop (List.suffix_cons _ _) }

/-- A scope without locals can be left. -/
theorem dropScope {rest : List (List SymbolId)}
    (h : Proper Λ { K with locals := [] :: rest } (s.scoped [])) :
    Proper Λ { K with locals := rest } s where
  __ := h
  agrees := by
    obtain ⟨C, ha, hv⟩ := h.agrees
    exact ⟨C, ha, hv.grants, hv.joins, hv.exits⟩
  situated := { h.situated with
    scopes_eq := (List.cons.inj h.situated.scopes_eq).2
    numbered_eq := h.situated.numbered_eq }

end Proper

end Scopes

end LoweringState

section Functions

/-- No call has left results anywhere. -/
def Certificate.start : Certificate := ⟨fun _ _ => none, fun _ => none⟩

theorem Proc.Agrees.fresh {p : Proc} (hb : p.blocks = #[[], []]) (hi : p.instrs = #[]) :
    p.Agrees .start entryBlock none where
  certified b := by
    rw [ids_fresh hb]
    exact admits_nil
  entry_eq _ _ := rfl
  taken_eq _ _ := rfl
  calls j i hj := by simp [hi] at hj
  settled b _ := by simp [ids_fresh hb]
  unsettled _ ho := nomatch ho
  promised _ _ _ hj := nomatch hj

/-- A proc without code has all that a finished one has. -/
theorem Proc.Finished.fresh {p : Proc} (hb : p.blocks = #[[], []]) (hi : p.instrs = #[])
    (hc : p.constants = {}) (ht : ∀ kind, p.pool kind = {}) (hl : p.locals = {})
    (symbols : SymbolTable) (f : Function) : p.Finished symbols f where
  code := by simp [hi]
  exit_empty := by simp [ids_fresh hb]
  listed := .fresh hb hi
  agrees := ⟨_, entryBlock, .fresh hb hi⟩
  constants := by simp [hc]
  temps := .empty ht
  locals_free := by
    rw [Proc.numLocals, hl]
    rfl

/-- What is known when a function is begun. -/
def Outlook.start : Outlook :=
  { held := [], known := [], grants := .nothing, open? := none, isOpen? := some true, pending := [],
    joins := [], locals := [], loads := [] }

/-- A function before any of its code is emitted. -/
def Placement.begun (pl : Placement) (id : Nat) (parent : Option Nat) (upvalues : List Upvalue) :
    FunctionState where
  proc :=
    { id, parent, name := pl.function.name, upvalues, isVararg := pl.function.isVararg
      params := pl.function.params.length }
  function := pl.function.id
  captures := pl.captures

/-- The locale of a function that is written in the one at hand. -/
def Locale.nested (Λ : Locale) (id : Nat) (inner : Placement) (upvalues : List Upvalue) : Locale :=
  { Λ with
    current := ⟨id, some Λ.current.id, inner⟩
    enclosing := Λ.openings
    upvalues }

namespace Module.Populated

variable {m : Module} {symbols : SymbolTable} {main : Function} {placements : List Placement}

theorem start (main : Function) :
    Populated ⟨#[{ id := 0, parent := none }]⟩ symbols main [⟨0, none, .root main⟩]
      [.root main] where
  assigned := .start main
  placed := by simp
  header := by simp
  finished i p pl hp _ := by
    rcases i with _ | i
    · cases hp
      exact .fresh rfl rfl rfl (fun kind => by cases kind <;> rfl) rfl _ _
    · simp at hp

theorem push {current : Opening} {enclosing : List Opening} {inner : Placement}
    (h : m.Populated symbols main (current :: enclosing) placements)
    (hlt : ∀ o ∈ enclosing, o.id < current.id) (hn : current.here.Nested symbols inner) :
    Populated ⟨m.procs.push { id := m.procs.size, parent := some current.id }⟩ symbols main
      (⟨m.procs.size, some current.id, inner⟩ :: current :: enclosing) (placements ++ [inner]) := by
  have hlen := h.assigned.length_eq
  have hsize (o : Opening) (ho : o ∈ current :: enclosing) : o.id < m.procs.size :=
    h.assigned.active_lt o.id (List.mem_map_of_mem ho)
  constructor
  · refine h.assigned.push List.mem_cons_self ?_ (h.placed current List.mem_cons_self) hn
    intro q hq
    obtain ⟨o, ho, rfl⟩ := List.mem_map.mp hq
    rcases List.mem_cons.mp ho with rfl | ho
    · exact Nat.le_refl _
    · exact Nat.le_of_lt (hlt o ho)
  · intro o ho
    rcases List.mem_cons.mp ho with rfl | ho
    · rw [← hlen, List.getElem?_concat_length]
    · rw [List.getElem?_append_left (by have := hsize o ho; omega)]
      exact h.placed o ho
  · intro o ho
    rcases List.mem_cons.mp ho with rfl | ho
    · exact ⟨_, Array.getElem?_push_size, rfl⟩
    · obtain ⟨p, hp, hparent⟩ := h.header o ho
      refine ⟨p, ?_, hparent⟩
      rw [Array.getElem?_push_lt (hsize o ho), ← Array.getElem?_eq_getElem (hsize o ho)]
      exact hp
  · intro i p pl hp hpl
    rw [Array.getElem?_push] at hp
    split at hp
    · cases hp
      exact .fresh rfl rfl rfl (fun kind => by cases kind <;> rfl) rfl _ _
    · have hi := (Array.getElem?_eq_some_iff.mp hp).1
      rw [List.getElem?_append_left (by omega)] at hpl
      exact h.finished i p pl hp hpl

theorem finish {current : Opening} {enclosing : List Opening} {q : Proc}
    (h : m.Populated symbols main (current :: enclosing) placements)
    (hlt : ∀ o ∈ enclosing, o.id < current.id) (hid : q.id = current.id)
    (hparent : q.parent = current.parent) (hhead : q.Heads current.here.function)
    (hroot : q.parent = none → q.upvalues = [])
    (hreach : ∀ k outer, q.parent = some k → placements[k]? = some outer →
      outer.Describes symbols current.here q.upvalues)
    (hq : q.Finished symbols current.here.function) :
    Populated ⟨m.procs.setIfInBounds current.id q⟩ symbols main enclosing placements := by
  obtain ⟨p₀, hp₀, hparent₀⟩ := h.header current List.mem_cons_self
  have hplaced := h.placed current List.mem_cons_self
  constructor
  · refine h.assigned.finish hid (fun p hp => ?_) hplaced hhead hroot hreach
    obtain rfl : p₀ = p := Option.some.inj (hp₀.symm.trans hp)
    rw [hparent, hparent₀]
  · exact fun o ho => h.placed o (List.mem_cons_of_mem _ ho)
  · intro o ho
    rw [Array.getElem?_setIfInBounds_ne (Nat.ne_of_gt (hlt o ho))]
    exact h.header o (List.mem_cons_of_mem _ ho)
  · intro i p pl hp hpl
    by_cases hi : i = current.id
    · subst hi
      have hsize := (Array.getElem?_eq_some_iff.mp hp₀).1
      rw [Array.getElem?_setIfInBounds_self_of_lt hsize] at hp
      cases hp
      cases hplaced.symm.trans hpl
      exact hq
    · rw [Array.getElem?_setIfInBounds_ne (Ne.symm hi)] at hp
      exact h.finished i p pl hp hpl

end Module.Populated

namespace Module.Recorded

variable {m : Module} {symbols : SymbolTable} {placements : List Placement}
  {histories : List (Nat × History)}

theorem push {openings : List Opening} {inner : Placement} {p : Proc}
    (h : m.Recorded histories symbols openings placements)
    (hlen : placements.length = m.procs.size) (parent : Option Nat) :
    Recorded ⟨m.procs.push p⟩ histories symbols (⟨m.procs.size, parent, inner⟩ :: openings)
      (placements ++ [inner]) := by
  intro i p pl hp hpl hi
  simp only [List.map_cons, List.mem_cons, not_or] at hi
  rw [Array.getElem?_push, if_neg hi.1] at hp
  rw [List.getElem?_append_left (by have := (Array.getElem?_eq_some_iff.mp hp).1; omega)] at hpl
  exact h i p pl hp hpl hi.2

theorem finish {current : Opening} {enclosing : List Opening} {q : Proc} {history : History}
    (h : m.Recorded histories symbols (current :: enclosing) placements)
    (hplaced : placements[current.id]? = some current.here)
    (hq : q.Numbers symbols current.here.function history) :
    Recorded ⟨m.procs.setIfInBounds current.id q⟩ ((current.id, history) :: histories) symbols
      enclosing placements := by
  intro i p pl hp hpl hi
  by_cases hne : i = current.id
  · subst hne
    refine ⟨history, List.lookup_cons_self, ?_⟩
    obtain ⟨-, rfl⟩ : current.id < m.procs.size ∧ q = p := by
      simpa [Array.getElem?_setIfInBounds] using hp
    cases hplaced.symm.trans hpl
    exact hq
  · rw [Array.getElem?_setIfInBounds_ne (Ne.symm hne)] at hp
    rw [List.lookup_cons, beq_false_of_ne hne]
    exact h i p pl hp hpl (by simp [hne, hi])

end Module.Recorded

namespace LoweringState.Proper

variable {Λ : Locale} {K K' : Outlook} {s s' : LoweringState}

/-- A function that is done with holds nothing. -/
theorem finished (h : s.Proper Λ K) (ho : K.open? = none) (ht : s.fn.proc.Holds [])
    (hl : K.locals = []) : s.fn.proc.Finished Λ.symbols Λ.function where
  code i hi o ho := (h.code i hi o ho).1
  exit_empty := h.laid.exit_empty
  listed := h.listed
  agrees := by
    obtain ⟨C, ha, -⟩ := h.agrees
    exact ⟨C, _, ho ▸ ha⟩
  constants := h.constants
  temps := ht
  locals_free := by
    rw [h.situated.free_eq, hl, List.range_eq_range']
    rfl

theorem numbers (h : s.Proper Λ K) (hp : numbered Λ.function.params.reverse ∈ s.fn.history) :
    s.fn.proc.Numbers Λ.symbols Λ.function s.fn.history :=
  h.situated.chronicle.numbers hp fun i hi o ho => (h.code i hi o ho).2

/-- Nothing is known yet of a function that was only just begun. -/
theorem begun (hs : s.fn = Λ.current.here.begun Λ.current.id Λ.current.parent Λ.upvalues)
    (hlt : ∀ o ∈ Λ.enclosing, o.id < Λ.current.id)
    (hp : ∃ placements, s.module.Populated Λ.symbols Λ.main Λ.openings placements ∧
      s.module.Recorded s.histories Λ.symbols Λ.openings placements) :
    s.Proper Λ .start := by
  obtain ⟨stats, module, fn, calls, histories⟩ := s
  obtain rfl : fn = _ := hs
  constructor
  · exact .fresh rfl rfl
  · rintro b ⟨⟩
    rfl
  · exact .fresh rfl rfl
  · exact nofun
  · exact nofun
  · exact nofun
  · exact List.nodup_nil
  · exact ⟨.start, .fresh rfl rfl, nofun, nofun, nofun⟩
  · exact ⟨rfl, rfl, rfl, rfl, rfl, ⟨rfl, rfl, rfl⟩, rfl, rfl, Nat.le_refl _, rfl, hlt,
      .start _, hp⟩

/-- A function in the body of the one at hand is begun. -/
theorem begin (h : s.Proper Λ K) {inner : Placement} {upvalues : List Upvalue}
    (hn : Λ.current.here.Nested Λ.symbols inner) :
    Proper (Λ.nested s.module.procs.size inner upvalues) .start
      { s with
        module := ⟨s.module.procs.push { id := s.module.procs.size, parent := some s.fn.proc.id }⟩
        fn := inner.begun s.module.procs.size (some s.fn.proc.id) upvalues } := by
  have hid := h.situated.id_eq
  obtain ⟨placements, hpop, hrec⟩ := h.situated.populated
  refine begun ?_ ?_ ⟨placements ++ [inner], ?_, hrec.push hpop.assigned.length_eq _⟩
  · rw [hid]
    rfl
  · intro o ho
    exact hpop.assigned.active_lt o.id (List.mem_map_of_mem ho)
  · rw [hid]
    exact hpop.push h.situated.enclosing_lt hn

/-- The function at hand continues once the one in its body is lowered. -/
theorem resume (h : s.Proper Λ K) {inner : Placement} {upvalues : List Upvalue}
    (hreach : Λ.current.here.Describes Λ.symbols inner upvalues)
    (h' : s'.Proper (Λ.nested s.module.procs.size inner upvalues) K') (ho : K'.open? = none)
    (ht : s'.fn.proc.Holds []) (hl : K'.locals = [])
    (hparams : numbered inner.function.params.reverse ∈ s'.fn.history) (stats : Stats) :
    Proper Λ K { s' with
      stats, module := ⟨s'.module.procs.setIfInBounds s.module.procs.size s'.fn.proc⟩
      fn := s.fn
      histories := (s.module.procs.size, s'.fn.history) :: s'.histories } := by
  obtain ⟨placements, hpop, hrec⟩ := h'.situated.populated
  have hparent : s'.fn.proc.parent = some Λ.current.id := h'.situated.parent_eq
  refine h.withModule rfl ⟨placements, hpop.finish h'.situated.enclosing_lt h'.situated.id_eq
    h'.situated.parent_eq h'.situated.heads ?_ ?_ (h'.finished ho ht hl),
    hrec.finish (hpop.placed _ List.mem_cons_self) (h'.numbers hparams)⟩
  · intro hnone
    simp [hnone] at hparent
  · intro k outer hk hout
    obtain rfl : Λ.current.id = k := Option.some.inj (hparent.symm.trans hk)
    have hplaced := hpop.placed Λ.current (List.mem_cons_of_mem _ List.mem_cons_self)
    cases hplaced.symm.trans hout
    rw [h'.situated.upvalues_eq]
    exact hreach

end LoweringState.Proper

end Functions

end ScriptC
