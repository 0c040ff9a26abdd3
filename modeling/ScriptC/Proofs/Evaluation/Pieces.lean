import ScriptC.Proofs.Blocks.Actions
import ScriptC.Proofs.Constants
import ScriptC.Proofs.Evaluation.Machine

/-! # Pieces of code

A piece of code grows a proc from the end of one block to the end of another. It is known by the
registers it leaves live, by the values it delivers and by the registers it does not touch. Pieces
are put together from single instructions.
-/

namespace ScriptC

/-- Which values, with which trace, code delivers for given locals. -/
abbrev Meaning (α : Type) := (Nat → Datum) → α → List Event → Prop

namespace Proc

/-- The temporary is handed out. -/
def IsLive (p : Proc) (kind : TempKind) (r : Nat) : Prop := (p.pool kind).IsLive r

/-- The proc after what an operand owns is returned. -/
def freed (p : Proc) (o : Operand) : Proc :=
  match owned? o with
  | some (kind, r) => p.setPool kind { p.pool kind with free := r :: (p.pool kind).free }
  | none => p

/-- Only the pools of the procs differ. -/
structure SameCode (p q : Proc) : Prop where
  blocks : q.blocks = p.blocks
  instrs : q.instrs = p.instrs
  constants : q.constants = p.constants

/-- The proc takes instructions at the end of `b` while the `pending` blocks wait for theirs. -/
structure Ready (p : Proc) (b : Nat) (pending : List Nat) : Prop where
  laid : p.Laid b pending
  isOpen : p.IsOpen b
  pools : ∀ kind, (p.pool kind).WellFormed

/-- A machine about to execute what comes next in a block. -/
def atEnd (p : Proc) (b : Nat) (st : Store) : Machine := ⟨b, (p.ids b).length, st⟩

section Pools

variable {p q : Proc} {o : Operand} {kind kind' : TempKind} {r : Nat} {regs : Registers}

theorem sameCode_setPool : p.SameCode (p.setPool kind regs) := by
  cases kind <;> exact ⟨rfl, rfl, rfl⟩

theorem sameCode_freed : p.SameCode (p.freed o) := by
  unfold freed
  split
  · exact sameCode_setPool
  · exact ⟨rfl, rfl, rfl⟩

theorem freeTemp_eq (h : ∀ kind r, owned? o = some (kind, r) → p.IsLive kind r) :
    p.freeTemp o = .ok (p.freed o) := by
  unfold freeTemp freed
  cases ho : owned? o with
  | none => rfl
  | some owned =>
    obtain ⟨kind, r⟩ := owned
    simp only [(h kind r ho).release]
    rfl

theorem isLive_freed :
    (p.freed o).IsLive kind r ↔ p.IsLive kind r ∧ owned? o ≠ some (kind, r) := by
  unfold IsLive freed
  cases ho : owned? o with
  | none => simp
  | some owned =>
    obtain ⟨k, x⟩ := owned
    simp only [pool_setPool, ne_eq, Option.some.injEq, Prod.mk.injEq]
    split <;> rename_i hk
    · subst hk
      rw [Registers.isLive_released]
      tauto
    · simp [Ne.symm hk]

theorem wellFormed_freed (hp : ∀ kind, (p.pool kind).WellFormed)
    (h : ∀ kind r, owned? o = some (kind, r) → p.IsLive kind r) (kind : TempKind) :
    ((p.freed o).pool kind).WellFormed := by
  unfold freed
  cases ho : owned? o with
  | none => exact hp kind
  | some owned =>
    obtain ⟨k, x⟩ := owned
    simp only [pool_setPool]
    split
    · exact (hp k).release (h k x ho).release
    · exact hp kind

@[simp] theorem owned?_temp : owned? (.temp kind r) = some (kind, r) := by
  cases kind <;> rfl

theorem allocTemp_eq :
    p.allocTemp kind = (p.setPool kind (p.pool kind).alloc.1, .temp kind (p.pool kind).alloc.2) :=
  rfl

theorem sameCode_allocTemp : p.SameCode (p.allocTemp kind).1 := sameCode_setPool

theorem not_isLive_allocTemp (h : owned? (p.allocTemp kind).2 = some (kind', r)) :
    ¬ p.IsLive kind' r := by
  obtain ⟨rfl, rfl⟩ : kind = kind' ∧ (p.pool kind).alloc.2 = r := by
    simpa only [allocTemp_eq, owned?_temp, Option.some.injEq, Prod.mk.injEq] using h
  exact Registers.not_isLive_alloc

theorem isLive_allocTemp (hp : ∀ kind, (p.pool kind).WellFormed) :
    (p.allocTemp kind).1.IsLive kind' r ↔
      p.IsLive kind' r ∨ owned? (p.allocTemp kind).2 = some (kind', r) := by
  simp only [IsLive, allocTemp_eq, pool_setPool, owned?_temp, Option.some.injEq, Prod.mk.injEq]
  split <;> rename_i hk
  · subst hk
    rw [(hp _).isLive_alloc]
    simp [eq_comm]
  · simp [Ne.symm hk]

theorem wellFormed_allocTemp (hp : ∀ kind, (p.pool kind).WellFormed) (kind' : TempKind) :
    ((p.allocTemp kind).1.pool kind').WellFormed := by
  simp only [allocTemp_eq, pool_setPool]
  split
  · exact (hp kind).alloc
  · exact hp kind'

end Pools

section Code

variable {p q : Proc} {b c : Nat} {i : Instr} {pending : List Nat} {m : Machine}
  {st : Store} {trace : List Event}

theorem SameCode.ids (h : p.SameCode q) : q.ids = p.ids := by
  funext b
  simp only [Proc.ids, h.blocks]

theorem SameCode.trans {r : Proc} (h : p.SameCode q) (h' : q.SameCode r) : p.SameCode r :=
  ⟨h'.blocks.trans h.blocks, h'.instrs.trans h.instrs, h'.constants.trans h.constants⟩

theorem SameCode.extends (h : p.SameCode q) : p.Extends q where
  ids _ := h.ids ▸ List.prefix_rfl
  instrs _ _ hi := by rwa [h.instrs]
  constants _ _ hk := by rwa [h.constants]

theorem SameCode.atEnd (h : p.SameCode q) : q.atEnd b st = p.atEnd b st := by
  simp only [Proc.atEnd, h.ids]

theorem SameCode.ready (h : p.SameCode q) (hp : p.Ready b pending)
    (hq : ∀ kind, (q.pool kind).WellFormed) : q.Ready b pending where
  laid := hp.laid.of_eq h.blocks h.instrs
  isOpen := by
    have := hp.isOpen
    simpa only [IsOpen, h.ids, isEnd, h.instrs] using this
  pools := hq

theorem extends_appended (hb : b < p.blocks.size) : p.Extends (p.appended b i) where
  ids c := by
    rw [ids_appended hb]
    split <;> rename_i h
    · exact h ▸ List.prefix_append _ _
    · exact List.prefix_rfl
  instrs j instr hj := by
    have hlt := (Array.getElem?_eq_some_iff.mp hj).1
    rw [appended, Array.getElem?_push_lt hlt, ← hj, Array.getElem?_eq_getElem hlt]
  constants _ _ hk := hk

theorem extends_newBlock : p.Extends p.newBlock.1 where
  ids b := by simp
  instrs _ _ hi := hi
  constants _ _ hk := hk

theorem extends_intern {k : Constant} : p.Extends (p.intern k).1 where
  ids _ := List.prefix_rfl
  instrs _ _ hi := hi
  constants _ _ := ConstantPool.get?_of_prefix (p.constants.prefix_intern k)

@[simp] theorem pool_appended {kind : TempKind} : (p.appended b i).pool kind = p.pool kind := by
  cases kind <;> rfl

@[simp] theorem pool_newBlock {kind : TempKind} : p.newBlock.1.pool kind = p.pool kind := by
  cases kind <;> rfl

@[simp] theorem pool_intern {k : Constant} {kind : TempKind} :
    (p.intern k).1.pool kind = p.pool kind := by
  cases kind <;> rfl

@[simp] theorem isLive_appended {kind : TempKind} {r : Nat} :
    (p.appended b i).IsLive kind r ↔ p.IsLive kind r := by
  simp [IsLive]

@[simp] theorem isLive_newBlock {kind : TempKind} {r : Nat} :
    p.newBlock.1.IsLive kind r ↔ p.IsLive kind r := by
  simp [IsLive]

/-- The instruction just appended is the next to be executed. -/
theorem reaches_appended (hb : b < p.blocks.size)
    (he : (p.appended b i).execute (p.atEnd b st) i = some (m, trace)) :
    Reaches (p.appended b i).step (p.atEnd b st) trace m := by
  apply Reaches.of_step
  simpa only [step, atEnd, instrAt?_appended hb, Option.bind_eq_bind, Option.bind_some] using he

theorem atEnd_appended (hb : b < p.blocks.size) (st st' : Store) :
    (p.appended b i).atEnd b st' = (p.atEnd b st).next st' := by
  simp [atEnd, Machine.next, ids_appended hb]

theorem Ready.append (h : p.Ready b pending) (hi : i.opcode.isTerminator = false)
    (ht : ∀ c, .block c ∉ i.targets) : (p.appended b i).Ready b pending where
  laid := h.laid.append h.isOpen (Instr.targetsWithin_of_not_terminator hi ht)
  isOpen := h.laid.isOpen_appended h.isOpen hi
  pools kind := by simpa using h.pools kind

end Code

/-- What code after `p` may not touch is the same in both stores. -/
structure Kept (p : Proc) (st st' : Store) : Prop where
  locals : st'.locals = st.locals
  temps : ∀ kind r, p.IsLive kind r → st.SameTemp st' kind r

section Stores

variable {p q : Proc} {st st' st'' : Store} {o : Operand} {v : Datum}

theorem Kept.refl (p : Proc) (st : Store) : p.Kept st st where
  locals := rfl
  temps kind r _ := Store.SameTemp.refl st kind r

theorem Kept.trans (h : p.Kept st st') (h' : q.Kept st' st'')
    (hl : ∀ kind r, p.IsLive kind r → q.IsLive kind r) : p.Kept st st'' where
  locals := h'.locals.trans h.locals
  temps kind r hr := (h.temps kind r hr).trans (h'.temps kind r (hl kind r hr))

/-- An operand that owns nothing, or only what is live, keeps its value. -/
theorem Kept.read (h : p.Kept st st') (ho : ∀ kind r, owned? o = some (kind, r) → p.IsLive kind r)
    (hr : q.read st o = some v) : q.read st' o = some v := by
  cases o with
  | symbol ref =>
    cases ref with
    | localVar name r tag => simpa only [Proc.read, h.locals] using hr
    | _ => exact hr
  | tempInt r =>
    have := h.temps .int r (ho _ _ rfl)
    simp only [Store.SameTemp] at this
    simpa only [Proc.read, this] using hr
  | tempAny r =>
    have := h.temps .any r (ho _ _ rfl)
    simp only [Store.SameTemp] at this
    simpa only [Proc.read, this] using hr
  | _ => exact hr

end Stores

/-- From the end of `b` to the end of `c`, the code that `q` has and `p` has not computes the
values of some operands. What they own is returned. -/
structure Computes (p : Proc) (b : Nat) (q : Proc) (c : Nat) (os : List Operand)
    (R : Meaning (List Datum)) : Prop where
  code : p.Extends q
  live : ∀ kind r, q.IsLive kind r ↔ p.IsLive kind r
  runs : ∀ st vs trace, R st.locals vs trace → ∃ st', Reaches q.step (p.atEnd b st) trace (q.atEnd c st') ∧
    os.mapM (q.read st') = some vs ∧ p.Kept st st'

/-- From the end of `b` to the end of `c`, the code that `q` has and `p` has not delivers a value
in an operand. What that owns was free before. -/
structure Delivers (p : Proc) (b : Nat) (q : Proc) (c : Nat) (o : Operand) (R : Meaning Datum) :
    Prop where
  code : p.Extends q
  fresh : ∀ kind r, owned? o = some (kind, r) → ¬ p.IsLive kind r
  live : ∀ kind r, q.IsLive kind r ↔ p.IsLive kind r ∨ owned? o = some (kind, r)
  runs : ∀ st v trace, R st.locals v trace → ∃ st', Reaches q.step (p.atEnd b st) trace (q.atEnd c st') ∧
    q.read st' o = some v ∧ p.Kept st st'

section Pieces

variable {p q q' : Proc} {b c c' : Nat} {o x y : Operand} {os : List Operand}
  {R R' : Meaning Datum} {S : Meaning (List Datum)} {pending : List Nat} {i : Instr}

theorem Delivers.owned (h : p.Delivers b q c o R) (kind : TempKind) (r : Nat)
    (ho : owned? o = some (kind, r)) : q.IsLive kind r :=
  (h.live kind r).mpr (Or.inr ho)

theorem Delivers.release (h : p.Delivers b q c o R) :
    p.Computes b (q.freed o) c [o] fun l vs trace => ∃ v, vs = [v] ∧ R l v trace where
  code := h.code.trans sameCode_freed.extends
  live kind r := by
    rw [isLive_freed, h.live]
    have := h.fresh kind r
    tauto
  runs st vs trace := by
    rintro ⟨v, rfl, hR⟩
    obtain ⟨st', hr, hv, hk⟩ := h.runs st v trace hR
    refine ⟨st', ?_, ?_, hk⟩
    · rw [sameCode_freed.atEnd]
      exact sameCode_freed.extends.reaches hr
    · simp [sameCode_freed.extends.read hv]

/-- The first value outlives the computation of the second. -/
theorem Delivers.release₂ (h : p.Delivers b q c x R) (h' : q.Delivers c q' c' y R') :
    p.Computes b ((q'.freed y).freed x) c' [x, y] fun l vs trace =>
      ∃ v w t t', vs = [v, w] ∧ trace = t ++ t' ∧ R l v t ∧ R' l w t' where
  code := h.code.trans <| h'.code.trans <| sameCode_freed.extends.trans sameCode_freed.extends
  live kind r := by
    rw [isLive_freed, isLive_freed, h'.live, h.live]
    have := h.fresh kind r
    have := h'.fresh kind r
    rw [h.live] at this
    tauto
  runs st vs trace := by
    rintro ⟨v, w, t, t', rfl, rfl, hR, hR'⟩
    obtain ⟨st₁, hr, hv, hk⟩ := h.runs st v t hR
    obtain ⟨st₂, hr', hw, hk'⟩ := h'.runs st₁ w t' (by rwa [hk.locals])
    have hc : q'.SameCode ((q'.freed y).freed x) := sameCode_freed.trans sameCode_freed
    refine ⟨st₂, ?_, ?_, hk.trans hk' fun kind r hl => (h.live kind r).mpr (Or.inl hl)⟩
    · rw [hc.atEnd]
      exact hc.extends.reaches ((h'.code.reaches hr).trans hr')
    · have hv' := hk'.read h.owned (h'.code.read hv)
      simp [hc.extends.read hv', hc.extends.read hw]

/-- An instruction takes the values and puts its result in a new temporary. The new temporary may
be one that a value was in. -/
theorem Computes.instr (h : p.Computes b q c os S) (hq : q.Ready c pending) {opcode : Opcode}
    {kind : TempKind}
    (hR : ∀ l v trace, R l v trace → kind.takes v = true ∧ ∃ vs before last, S l vs before ∧
      opcode.compute? vs = some (v, last) ∧ trace = before ++ last) :
    p.Delivers b ((q.allocTemp kind).1.appended c ⟨opcode, os, [(q.allocTemp kind).2], c⟩) c
      (q.allocTemp kind).2 R := by
  have hc : q.SameCode (q.allocTemp kind).1 := sameCode_allocTemp
  have hlt : c < (q.allocTemp kind).1.blocks.size := by rw [hc.blocks]; exact hq.laid.current_lt
  have hfresh : ∀ k r, owned? (q.allocTemp kind).2 = some (k, r) → ¬ p.IsLive k r := by
    intro k r ho
    rw [← h.live]
    exact not_isLive_allocTemp ho
  have hcode := hc.extends.trans (@extends_appended _ _ ⟨opcode, os, [(q.allocTemp kind).2], c⟩ hlt)
  refine ⟨h.code.trans hcode, hfresh, fun k r => ?_, fun st v trace hv => ?_⟩
  · rw [isLive_appended, isLive_allocTemp hq.pools, h.live]
  · obtain ⟨ht, vs, before, last, hS, hm, rfl⟩ := hR _ _ _ hv
    obtain ⟨st₁, hr, hvs, hk⟩ := h.runs st vs before hS
    obtain ⟨st₂, hw, hread, hl, hsame⟩ := st₁.write_temp (r := (q.pool kind).alloc.2) ht
    refine ⟨st₂, ?_, hread _, hl.trans hk.locals, fun k r hr => ?_⟩
    · rw [atEnd_appended hlt st₁]
      refine (hcode.reaches hr).trans ?_
      rw [← hc.atEnd]
      exact reaches_appended hlt (execute_computed hm (hcode.mapM_read hvs) hw)
    · have hne : (k, r) ≠ (kind, (q.pool kind).alloc.2) := by
        rintro ⟨rfl, rfl⟩
        exact hfresh _ _ owned?_temp hr
      exact (hk.temps k r hr).trans (hsame k r hne)

theorem Computes.swap (h : p.Computes b q c [x, y] S) :
    p.Computes b q c [y, x] fun l vs trace => ∃ v w, vs = [w, v] ∧ S l [v, w] trace where
  code := h.code
  live := h.live
  runs st vs trace := by
    rintro ⟨v, w, rfl, hS⟩
    obtain ⟨st', hr, hvs, hk⟩ := h.runs st [v, w] trace hS
    refine ⟨st', hr, ?_, hk⟩
    have hxy : q.read st' x = some v ∧ q.read st' y = some w := by
      simpa [Option.bind_eq_some_iff] using hvs
    simp [hxy.1, hxy.2]

end Pieces

section Moves

variable {p q q' : Proc} {b c r : Nat} {o dest : Operand} {R : Meaning Datum} {pending : List Nat}
  {st : Store} {v : Datum}

/-- The proc after a copy to a generic operand, which takes no instruction if both are one. -/
def moved (p : Proc) (b : Nat) (o dest : Operand) : Proc :=
  if o.sameStorage dest then p else p.appended b ⟨.mov, [o], [dest], b⟩

theorem extends_moved (hb : b < p.blocks.size) : p.Extends (p.moved b o dest) := by
  unfold moved
  split
  · exact Extends.refl p
  · exact extends_appended hb

@[simp] theorem isLive_moved {kind : TempKind} {x : Nat} :
    (p.moved b o dest).IsLive kind x ↔ p.IsLive kind x := by
  unfold moved
  split <;> simp

@[simp] theorem size_moved : (p.moved b o dest).blocks.size = p.blocks.size := by
  unfold moved
  split
  · rfl
  · exact Array.size_modify

theorem ids_moved_of_ne (hb : b < p.blocks.size) (hc : c ≠ b) :
    (p.moved b o dest).ids c = p.ids c := by
  unfold moved
  split
  · rfl
  · rw [ids_appended hb, if_neg hc]

theorem Ready.moved (h : p.Ready b pending) : (p.moved b o (.tempAny r)).Ready b pending := by
  unfold Proc.moved
  split
  · exact h
  · exact h.append rfl (by simp)

/-- A copy leaves the value in its destination and nothing else changed. -/
theorem reaches_moved (hb : b < p.blocks.size) (hr : p.read st o = some v) :
    ∃ st', Reaches (p.moved b o (.tempAny r)).step (p.atEnd b st) []
        ((p.moved b o (.tempAny r)).atEnd b st') ∧
      st'.anys r = v ∧ st'.locals = st.locals ∧
        ∀ kind x, (kind, x) ≠ (.any, r) → st.SameTemp st' kind x := by
  unfold moved
  split <;> rename_i hs
  · refine ⟨st, Reaches.refl _ _, ?_, rfl, fun kind x _ => .refl st kind x⟩
    -- of all operands that name the register, only the temporary itself can be read
    cases o with
    | symbol ref => cases ref <;> simp [Operand.sameStorage, Operand.storage] at hs
    | tempAny x =>
      obtain rfl : x = r := by simpa [Operand.sameStorage, Operand.storage] using hs
      simpa [Proc.read] using hr
    | tempInt x => simp [Operand.sameStorage, Operand.storage] at hs
    | _ => simp [Proc.read, Operand.sameStorage, Operand.storage] at hr hs
  · obtain ⟨st', hw, hread, hl, hsame⟩ := @Store.write_temp st .any r v rfl
    have hmov : Opcode.mov.compute? [v] = some (v, []) := rfl
    have hr' : [o].mapM ((p.appended b ⟨.mov, [o], [.tempAny r], b⟩).read st) = some [v] := by
      simp [(extends_appended hb).read hr]
    refine ⟨st', ?_, by simpa [Operand.temp, Proc.read] using hread p, hl, hsame⟩
    rw [atEnd_appended hb st]
    exact reaches_appended hb (execute_computed hmov hr' hw)

/-- A value moves to a new generic temporary. -/
theorem Delivers.held (h : p.Delivers b q c o R) (hq : q.Ready c pending)
    (ha : (q.freed o).allocTemp .any = (q', .tempAny r)) :
    p.Delivers b (q'.moved c o (.tempAny r)) c (.tempAny r) R := by
  obtain rfl : ((q.freed o).allocTemp .any).1 = q' := by rw [ha]
  have hf := h.release
  have hc := @sameCode_allocTemp (q.freed o) .any
  have hlt : c < ((q.freed o).allocTemp .any).1.blocks.size := by
    rw [hc.blocks, sameCode_freed.blocks]
    exact hq.laid.current_lt
  have hm := @extends_moved _ _ o (.tempAny r) hlt
  have hown : owned? ((q.freed o).allocTemp .any).2 = some (.any, r) := by rw [ha]; rfl
  have hfresh : ¬ p.IsLive .any r := by
    rw [← hf.live]
    exact not_isLive_allocTemp hown
  refine ⟨hf.code.trans (hc.extends.trans hm), ?_, fun k x => ?_, ?_⟩
  · rintro k x ⟨⟩
    exact hfresh
  · rw [isLive_moved, isLive_allocTemp (wellFormed_freed hq.pools h.owned), hf.live, hown]
    rfl
  · intro st v trace hR
    obtain ⟨st₁, hr, hv, hk⟩ := h.runs st v trace hR
    have hc' := sameCode_freed.trans hc
    obtain ⟨st₂, hstep, hx, hl, hsame⟩ := reaches_moved (r := r) hlt (hc'.extends.read hv)
    refine ⟨st₂, ?_, congrArg some hx, hl.trans hk.locals, fun k x hx => ?_⟩
    · have hr' := (hc'.extends.trans hm).reaches hr
      rw [← hc'.atEnd] at hr'
      simpa using hr'.trans hstep
    · refine (hk.temps k x hx).trans (hsame k x ?_)
      rintro ⟨⟩
      exact hfresh hx

end Moves

section Branches

variable {p q q₁ q₂ q₃ : Proc} {b c d r left right start join : Nat} {o : Operand}
  {R R' : Meaning Datum} {st : Store} {pending : List Nat}

/-- A value in a generic temporary decides which of two blocks comes next. -/
theorem Delivers.tested (h : p.Delivers b q c (.tempAny r) R) (left right : Nat)
    (hq : q.Extends q₁) (hids : q₁.ids c = q.ids c) (hlt : c < q₁.blocks.size) {v : Datum}
    {trace : List Event} (hR : R st.locals v trace) :
    ∃ st', Reaches
        (q₁.appended c ⟨.cbr, [.tempAny r], [.block left, .block right], c⟩).step
        (p.atEnd b st) (trace ++ [.test v]) ⟨if v.isTrue then left else right, 0, st'⟩ ∧
      st'.anys r = v ∧ p.Kept st st' := by
  obtain ⟨st', hr, hv, hk⟩ := h.runs st v trace hR
  have hv : st'.anys r = v := by simpa [Proc.read] using hv
  refine ⟨st', ((hq.trans (extends_appended hlt)).reaches hr).trans ?_, hv, hk⟩
  have hend : q.atEnd c st' = q₁.atEnd c st' := by simp only [Proc.atEnd, hids]
  rw [hend]
  apply reaches_appended hlt
  simp [execute, Proc.read, hv, Proc.atEnd]

/-- The code of a logical operator. One branch of a test goes straight to the join, the other by
way of code that replaces the value. -/
theorem Delivers.joined (op : BinaryOp) (h : p.Delivers b q c (.tempAny r) R)
    (hq : q.Extends q₁) (hids : q₁.ids c = q.ids c) (hlt : c < q₁.blocks.size)
    (hlive : ∀ kind x, q₁.IsLive kind x ↔ q.IsLive kind x)
    (hq₂ : q₁.appended c ⟨.cbr, [.tempAny r], [.block left, .block right], c⟩ = q₂)
    (hgo : ∀ v : Datum, (if v.isTrue then left else right) = if op.decides v then join else start)
    (hstart : q₂.ids start = []) (h' : q₂.Delivers start q₃ d o R') (hd : d < q₃.blocks.size)
    (hjoin : q₃.ids join = []) (hdj : join ≠ d) :
    p.Delivers b
      (((q₃.freed o).moved d o (.tempAny r)).appended d ⟨.br, [], [.block join], d⟩) join
      (.tempAny r) fun l v trace => ∃ x before, R l x before ∧
        if op.decides x then v = x ∧ trace = before ++ [.test x]
        else ∃ after, R' l v after ∧ trace = before ++ .test x :: after := by
  have hdf : d < (q₃.freed o).blocks.size := by rwa [sameCode_freed.blocks]
  have hm := @extends_moved _ _ o (.tempAny r) hdf
  have hdm : d < ((q₃.freed o).moved d o (.tempAny r)).blocks.size := by rwa [size_moved]
  have hbr := @extends_appended _ _ ⟨.br, [], [.block join], d⟩ hdm
  have hlast := sameCode_freed.extends.trans (hm.trans hbr)
  have hend : ∀ st', (((q₃.freed o).moved d o (.tempAny r)).appended d
      ⟨.br, [], [.block join], d⟩).atEnd join st' = ⟨join, 0, st'⟩ := by
    intro st'
    rw [Proc.atEnd, ids_appended hdm, if_neg hdj, ids_moved_of_ne hdf hdj, sameCode_freed.ids, hjoin]
    rfl
  have hfresh : ¬ p.IsLive .any r := h.fresh _ _ rfl
  have hlive₂ : ∀ kind x, q₂.IsLive kind x ↔ p.IsLive kind x ∨ owned? (.tempAny r) = some (kind, x) := by
    intro kind x
    rw [← hq₂, isLive_appended, hlive, h.live]
  refine ⟨?_, h.fresh, fun kind x => ?_, ?_⟩
  · have hcbr := @extends_appended _ _ ⟨.cbr, [.tempAny r], [.block left, .block right], c⟩ hlt
    rw [hq₂] at hcbr
    exact h.code.trans (hq.trans (hcbr.trans (h'.code.trans hlast)))
  · rw [isLive_appended, isLive_moved, h'.release.live, hlive₂]
  · rintro st v trace ⟨x, before, hR, hcase⟩
    obtain ⟨st₁, ht, hx, hk⟩ := h.tested left right hq hids hlt hR
    rw [hq₂, hgo] at ht
    split at hcase <;> rename_i hdec
    · obtain ⟨rfl, rfl⟩ := hcase
      rw [if_pos hdec] at ht
      refine ⟨st₁, ?_, congrArg some hx, hk⟩
      rw [hend]
      exact (h'.code.trans hlast).reaches ht
    · obtain ⟨after, hR', rfl⟩ := hcase
      rw [if_neg hdec] at ht
      obtain ⟨st₂, hr, hv, hk'⟩ := h'.runs st₁ v after (by rwa [hk.locals])
      obtain ⟨st₃, hstep, hv', hl, hsame⟩ :=
        reaches_moved (r := r) hdf (sameCode_freed.extends.read hv)
      refine ⟨st₃, ?_, congrArg some hv', ?_, fun kind x hp => ?_⟩
      · have h₁ := (h'.code.trans hlast).reaches ht
        have h₂ := hlast.reaches hr
        have h₃ := hbr.reaches hstep
        have h₄ := reaches_appended (m := ⟨join, 0, st₃⟩) (i := ⟨.br, [], [.block join], d⟩) hdm rfl
        rw [Proc.atEnd, hstart] at h₂
        rw [sameCode_freed.atEnd] at h₃
        rw [hend]
        simpa using h₁.trans (h₂.trans (h₃.trans h₄))
      · rw [hl, hk'.locals, hk.locals]
      · have hne : (kind, x) ≠ (.any, r) := by
          rintro ⟨⟩
          exact hfresh hp
        have hp₂ := (hlive₂ kind x).mpr (Or.inl hp)
        exact ((hk.temps kind x hp).trans (hk'.temps kind x hp₂)).trans (hsame kind x hne)

end Branches

end Proc

end ScriptC
