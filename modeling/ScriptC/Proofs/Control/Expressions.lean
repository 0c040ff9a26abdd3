import ScriptC.Proofs.Calls.Stack
import ScriptC.Proofs.Calls.Trees
import ScriptC.Proofs.Control.Walks

/-! # Walks through expressions

An expression without conditions stays in the current block. A walk passes its code and makes its
calls. The generic temporaries are a stack meanwhile: those below its height are kept, and those
that an action takes or returns are the ones on top.
-/

namespace ScriptC

theorem Proc.ids_setPool {p : Proc} {kind : TempKind} {r : Registers} (b : Nat) :
    (p.setPool kind r).ids b = p.ids b := by
  rw [ids, blocks_setPool, ids]

/-- The generic temporary that an operand owns, if any. -/
def Operand.owns (o : Operand) : List Nat :=
  match Proc.owned? o with
  | some (.any, r) => [r]
  | _ => []

/-- The registers on top of a stack of height `k`, the topmost first. -/
def Stacked (k : Nat) : List Nat → Prop
  | [] => True
  | r :: rs => r = k + rs.length ∧ Stacked k rs

theorem Stacked.append {k : Nat} {rs rs' : List Nat} (h : Stacked k rs)
    (h' : Stacked (k + rs.length) rs') : Stacked k (rs' ++ rs) := by
  induction rs' with
  | nil => exact h
  | cons r rs' ih =>
    obtain ⟨rfl, h'⟩ := h'
    refine ⟨?_, ih h'⟩
    change k + rs.length + rs'.length = k + (rs' ++ rs).length
    rw [List.length_append]
    omega

theorem Stacked.of_append {k : Nat} {rs rs' : List Nat} (h : Stacked k (rs' ++ rs)) :
    Stacked k rs := by
  induction rs' with
  | nil => exact h
  | cons r rs' ih => exact ih h.2

/-- The code and the current block are the same. There may be more blocks without instructions. -/
structure SameCode (fn fn' : FunctionState) : Prop where
  block_eq : fn'.block = fn.block
  ids_eq : ∀ b, fn'.proc.ids b = fn.proc.ids b
  instrs_eq : fn'.proc.instrs = fn.proc.instrs

namespace SameCode

variable {fn fn' fn'' : FunctionState}

theorem trans (h : SameCode fn fn') (h' : SameCode fn' fn'') : SameCode fn fn'' where
  block_eq := h'.block_eq.trans h.block_eq
  ids_eq b := (h'.ids_eq b).trans (h.ids_eq b)
  instrs_eq := h'.instrs_eq.trans h.instrs_eq

theorem grows (h : SameCode fn fn') : fn.proc.Grows fn'.proc where
  ids b := h.ids_eq b ▸ List.prefix_rfl
  instrs i instr hi := ⟨instr, by rw [h.instrs_eq, hi], .refl instr⟩

end SameCode

/-- A walk about to follow what comes next in the current block. -/
def FunctionState.here (fn : FunctionState) (held : Nat → Option String) (answers : List Bool) :
    Walker :=
  ⟨fn.block, (fn.proc.ids fn.block).length, held, answers⟩

/-- From the one state to the other, code in the current block makes the calls of `trace`, keeps
what is below `k` and has the temporaries `rs` on top of that. -/
structure FunctionState.Continues (k : Nat) (fn fn' : FunctionState) (rs : List Nat)
    (trace : List Action) : Prop where
  block_eq : fn'.block = fn.block
  grows : fn.proc.Grows fn'.proc
  stacked : Stacked k rs
  stack : fn'.proc.anys.IsStack (k + rs.length)
  walks : ∀ p, fn'.proc.Grows p → ∀ held answers, ∃ held',
    Reaches p.walk (fn.here held answers) trace (fn'.here held' answers) ∧ ∀ r < k, held' r = held r

namespace FunctionState.Continues

variable {k : Nat} {fn fn₁ fn₂ : FunctionState} {rs rs' : List Nat} {trace trace' : List Action}
  {q : Proc} {opcode : Opcode} {operands targets : List Operand}

theorem refl (h : fn.proc.anys.IsStack k) : Continues k fn fn [] [] where
  block_eq := rfl
  grows := .refl _
  stacked := trivial
  stack := h
  walks _ _ held _ := ⟨held, .refl _ _, fun _ _ => rfl⟩

theorem trans (h : Continues k fn fn₁ rs trace)
    (h' : Continues (k + rs.length) fn₁ fn₂ rs' trace') :
    Continues k fn fn₂ (rs' ++ rs) (trace ++ trace') where
  block_eq := h'.block_eq.trans h.block_eq
  grows := h.grows.trans h'.grows
  stacked := h.stacked.append h'.stacked
  stack := by
    rw [List.length_append, Nat.add_comm rs'.length, ← Nat.add_assoc]
    exact h'.stack
  walks p hp held answers := by
    obtain ⟨held₁, hr₁, hk₁⟩ := h.walks p (h'.grows.trans hp) held answers
    obtain ⟨held₂, hr₂, hk₂⟩ := h'.walks p hp held₁ answers
    refine ⟨held₂, hr₁.trans hr₂, fun r hr => ?_⟩
    rw [hk₂ r (Nat.lt_add_right _ hr), hk₁ r hr]

/-- No instruction is added. -/
theorem replace (h : Continues k fn fn₁ rs trace) (hc : fn₂.block = fn₁.block)
    (hb : ∀ b, fn₂.proc.ids b = fn₁.proc.ids b) (hg : fn₁.proc.Grows fn₂.proc) (hr : Stacked k rs')
    (hk : fn₂.proc.anys.IsStack (k + rs'.length)) : Continues k fn fn₂ rs' trace where
  block_eq := hc.trans h.block_eq
  grows := h.grows.trans hg
  stacked := hr
  stack := hk
  walks p hp held answers := by
    obtain ⟨held', hreach, hkept⟩ := h.walks p (hg.trans hp) held answers
    refine ⟨held', ?_, hkept⟩
    simpa only [here, hb, hc] using hreach

end FunctionState.Continues

namespace FunctionState

variable {k : Nat} {fn fn₁ fn₂ : FunctionState} {rs : List Nat} {trace actions : List Action}
  {p : Proc} {i : Instr}

/-- The next instruction is the one just appended. -/
theorem reaches_appended (hb : fn₁.block < fn₁.proc.blocks.size) (hc : fn₂.block = fn₁.block)
    (hp : fn₂.proc = fn₁.proc.appended fn₁.block i) (hg : fn₂.proc.Grows p)
    (held : Nat → Option String) (answers : List Bool) {held' : Nat → Option String}
    (hf : (fn₁.here held answers).follow i = some ((fn₁.here held answers).next held', actions)) :
    Reaches p.walk (fn₁.here held answers) actions (fn₂.here held' answers) := by
  refine hg.reaches (.of_step ?_)
  have hi : fn₂.proc.instrAt? fn₁.block (fn₁.proc.ids fn₁.block).length = some i := by
    rw [hp, Proc.instrAt?_appended hb]
  have hnext : (fn₁.here held answers).next held' = fn₂.here held' answers := by
    simp [here, Walker.next, hc, hp, Proc.ids_appended hb]
  rw [Proc.walk, ← hnext, ← hf]
  simp only [here, hi, Option.bind_eq_bind, Option.bind_some]

/-- An instruction that goes on to the next. What it changes is above `k`. -/
theorem Continues.straight (h : Continues k fn fn₁ rs trace)
    (hb : fn₁.block < fn₁.proc.blocks.size) (hc : fn₂.block = fn₁.block)
    (hp : fn₂.proc = fn₁.proc.appended fn₁.block i) (hi : i.opcode.IsStraight)
    (ht : ∀ r, .tempAny r ∈ i.targets → k ≤ r) : Continues k fn fn₂ rs trace where
  block_eq := hc.trans h.block_eq
  grows := hp ▸ h.grows.trans (.appended hb)
  stacked := h.stacked
  stack := hp ▸ h.stack
  walks p hg held answers := by
    obtain ⟨held₁, hr, hk⟩ := h.walks p (.trans (hp ▸ .appended hb) hg) held answers
    have hstep := reaches_appended hb hc hp hg held₁ answers (Walker.follow_straight hi)
    refine ⟨_, by simpa using hr.trans hstep, fun r hlt => ?_⟩
    have hnot : .tempAny r ∉ i.targets := fun hm => absurd (ht r hm) (Nat.not_le.mpr hlt)
    rw [Walker.heldAfter, if_neg hnot]
    exact hk r hlt

/-- Code that puts the global `name` on top of the stack. -/
structure Loads (k : Nat) (name : String) (fn fn' : FunctionState) : Prop where
  block_eq : fn'.block = fn.block
  grows : fn.proc.Grows fn'.proc
  stack : fn'.proc.anys.IsStack (k + 1)
  walks : ∀ p, fn'.proc.Grows p → ∀ held answers, ∃ held',
    Reaches p.walk (fn.here held answers) [] (fn'.here held' answers) ∧
      held' k = some name ∧ ∀ r < k, held' r = held r

variable {name : String}

theorem Loads.continues (h : Loads k name fn fn₁) : Continues k fn fn₁ [k] [] where
  block_eq := h.block_eq
  grows := h.grows
  stacked := ⟨rfl, trivial⟩
  stack := h.stack
  walks p hp held answers := by
    obtain ⟨held', hr, -, hk⟩ := h.walks p hp held answers
    exact ⟨held', hr, hk⟩

theorem Continues.loadGlobal {key : Operand} (h : Continues k fn fn₁ [k] [])
    (hb : fn₁.block < fn₁.proc.blocks.size) (hc : fn₂.block = fn₁.block)
    (hp : fn₂.proc = fn₁.proc.appended fn₁.block
      ⟨.loadGlobal, [.symbol (.globalVar name), key], [.tempAny k], fn₁.block⟩) :
    Loads k name fn fn₂ where
  block_eq := hc.trans h.block_eq
  grows := hp ▸ h.grows.trans (.appended hb)
  stack := hp ▸ h.stack
  walks p hg held answers := by
    obtain ⟨held₁, hr, hk⟩ := h.walks p (.trans (hp ▸ .appended hb) hg) held answers
    have hi : Opcode.loadGlobal.IsStraight := by decide
    have hstep := reaches_appended hb hc hp hg held₁ answers (Walker.follow_straight hi)
    refine ⟨_, hr.trans hstep, by simp [Walker.heldAfter, Instr.global?], fun r hlt => ?_⟩
    have hne : r ≠ k := Nat.ne_of_lt hlt
    simpa [Walker.heldAfter, here, hne] using hk r hlt

/-- A call of a global that is on the stack, below what is passed to it. -/
theorem Loads.call {operands targets : List Operand} (h : Loads k name fn fn₁)
    (h' : Continues (k + 1) fn₁ fn₂ rs trace) (hb : fn₂.block < fn₂.proc.blocks.size)
    {fn₃ : FunctionState} (hc : fn₃.block = fn₂.block)
    (hp : fn₃.proc = fn₂.proc.appended fn₂.block
      ⟨.call, .tempAny k :: operands, targets, fn₂.block⟩) :
    Continues k fn fn₃ (rs ++ [k]) (trace ++ [.call name operands.length]) where
  block_eq := hc.trans (h'.block_eq.trans h.block_eq)
  grows := hp ▸ h.grows.trans (h'.grows.trans (.appended hb))
  stacked := .append ⟨rfl, trivial⟩ h'.stacked
  stack := by
    have hanys : fn₃.proc.anys = fn₂.proc.anys := by rw [hp]; rfl
    rw [hanys, List.length_append, List.length_singleton, Nat.add_comm rs.length, ← Nat.add_assoc]
    exact h'.stack
  walks p hg held answers := by
    have hg₂ : fn₂.proc.Grows p := .trans (hp ▸ .appended hb) hg
    obtain ⟨held₁, hr₁, hname, hk₁⟩ := h.walks p (h'.grows.trans hg₂) held answers
    obtain ⟨held₂, hr₂, hk₂⟩ := h'.walks p hg₂ held₁ answers
    have hheld : held₂ k = some name := (hk₂ k (Nat.lt_succ_self k)).trans hname
    have hstep := reaches_appended hb hc hp hg held₂ answers
      (by simp only [Walker.follow, here, hheld]; rfl)
    refine ⟨_, (hr₁.trans hr₂).trans hstep, fun r hlt => ?_⟩
    simp only [if_pos hlt]
    rw [hk₂ r (Nat.lt_succ_of_lt hlt), hk₁ r hlt]

end FunctionState

/-- The current block is open, and code in it continues what was at `fn`. -/
structure LoweringState.Poised (Γ : Setting) (k : Nat) (fn : FunctionState) (rs : List Nat)
    (trace : List Action) (s : LoweringState) : Prop where
  within : s.Within Γ
  isOpen : Γ.isOpen = true
  continues : FunctionState.Continues k fn s.fn rs trace

namespace Lower

variable {α β : Type} {Γ : Setting} {k : Nat} {fn : FunctionState} {rs : List Nat}
  {trace t t' : List Action} {s : LoweringState}

/-- The action takes the temporaries `before` from the top of the stack and leaves `after` there.
Its code makes the calls `t`. -/
def Uses (before : List Nat) (x : Lower α) (after : α → List Nat) (t : List Action) : Prop :=
  ∀ ⦃Γ : Setting⦄ ⦃k : Nat⦄ ⦃fn : FunctionState⦄ ⦃rs : List Nat⦄ ⦃trace : List Action⦄
    ⦃s : LoweringState⦄, s.Poised Γ k fn (before ++ rs) trace →
    Ends x s (fun a s' => s'.Poised Γ k fn (after a ++ rs) (trace ++ t)) fun _ _ => True

section Rules

variable {before : List Nat} {x : Lower α} {f : α → Lower β} {mid : α → List Nat}
  {after : β → List Nat}

theorem Uses.bind (hx : Uses before x mid t) (hf : ∀ a, Uses (mid a) (f a) after t') :
    Uses before (x >>= f) after (t ++ t') := by
  intro Γ k fn rs trace s h
  rw [ends_bind]
  refine (hx h).imp fun a s' h' => ?_
  rw [← List.append_assoc]
  exact hf a h'

/-- What follows makes no calls. -/
theorem Uses.finish (hx : Uses before x mid t) (hf : ∀ a, Uses (mid a) (f a) after []) :
    Uses before (x >>= f) after t := by
  have h := hx.bind hf
  rwa [List.append_nil] at h

theorem Uses.frame (hx : Uses before x mid t) (rest : List Nat) :
    Uses (before ++ rest) x (fun a => mid a ++ rest) t := by
  intro Γ k fn rs trace s h
  rw [List.append_assoc] at h
  refine (hx h).imp fun a s' h' => ?_
  rwa [List.append_assoc]

theorem uses_pure {a : α} (ha : mid a = before) : Uses before (pure a) mid [] := by
  intro Γ k fn rs trace s h
  rw [ends_pure, ha, List.append_nil]
  exact h

theorem uses_invalid {reason : Reason} : Uses before (invalid reason : Lower α) mid t :=
  fun _ _ _ _ _ _ _ => trivial

/-- An action that leaves the function alone. -/
theorem uses_of_sameFn (hk : Keeps x) (hm : ∀ a, mid a = [])
    (h : ∀ s, Ends x s (fun _ s' => s'.fn = s.fn) fun _ _ => True) : Uses [] x mid [] := by
  intro Γ k fn rs trace s hs
  refine ((hk hs.within trivial).and (h s)).mono ?_ fun _ _ _ => trivial
  rintro a s' ⟨⟨hw, -⟩, hfn⟩
  refine ⟨hw, hs.isOpen, ?_⟩
  rw [hm, hfn, List.append_nil]
  exact hs.continues

/-- What starts with nothing on top may start anywhere. -/
theorem uses_of_start (h : ∀ Γ k s, s.Within Γ → Γ.isOpen = true → s.fn.proc.anys.IsStack k →
    Ends x s (fun a s' => s'.Poised Γ k s.fn (mid a) t) fun _ _ => True) : Uses [] x mid t := by
  intro Γ k fn rs trace s hs
  refine (h Γ _ s hs.within hs.isOpen hs.continues.stack).imp fun a s' h' => ?_
  exact ⟨h'.within, h'.isOpen, hs.continues.trans h'.continues⟩

theorem poised_start (h : s.Within Γ) (ho : Γ.isOpen = true) (hk : s.fn.proc.anys.IsStack k) :
    s.Poised Γ k s.fn [] [] :=
  ⟨h, ho, .refl hk⟩

end Rules

section Primitives

variable {opcode : Opcode} {operands targets : List Operand}

theorem ends_free_stack {o : Operand} (hs : Stacked k (o.owns ++ rs))
    (hk : s.fn.proc.anys.IsStack (k + (o.owns ++ rs).length)) :
    Ends (free o) s (fun _ s' => SameCode s.fn s'.fn ∧ s'.fn.proc.anys.IsStack (k + rs.length))
      fun _ _ => True := by
  simp only [free, ends_tryProc]
  cases hf : s.fn.proc.freeTemp o with
  | error e => simp [bind, Except.bind]
  | ok q =>
    rcases Proc.freeTemp_ok hf with ⟨ho, rfl⟩ | ⟨kind, reg, r, ho, hr, rfl⟩
    · exact ⟨⟨rfl, fun _ => rfl, rfl⟩, by simpa [Operand.owns, ho] using hk⟩
    · refine ⟨⟨rfl, Proc.ids_setPool, Proc.instrs_setPool⟩, ?_⟩
      obtain ⟨-, rfl⟩ := Registers.release_ok hr
      cases kind with
      | int | float =>
        have hk : s.fn.proc.anys.IsStack (k + rs.length) := by simpa [Operand.owns, ho] using hk
        exact hk
      | any =>
        simp only [Operand.owns, ho, List.cons_append, List.nil_append] at hs hk
        obtain ⟨rfl, -⟩ := hs
        exact hk.push

theorem ends_freeAll_stack {os : List Operand} (hs : Stacked k (os.reverse.flatMap Operand.owns))
    (hk : s.fn.proc.anys.IsStack (k + (os.reverse.flatMap Operand.owns).length)) :
    Ends (freeAll os) s (fun _ s' => SameCode s.fn s'.fn ∧ s'.fn.proc.anys.IsStack k)
      fun _ _ => True := by
  unfold freeAll
  generalize os.reverse = os at hs hk
  induction os generalizing s with
  | nil => exact ⟨⟨rfl, fun _ => rfl, rfl⟩, hk⟩
  | cons o os ih =>
    rw [List.flatMap_cons] at hs hk
    change Ends (free o >>= fun _ => os.forM free) s _ _
    rw [ends_bind]
    refine (ends_free_stack hs hk).imp ?_
    rintro _ s₁ ⟨hc, hk₁⟩
    exact (ih hs.of_append hk₁).imp fun _ _ h => ⟨hc.trans h.1, h.2⟩

theorem uses_free (o : Operand) : Uses o.owns (free o) (fun _ => []) [] := by
  intro Γ k fn rs trace s h
  have hc := h.continues
  refine ((keeps_free o h.within trivial).and (ends_free_stack hc.stacked hc.stack)).mono ?_
    fun _ _ _ => trivial
  rintro _ s' ⟨⟨hw, -⟩, hcode, hk⟩
  rw [List.nil_append, List.append_nil]
  exact ⟨hw, h.isOpen, hc.replace hcode.block_eq hcode.ids_eq hcode.grows hc.stacked.of_append hk⟩

theorem uses_freeAll (os : List Operand) :
    Uses (os.reverse.flatMap Operand.owns) (freeAll os) (fun _ => []) [] := by
  unfold freeAll
  generalize os.reverse = os
  induction os with
  | nil => exact uses_pure rfl
  | cons o os ih =>
    change Uses _ (free o >>= fun _ => os.forM free) _ _
    exact ((uses_free o).frame _).bind fun _ => ih

theorem ends_constant (c : Constant) (h : s.Poised Γ k fn rs trace) :
    Ends (constant c) s (fun o s' => (∃ i, o = .constant i) ∧ s'.Poised Γ k fn rs trace)
      fun _ _ => True := by
  have hw : (s.withProc (s.fn.proc.intern c).1).Within Γ :=
    h.within.sameCode rfl rfl rfl h.within.pools
  have hc : FunctionState.Continues k fn (s.withProc (s.fn.proc.intern c).1).fn rs trace :=
    h.continues.replace rfl (fun _ => rfl) (.of_eq rfl rfl) h.continues.stacked h.continues.stack
  simp only [constant, ends_bind, ends_onProc]
  split
  · exact ⟨⟨_, rfl⟩, { hw with }, h.isOpen, hc⟩
  · exact ⟨⟨_, rfl⟩, hw, h.isOpen, hc⟩

theorem uses_constant (c : Constant) : Uses [] (constant c) Operand.owns [] := by
  intro Γ k fn rs trace s h
  refine (ends_constant c h).imp ?_
  rintro _ s' ⟨⟨i, rfl⟩, h'⟩
  simpa [Operand.owns, Proc.owned?] using h'

/-- The number of results of a call is settled later than the call. -/
theorem ends_setExpected {call : Nat} (count : Int64) (h : s.Poised Γ k fn rs trace)
    (hc : OpcodeAt call .call s.fn.proc.instrs) :
    Ends (setExpected call count) s (fun _ s' => s'.Poised Γ k fn rs trace) fun _ _ => True := by
  have hcont : Ends (setExpected call count) s
      (fun _ s' => FunctionState.Continues k fn s'.fn rs trace) fun _ _ => True := by
    obtain ⟨instr, hinstr, ho⟩ := hc
    have hg : ∀ o, s.fn.proc.Grows { (s.fn.proc.intern (.integer count)).1 with
        instrs := s.fn.proc.instrs.modify call fun i => { i with targets := i.targets.set 1 o } } :=
      fun o => .trans (.modify (f := (·.set 1 o)) fun i hi =>
        Option.some.inj (hinstr.symm.trans hi) ▸ ho) (.of_eq rfl rfl)
    have hs := h.continues.stacked
    simp only [setExpected, intConstant, constant, ends_bind, ends_onProc]
    split <;> simp only [ends_setTarget, ends_bind, ends_modifyStats, ends_pure] <;> split
    · exact h.continues.replace rfl (fun _ => rfl) (hg _) hs h.continues.stack
    · trivial
    · exact h.continues.replace rfl (fun _ => rfl) (hg _) hs h.continues.stack
    · trivial
  exact ((yields_setExpected call count h.within hc).and hcont).mono
    (fun _ _ h' => ⟨h'.1.1, h.isOpen, h'.2⟩) fun _ _ _ => trivial

/-- Straight code goes on to the next instruction. -/
theorem ends_emitId_straight (h : s.Poised Γ k fn rs trace) (ho : opcode.IsStraight)
    (hd : ∀ b, .block b ∉ targets) (ht : ∀ r, .tempAny r ∈ targets → k ≤ r) :
    Ends (emitId opcode operands targets) s (fun _ s' => s'.Poised Γ k fn rs trace)
      fun _ _ => True := by
  have hopen := h.within.opened h.isOpen
  refine (ends_emitId_of_open h.within hopen
    (Instr.targetsWithin_of_not_terminator ho.1 hd)).imp ?_
  rintro i s' ⟨hw, hb, hp, -⟩
  refine ⟨{ hw with opened := fun _ => hw.opened (by simp [Setting.waiting, ho.1]) }, h.isOpen, ?_⟩
  exact h.continues.straight h.within.laid.current_lt hb hp ho ht

theorem uses_emit (ho : opcode.IsStraight) : Uses [] (emit opcode operands []) (fun _ => []) [] := by
  intro Γ k fn rs trace s h
  rw [emit, ends_discard, List.append_nil]
  exact ends_emitId_straight h ho (by simp) (by simp)

theorem uses_allocTemp (kind : TempKind) : Uses [] (allocTemp kind) Operand.owns [] := by
  refine uses_of_start fun Γ k s h ho hk => ?_
  have hw : (s.withProc (s.fn.proc.allocTemp kind).1).Within Γ := h.setPool (h.pools kind).alloc
  rw [allocTemp, ends_onProc]
  refine ⟨hw, ho, (FunctionState.Continues.refl hk).replace rfl Proc.ids_setPool
    (.of_eq Proc.blocks_setPool Proc.instrs_setPool) ?_ ?_⟩
  · cases kind with
    | int | float => trivial
    | any => exact ⟨hk.alloc.1, trivial⟩
  · cases kind with
    | int | float => exact hk
    | any => exact hk.alloc.2

/-- A new temporary receives the result of an instruction. -/
theorem Uses.instr {rest : Operand → Lower β} {after : β → List Nat} (kind : TempKind)
    (ho : opcode.IsStraight) (h : ∀ target : Operand, Uses target.owns (rest target) after t) :
    Uses [] (do
      let target ← allocTemp kind
      emit opcode operands [target]
      rest target) after t := by
  intro Γ k fn rs trace s hs
  rw [ends_bind]
  refine ((uses_allocTemp kind hs).and (gives_allocTemp kind hs.within trivial)).mono ?_
    fun _ _ _ => trivial
  rintro target s₁ ⟨h₁, -, hd⟩
  rw [ends_bind, emit, ends_discard]
  rw [List.append_nil] at h₁
  refine (ends_emitId_straight h₁ ho (fun b hb => hd b (List.mem_singleton.mp hb).symm)
    fun r hr => ?_).imp fun _ s₂ h₂ => h target h₂
  obtain rfl := List.mem_singleton.mp hr
  exact h₁.continues.stacked.1 ▸ Nat.le_add_right _ _

end Primitives

section Parts

variable {part lhs rhs object key func : Part} {parts : List Part} {ts : List (List Action)}
  {x : Lower Operand} {ty : Ty}

/-- All results of a call are there. -/
def Value.IsWhole (v : Value) : Prop :=
  ∀ call, v.call = some call → ∃ base, v.operand = .range base (-1)

/-- The call whose number of results is open is a call. -/
def Settles (v : Value) (s : LoweringState) : Prop :=
  ∀ call, v.call = some call → OpcodeAt call .call s.fn.proc.instrs

/-- Evaluation makes the calls `t` and leaves what the value owns on top of the stack. -/
def Part.Acts (part : Part) (t : List Action) : Prop :=
  ∀ ⦃Γ : Setting⦄ ⦃k : Nat⦄ ⦃fn : FunctionState⦄ ⦃rs : List Nat⦄ ⦃trace : List Action⦄
    ⦃s : LoweringState⦄, s.Poised Γ k fn rs trace →
    Ends part.value s (fun v s' => s'.Poised Γ k fn (v.operand.owns ++ rs) (trace ++ t) ∧
      Settles v s' ∧ Value.IsWhole v) fun _ _ => True

theorem acts_plain (h : Uses [] x Operand.owns t) : Part.Acts ⟨ty, plain x⟩ t := by
  intro Γ k fn rs trace s hs
  simp only [plain, ends_bind, ends_pure]
  refine (h hs).imp fun o s' h' => ⟨h', ?_, ?_⟩
  · simp [Settles]
  · simp [Value.IsWhole]

theorem acts_of_start (h : ∀ Γ k s, s.Within Γ → Γ.isOpen = true → s.fn.proc.anys.IsStack k →
    Ends part.value s (fun v s' => s'.Poised Γ k s.fn v.operand.owns t ∧ Settles v s' ∧
      Value.IsWhole v) fun _ _ => True) : Part.Acts part t := by
  intro Γ k fn rs trace s hs
  refine (h Γ _ s hs.within hs.isOpen hs.continues.stack).imp ?_
  rintro v s' ⟨h', hset, hwhole⟩
  exact ⟨⟨h'.within, h'.isOpen, hs.continues.trans h'.continues⟩, hset, hwhole⟩

theorem uses_one (h : Part.Acts part t) : Uses [] (one part) Operand.owns t := by
  intro Γ k fn rs trace s hs
  rw [one, ends_bind]
  refine (h hs).imp ?_
  rintro v s₁ ⟨h₁, hset, hwhole⟩
  unfold single
  split
  · rename_i call base count hc ho
    obtain ⟨_, hv⟩ := hwhole call hc
    rw [ends_bind]
    refine (ends_setExpected 1 h₁ (hset call hc)).imp fun _ s₂ h₂ => ?_
    rw [hv] at h₂ ho
    cases ho
    exact h₂
  · exact h₁

/-- All results of a last call are passed on. -/
theorem uses_results (h : List.Forall₂ Part.Acts parts ts) :
    Uses [] (results parts) (fun os => os.reverse.flatMap Operand.owns) ts.flatten := by
  induction h with
  | nil => exact uses_pure rfl
  | @cons part t rest ts hp hrest ih =>
    cases hrest with
    | nil =>
      intro Γ k fn rs trace s hs
      simp only [results, ends_bind, ends_pure, List.flatten_cons, List.flatten_nil,
        List.append_nil]
      exact (hp hs).imp fun v s' h' => by simpa using h'.1
    | cons hp' hrest' =>
      refine (uses_one hp).bind fun o => ?_
      refine Uses.finish (ih.frame o.owns) fun os => ?_
      exact uses_pure (by simp)

/-- Every argument takes its place on the stack, also if it is narrowed to one result. -/
theorem uses_arguments (h : List.Forall₂ Part.Acts parts ts) :
    Uses [] (arguments parts) (fun args => args.reverse.flatMap (·.owned.owns)) ts.flatten := by
  induction h with
  | nil => exact uses_pure rfl
  | @cons part t rest ts hp hrest ih =>
    have hflat : ∀ (a : Argument) (as : List Argument),
        (a :: as).reverse.flatMap (·.owned.owns) =
          as.reverse.flatMap (·.owned.owns) ++ a.owned.owns := by
      simp
    intro Γ k fn rs trace s hs
    simp only [arguments, ends_bind, List.flatten_cons]
    refine (hp hs).imp ?_
    rintro v s₁ ⟨h₁, hset, -⟩
    have hnext : ∀ (o : Operand) s₂, s₂.Poised Γ k fn (v.operand.owns ++ rs) (trace ++ t) →
        Ends (do return ⟨o, v.operand⟩ :: (← arguments rest) : Lower (List Argument)) s₂
          (fun args s' => s'.Poised Γ k fn (args.reverse.flatMap (·.owned.owns) ++ rs)
            (trace ++ (t ++ ts.flatten))) fun _ _ => True := by
      intro o s₂ h₂
      rw [ends_bind]
      refine (ih h₂).imp fun as s₃ h₃ => ?_
      rw [ends_pure, hflat, List.append_assoc, ← List.append_assoc trace]
      exact h₃
    split
    · rename_i call base count hc ho
      split
      · exact hnext _ s₁ h₁
      · rw [ends_bind]
        exact (ends_setExpected 1 h₁ (hset call hc)).imp fun _ s₂ h₂ => hnext _ s₂ h₂
    · exact hnext _ s₁ h₁

end Parts

section Variables

variable (symbols : SymbolTable) {name : String}

/-- A global goes on top of the stack. -/
theorem ends_loadGlobal (h : s.Within Γ) (ho : Γ.isOpen = true) (hk : s.fn.proc.anys.IsStack k) :
    Ends (loadGlobal name) s (fun r s' => r.1 = .tempAny k ∧ s'.Within Γ ∧
      FunctionState.Loads k name s.fn s'.fn) fun _ _ => True := by
  rw [loadGlobal, ends_bind]
  refine (ends_constant (.string name) (poised_start h ho hk)).imp ?_
  rintro key s₁ ⟨-, h₁⟩
  rw [ends_bind]
  have h₂ := uses_allocTemp .any h₁
  have htarget : (s₁.fn.proc.allocTemp .any).2 = .tempAny k :=
    congrArg Operand.tempAny h₁.continues.stack.alloc.1
  rw [allocTemp, ends_onProc] at h₂ ⊢
  rw [htarget] at h₂ ⊢
  have hopen := h₂.within.opened ho
  rw [ends_bind]
  refine (ends_emitId_of_open h₂.within hopen
    (Instr.targetsWithin_of_not_terminator rfl (by simp))).imp ?_
  rintro i s₃ ⟨hw, hb, hp, -⟩
  refine ⟨rfl, { hw with opened := fun _ => hw.opened rfl }, ?_⟩
  exact h₂.continues.loadGlobal h₂.within.laid.current_lt hb hp

theorem uses_symbol (id : SymbolId) : Uses [] (symbol symbols id) (fun _ => []) [] := by
  refine uses_of_sameFn (keeps_symbol symbols id) (fun _ => rfl) fun s => ?_
  unfold symbol
  split
  · exact rfl
  · trivial

theorem uses_readSymbol (id : SymbolId) : Uses [] (readSymbol symbols id) Operand.owns [] := by
  refine (uses_symbol symbols id).finish fun sym => ?_
  split
  · have hlookup : Uses [] (lookupLocal id) (fun _ => []) [] :=
      uses_of_sameFn (keeps_lookupLocal id) (fun _ => rfl) fun _ => rfl
    refine hlookup.finish fun reg => ?_
    split
    · exact uses_pure rfl
    · exact uses_invalid
  · exact uses_pure rfl
  · refine uses_of_start fun Γ k s h ho hk => ?_
    rw [ends_bind]
    refine (ends_loadGlobal h ho hk).mono ?_ fun _ _ _ => trivial
    rintro r s' ⟨hr, hw, hl⟩
    rw [ends_pure, hr]
    exact ⟨hw, ho, hl.continues⟩

end Variables

section Operators

variable {part lhs rhs object key : Part}

theorem uses_keyClass (k : Operand) (ty : Ty) : Uses [] (keyClass k ty) (fun _ => []) [] := by
  refine uses_of_sameFn (keeps_keyClass k ty) (fun _ => rfl) fun s => ?_
  simp only [keyClass, ends_bind, ends_get]
  split <;> exact rfl

theorem uses_index (ho : Part.Acts object t) (hk : Part.Acts key t') :
    Uses [] (index object key) Operand.owns (t ++ t') := by
  refine (uses_one ho).bind fun container => ?_
  refine ((uses_one hk).frame container.owns).finish fun k => ?_
  refine ((uses_keyClass k key.ty).frame _).finish fun c => ?_
  refine ((uses_free k).frame container.owns).finish fun _ => ?_
  refine (uses_free container).finish fun _ => ?_
  exact Uses.instr _ (Selection.load_isStraight _ _) fun target => uses_pure rfl

theorem uses_unary (op : UnaryOp) (h : Part.Acts part t) :
    Uses [] (unary op part) Operand.owns t := by
  refine (uses_one h).finish fun value => (uses_free value).finish fun _ => ?_
  exact Uses.instr _ (Selection.unary_isStraight _ _) fun target => uses_pure rfl

theorem uses_arithmetic (op : BinaryOp) (hl : Part.Acts lhs t) (hr : Part.Acts rhs t') :
    Uses [] (arithmetic op lhs rhs) Operand.owns (t ++ t') := by
  refine (uses_one hl).bind fun a => ((uses_one hr).frame a.owns).finish fun b => ?_
  extract_lets classA classB form
  split
  split
  · exact uses_invalid
  · rename_i sel hsel
    refine ((uses_free b).frame a.owns).finish fun _ => (uses_free a).finish fun _ => ?_
    refine Uses.instr _ (Selection.binary?_isStraight hsel) fun target => ?_
    split
    · refine (uses_free target).finish fun _ => ?_
      exact Uses.instr _ (by decide) fun negated => uses_pure rfl
    · exact uses_pure rfl

theorem uses_binary {op : BinaryOp} (h : op.isLogical = false) (hl : Part.Acts lhs t)
    (hr : Part.Acts rhs t') : Uses [] (binary op lhs rhs) Operand.owns (t ++ t') := by
  have hop : ¬ (op = .and ∨ op = .or) := by cases op <;> simp_all [BinaryOp.isLogical]
  rw [binary, if_neg hop]
  exact uses_arithmetic op hl hr

end Operators

section Calls

variable {func : Part} {args : List Part} {ts : List (List Action)} {name : String} {ty : Ty}

theorem ends_anything {α : Type} (x : Lower α) (s : LoweringState) :
    Ends x s (fun _ _ => True) fun _ _ => True := by
  unfold Ends
  split <;> trivial

theorem ends_length_arguments (s : LoweringState) :
    Ends (arguments args) s (fun as _ => as.length = args.length) fun _ _ => True := by
  induction args generalizing s with
  | nil => exact rfl
  | cons part rest ih =>
    have hnext : ∀ (a : Argument) s₁, Ends (do return a :: (← arguments rest) : Lower _) s₁
        (fun as _ => as.length = (part :: rest).length) fun _ _ => True := by
      intro a s₁
      rw [ends_bind]
      exact (ih s₁).imp fun as _ h => congrArg (· + 1) h
    simp only [arguments, ends_bind]
    refine (ends_anything part.value s).imp fun v s₁ _ => ?_
    split
    · split
      · exact hnext _ s₁
      · rw [ends_bind]
        exact (ends_anything _ s₁).imp fun _ s₂ _ => hnext _ s₂
    · exact hnext _ s₁

/-- The function is a global, which goes on top of the stack. -/
def Part.IsGlobal (func : Part) (name : String) : Prop :=
  ∀ ⦃Γ : Setting⦄ ⦃k : Nat⦄ ⦃s : LoweringState⦄, s.Within Γ → Γ.isOpen = true →
    s.fn.proc.anys.IsStack k → Ends (one func) s (fun o s' => o = .tempAny k ∧ s'.Within Γ ∧
      FunctionState.Loads k name s.fn s'.fn) fun _ _ => True

theorem isGlobal_symbol (symbols : SymbolTable) {id : SymbolId} {sym : Symbol}
    (hs : symbols.get? id = some sym) (hg : sym.kind = .global) :
    Part.IsGlobal ⟨ty, plain (readSymbol symbols id)⟩ sym.name := by
  intro Γ k s h ho hk
  simp only [one, plain, readSymbol, symbol, hs, ends_bind, ends_pure, hg]
  refine (ends_loadGlobal h ho hk).mono ?_ fun _ _ _ => trivial
  rintro r s' ⟨hr, hw, hl⟩
  exact ⟨hr, hw, hl⟩

/-- The arguments are evaluated above the callee and returned once the call is made. -/
theorem acts_call (hf : Part.IsGlobal func name) (ha : List.Forall₂ Part.Acts args ts) :
    Part.Acts ⟨ty, call func args⟩ (ts.flatten ++ [.call name args.length]) := by
  refine acts_of_start fun Γ k s h ho hk => ?_
  simp only [call, callee, callWith, ends_bind]
  refine (hf h ho hk).imp ?_
  rintro _ s₁ ⟨rfl, h₁, hload⟩
  simp only [ends_pure, ends_bind]
  refine ((uses_arguments ha (poised_start h₁ ho hload.stack)).and
    (ends_length_arguments s₁)).mono ?_ fun _ _ _ => trivial
  rintro as s₂ ⟨h₂, hlen⟩
  rw [List.append_nil, List.nil_append] at h₂
  refine (ends_constant _ h₂).imp ?_
  rintro _ s₃ ⟨⟨expected, rfl⟩, h₃⟩
  have hinert : Inert .call [.range k (-1), .constant expected] := ⟨rfl, by simp⟩
  refine (ends_emitId_of_open h₃.within (h₃.within.opened ho)
    (Instr.targetsWithin_of_not_terminator hinert.1 hinert.2)).imp ?_
  rintro call s₄ ⟨hw, hb, hp, rfl⟩
  have hcount : (as.map (·.operand)).length = args.length := by rw [List.length_map, hlen]
  have h₄ : s₄.Poised Γ k s.fn (as.reverse.flatMap (·.owned.owns) ++ [k])
      (ts.flatten ++ [.call name args.length]) := by
    refine ⟨{ hw with opened := fun _ => hw.opened rfl }, ho, ?_⟩
    rw [← hcount]
    exact hload.call h₃.continues h₃.within.laid.current_lt hb hp
  have hat : OpcodeAt s₃.fn.proc.instrs.size .call s₄.fn.proc.instrs := by
    rw [hp]
    exact ⟨_, Array.getElem?_push_size, rfl⟩
  have howned : (as.map (·.owned)).reverse.flatMap Operand.owns =
      as.reverse.flatMap (·.owned.owns) := by
    rw [← List.map_reverse, List.flatMap_map]
  have hfree := uses_freeAll (as.map (·.owned))
  rw [howned] at hfree
  refine ((hfree h₄).and (yields_freeAll (fun _ instrs _ => OpcodeAt _ .call instrs)
    (as.map (·.owned)) h₄.within hat)).mono ?_ fun _ _ _ => trivial
  rintro _ s₅ ⟨h₅, -, hat'⟩
  rw [List.append_nil] at h₅
  refine ⟨h₅, ?_, ?_⟩
  · rintro _ ⟨⟩
    exact hat'
  · rintro _ ⟨⟩
    exact ⟨k, rfl⟩

/-- Resolving upvalues only looks at the state. -/
theorem ends_resolveUpvalue (symbols : SymbolTable) (id : SymbolId) (s : LoweringState) :
    Ends (resolveUpvalue symbols id) s (fun _ s' => s' = s) fun _ _ => True := by
  have hsymbol : ∀ id, Ends (symbol symbols id) s (fun _ s' => s' = s) fun _ _ => True := by
    intro id
    unfold symbol
    split
    · exact rfl
    · trivial
  simp only [resolveUpvalue, ends_bind]
  refine (hsymbol id).imp ?_
  rintro sym s' rfl
  split
  · rw [ends_bind]
    refine (hsymbol _).imp ?_
    rintro captured s' rfl
    simp only [ends_bind, ends_get]
    split
    · simp only [lookupLocal, ends_bind, ends_get, ends_pure]
      split
      · exact rfl
      · trivial
    · split
      · exact rfl
      · trivial
  · trivial

theorem ends_resolveUpvalues (symbols : SymbolTable) (f : Function) (parent : Option Nat)
    (s : LoweringState) :
    Ends (resolveUpvalues symbols f parent) s (fun _ s' => s' = s) fun _ _ => True := by
  cases parent with
  | none => exact rfl
  | some parent =>
    rw [resolveUpvalues]
    generalize f.upvalues = ids
    induction ids generalizing s with
    | nil => exact rfl
    | cons id ids ih =>
      rw [List.mapM_cons, ends_bind]
      refine (ends_resolveUpvalue symbols id s).imp fun _ s₁ h₁ => ?_
      rw [ends_bind]
      exact (ih s₁).imp fun _ s₂ h₂ => h₂.trans h₁

/-- A nested function leaves the function at hand alone. -/
theorem ends_function_fn (symbols : SymbolTable) (f : Function) (parent : Option Nat)
    (body : Lower Unit) (s : LoweringState) :
    Ends (function symbols f parent body) s (fun _ s' => s'.fn = s.fn) fun _ _ => True := by
  rw [function, ends_bind]
  refine (ends_resolveUpvalues symbols f parent s).imp ?_
  rintro resolved s₁ rfl
  simp only [newProc, ends_bind, ends_get]
  split
  · simp only [ends_bind, ends_modify, ends_pure, ends_modifyFn]
    exact (ends_anything (functionCode symbols f.params body) _).imp fun _ _ _ => trivial
  · trivial

theorem uses_closure {child : Lower Nat} (hk : Keeps child)
    (h : ∀ s, Ends child s (fun _ s' => s'.fn = s.fn) fun _ _ => True) :
    Uses [] (closure child) Operand.owns [] := by
  refine (uses_of_sameFn hk (fun _ => rfl) h).finish fun id => ?_
  exact Uses.instr _ (by decide) fun target => uses_pure rfl

end Calls

section Constructors

/-- Evaluation of the parts of an item makes the calls `t`. -/
inductive Item.Acts : Item → List Action → Prop
  | positional {value : Part} {t : List Action} (h : Part.Acts value t) :
    Item.Acts (.positional value) t
  | named {name : String} {value : Part} {t : List Action} (h : Part.Acts value t) :
    Item.Acts (.named name value) t
  | keyed {key value : Part} {t t' : List Action} (hk : Part.Acts key t)
    (hv : Part.Acts value t') : Item.Acts (.keyed key value) (t ++ t')

theorem uses_storeItem {opcode : Opcode} (table key value : Operand) (ho : opcode.IsStraight) :
    Uses (value.owns ++ key.owns) (storeItem table opcode key value) (fun _ => []) [] := by
  refine ((uses_emit ho).frame _).finish fun _ => ?_
  exact ((uses_free value).frame key.owns).finish fun _ => uses_free key

theorem uses_items (shape : Shape) (table : Operand) (position : Int64) {contents : List Item}
    {ts : List (List Action)} (h : List.Forall₂ Item.Acts contents ts) :
    Uses [] (items shape table position contents) (fun _ => []) ts.flatten := by
  induction h generalizing position with
  | nil => exact uses_pure rfl
  | @cons item t rest ts hi hrest ih =>
    cases hi with
    | positional hv =>
      refine (uses_constant _).bind fun k => ?_
      refine ((uses_one hv).frame k.owns).bind fun v => ?_
      exact (uses_storeItem table k v shape.positional_isStraight).bind fun _ => ih _
    | @named name value t hv =>
      have hstore : Uses [] (do
          let k ← stringConstant name
          let v ← one value
          storeItem table .tableSetSK k v
          items shape table position rest) (fun _ => []) (t ++ ts.flatten) := by
        refine (uses_constant _).bind fun k => ?_
        refine ((uses_one hv).frame k.owns).bind fun v => ?_
        exact (uses_storeItem table k v (by decide)).bind fun _ => ih _
      unfold items
      split
      · exact hstore
      · exact fun _ _ _ _ _ _ _ => trivial
    | @keyed key value t t' hk hv =>
      rw [List.flatten_cons, List.append_assoc]
      refine (uses_one hk).bind fun k => ?_
      refine ((uses_keyClass k key.ty).frame _).bind fun c => ?_
      refine ((uses_one hv).frame k.owns).bind fun v => ?_
      exact (uses_storeItem table k v (shape.keyed_isStraight c)).bind fun _ => ih _

theorem uses_construct (ty : Ty) {contents : List Item} {ts : List (List Action)}
    (h : List.Forall₂ Item.Acts contents ts) :
    Uses [] (construct ty contents) Operand.owns ts.flatten := by
  refine Uses.instr _ (Shape.opcode_isStraight _) fun table => ?_
  exact ((uses_items _ table 1 h).frame table.owns).finish fun _ => uses_pure rfl

end Constructors

end Lower

end ScriptC
