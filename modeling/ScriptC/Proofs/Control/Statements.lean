import ScriptC.Proofs.Blocks.Statements
import ScriptC.Proofs.Control.Expressions

/-! # Walks through statements

The code of a statement takes the course of the statement, whatever is added to the proc later. A
walk enters it where the statement started. If it ends normally it gets to where the next statement
starts, and with a break it gets to the end of the innermost loop.
-/

namespace ScriptC

namespace FunctionState

variable {fn fn₁ fn₂ : FunctionState} {play : List Bool → Course} {exit : Nat → Nat → Prop}

/-- The place where the next instruction goes, if the current block is open. -/
def Front (fn : FunctionState) (b k : Nat) : Prop :=
  fn.proc.isTerminated fn.block = false ∧ Proc.Place fn.block (fn.proc.ids fn.block).length b k

/-- The code between the states takes the course `play`. -/
structure Enacts (exit : Nat → Nat → Prop) (fn fn' : FunctionState) (play : List Bool → Course) :
    Prop where
  stack : fn'.proc.anys.IsStack 0
  grows : fn.proc.Grows fn'.proc
  takes : ∀ p, fn'.proc.Grows p → ∀ held answers,
    p.Takes fn'.Front exit (fn.here held answers) (play answers)

/-- All that the code between the states does is to lead from where it starts to block `b`. -/
structure Joins (fn fn' : FunctionState) (b : Nat) : Prop where
  anys_eq : fn'.proc.anys = fn.proc.anys
  grows : fn.proc.Grows fn'.proc
  walks : ∀ p, fn'.proc.Grows p → ∀ w : Walker, fn.Front w.block w.position →
    Reaches p.walk w [] ⟨b, 0, w.held, w.answers⟩

theorem front_here (h : fn.proc.IsOpen fn.block) (held : Nat → Option String)
    (answers : List Bool) : fn.Front (fn.here held answers).block (fn.here held answers).position :=
  ⟨h.isTerminated, rfl, rfl⟩

/-- Nothing comes after a block that has ended. -/
theorem not_front (h : fn.proc.isTerminated fn.block = true) (b k : Nat) : ¬ fn.Front b k := by
  rintro ⟨hf, -⟩
  rw [h] at hf
  cases hf

theorem front_congr (h : SameCode fn₁ fn₂) : fn₂.Front = fn₁.Front := by
  have hend : fn₂.proc.isEnd = fn₁.proc.isEnd := by
    funext i
    simp only [Proc.isEnd, h.instrs_eq]
  funext b k
  simp only [Front, Proc.isTerminated_eq, hend, h.block_eq, h.ids_eq]

/-- A walk at the front of an empty block is at its start. -/
theorem front_of_place {b : Nat} (h : fn.proc.ids fn.block = []) (hb : fn.block = b) (x k : Nat)
    (hx : Proc.Place b 0 x k) : fn.Front x k := by
  subst hb
  refine ⟨by rw [Proc.isTerminated_eq, h]; rfl, hx.1, ?_⟩
  rw [h]
  exact hx.2

theorem here_of_empty {b : Nat} (h : fn.proc.ids fn.block = []) (hb : fn.block = b)
    (held : Nat → Option String) (answers : List Bool) : fn.here held answers = ⟨b, 0, held, answers⟩ := by
  subst hb
  simp [here, h]

theorem here_congr (h : SameCode fn₁ fn₂) (held : Nat → Option String) (answers : List Bool) :
    fn₂.here held answers = fn₁.here held answers := by
  simp only [here, h.block_eq, h.ids_eq]

theorem Joins.of_terminated {b : Nat} (h : fn.proc.isTerminated fn.block = true)
    (ha : fn₁.proc = fn.proc) : Joins fn fn₁ b where
  anys_eq := by rw [ha]
  grows := ha ▸ .refl _
  walks _ _ w hw := absurd hw (not_front h _ _)

/-- A branch leads to its block. -/
theorem Joins.of_br {b : Nat} (hb : fn.block < fn.proc.blocks.size)
    (hp : fn₁.proc = fn.proc.appended fn.block ⟨.br, [], [.block b], fn.block⟩) : Joins fn fn₁ b where
  anys_eq := by rw [hp]; rfl
  grows := hp ▸ .appended hb
  walks p hg w hw := by
    obtain ⟨-, hblock, hpos⟩ := hw
    refine hg.reaches (.of_step ?_)
    have hi : fn₁.proc.instrAt? w.block w.position = some ⟨.br, [], [.block b], fn.block⟩ := by
      rw [hp, hblock, hpos, Proc.instrAt?_appended hb]
    simp [Proc.walk, hi, Walker.follow]

end FunctionState

/-- Where breaks lead. -/
def Setting.Exit (Γ : Setting) (b k : Nat) : Prop := Γ.exits.head? = some b ∧ k = 0

namespace Lower

variable {Γ : Setting} {s : LoweringState} {x contents : Lower Unit} {play : List Bool → Course}
  {part cond : Part} {t : List Action} {name : String}

/-- The code of the statement takes the course `play`. -/
def Enacts (x : Lower Unit) (play : List Bool → Course) : Prop :=
  ∀ ⦃Γ : Setting⦄ ⦃s : LoweringState⦄, s.Within Γ → Γ.isOpen = true → s.fn.proc.anys.IsStack 0 →
    Ends x s (fun _ s' => s'.Within (Γ.waiting false Γ.pending Γ.size) ∧
      s.fn.Enacts Γ.Exit s'.fn play) fun _ _ => True

section Simple

/-- Code without conditions ends normally. -/
theorem enacts_of_poised {s' : LoweringState} (h : s'.Poised Γ 0 s.fn [] t) :
    s'.Within (Γ.waiting false Γ.pending Γ.size) ∧ s.fn.Enacts Γ.Exit s'.fn (⟨t, .done, ·⟩) := by
  refine ⟨h.within.waiting nofun, h.continues.stack, h.continues.grows, fun p hp held answers => ?_⟩
  obtain ⟨held', hr, -⟩ := h.continues.walks p hp held answers
  exact .done hr (FunctionState.front_here (h.within.opened h.isOpen) held' answers)

theorem enacts_eval (h : Part.Acts part t) : Enacts (eval part) (⟨t, .done, ·⟩) := by
  intro Γ s hs ho hk
  rw [eval, ends_bind]
  refine (h (poised_start hs ho hk)).imp ?_
  rintro v s₁ ⟨h₁, hset, -⟩
  have hfree : ∀ s₂, s₂.Poised Γ 0 s.fn (v.operand.owns ++ []) ([] ++ t) →
      Ends (free v.operand) s₂ (fun _ s' => s'.Within (Γ.waiting false Γ.pending Γ.size) ∧
        s.fn.Enacts Γ.Exit s'.fn (⟨t, .done, ·⟩)) fun _ _ => True := by
    intro s₂ h₂
    refine (uses_free v.operand h₂).imp fun _ s' h' => enacts_of_poised ?_
    simpa using h'
  split
  · rename_i call hc
    rw [ends_bind]
    exact (ends_setExpected 0 h₁ (hset call hc)).imp fun _ s₂ h₂ => hfree s₂ h₂
  · exact hfree s₁ h₁

theorem enacts_ret {exprs : List Part} {ts : List (List Action)}
    (h : List.Forall₂ Part.Acts exprs ts) : Enacts (ret exprs) (⟨ts.flatten, .returned, ·⟩) := by
  intro Γ s hs ho hk
  simp only [ret, ends_bind]
  refine (uses_results h (poised_start hs ho hk)).imp fun os s₁ h₁ => ?_
  rw [List.append_nil, List.nil_append] at h₁
  have ht : Instr.TargetsWithin s₁.fn.proc.blocks.size
      ⟨.ret, os, [.block exitBlock], s₁.fn.block⟩ := rfl
  rw [emit, ends_discard]
  refine (ends_emitId_of_open h₁.within (h₁.within.opened ho) ht).imp ?_
  rintro i s₂ ⟨hw, hb, hp, -⟩
  have hanys : s₂.fn.proc.anys = s₁.fn.proc.anys := by rw [hp]; rfl
  refine ((keeps_freeAll os hw trivial).and (ends_freeAll_stack h₁.continues.stacked
    (hanys ▸ h₁.continues.stack))).mono ?_ fun _ _ _ => trivial
  rintro _ s₃ ⟨⟨hw₃, -⟩, hcode, hk₃⟩
  have hg : s₁.fn.proc.Grows s₃.fn.proc :=
    .trans (hp ▸ .appended h₁.within.laid.current_lt) hcode.grows
  refine ⟨hw₃, hk₃, h₁.continues.grows.trans hg, fun p hp' held answers => ?_⟩
  obtain ⟨held', hr, -⟩ := h₁.continues.walks p (hg.trans hp') held answers
  refine ⟨_, hr, rfl, ?_⟩
  have hi : s₂.fn.proc.instrAt? s₁.fn.block (s₁.fn.proc.ids s₁.fn.block).length =
      some ⟨.ret, os, [.block exitBlock], s₁.fn.block⟩ := by
    rw [hp, Proc.instrAt?_appended h₁.within.laid.current_lt]
  obtain ⟨j, hj, ha⟩ := (hcode.grows.trans hp').instrAt? hi
  simp only [Proc.opcodeAt?, FunctionState.here, hj, Option.map_some, ha.opcode]

theorem enacts_leave : Enacts leave (⟨[], .left, ·⟩) := by
  intro Γ s hs ho hk
  simp only [leave, ends_bind, ends_get]
  split
  · rename_i exit rest hexits
    have hexit : exit < s.fn.proc.blocks.size :=
      Nat.lt_of_lt_of_le (hs.exits_lt exit (by simp [← hs.exits_eq, hexits])) hs.size_le
    rw [emit, ends_discard]
    refine (ends_emitId_of_open hs (hs.opened ho) (targetsWithin_br hexit)).imp ?_
    rintro i s' ⟨hw, -, hp, -⟩
    have hjoin := FunctionState.Joins.of_br hs.laid.current_lt hp
    refine ⟨hw, hjoin.anys_eq ▸ hk, hjoin.grows, fun p hg held answers => ?_⟩
    refine ⟨_, hjoin.walks p hg _ (FunctionState.front_here (hs.opened ho) held answers), rfl, ?_⟩
    exact ⟨by rw [← hs.exits_eq, hexits]; rfl, rfl⟩
  · trivial

end Simple

section Scopes

theorem sameCode_of_sameButLocals {s s' : LoweringState} (h : s.SameButLocals s') :
    SameCode s.fn s'.fn ∧ s'.fn.proc.anys = s.fn.proc.anys := by
  obtain ⟨_, _, _, -, rfl⟩ := h
  exact ⟨⟨rfl, fun _ => rfl, rfl⟩, rfl⟩

theorem enacts_inScope (h : Enacts contents play) : Enacts (inScope contents) play := by
  intro Γ s hs ho hk
  simp only [inScope, ends_bind]
  rw [openScope, ends_modifyFn]
  have hscope : LoweringState.Within Γ { s with fn := { s.fn with scopes := [] :: s.fn.scopes } } :=
    { hs with }
  refine (h hscope ho hk).imp ?_
  rintro _ s₁ ⟨hw, he⟩
  refine ((keeps_closeScope hw trivial).and (ends_closeScope s₁)).mono ?_ fun _ _ _ => trivial
  rintro _ s₂ ⟨⟨hw₂, -⟩, hlocals⟩
  obtain ⟨hcode, hanys⟩ := sameCode_of_sameButLocals hlocals
  refine ⟨hw₂, hanys ▸ he.stack, he.grows.trans hcode.grows, fun p hp held answers => ?_⟩
  rw [FunctionState.front_congr hcode]
  exact he.takes p (hcode.grows.trans hp) held answers

/-- Statements run one after the other until one of them ends the block. -/
theorem enacts_sequence {stmts : List (Lower Unit × (List Bool → Course))}
    (h : ∀ x ∈ stmts, Enacts x.1 x.2) :
    Enacts (sequence (stmts.map (·.1)))
      (stmts.foldr (fun x rest answers => (x.2 answers).andThen rest) (⟨[], .done, ·⟩)) := by
  induction stmts with
  | nil =>
    intro Γ s hs ho hk
    exact enacts_of_poised (poised_start hs ho hk)
  | cons x rest ih =>
    obtain ⟨hx, hrest⟩ := List.forall_mem_cons.mp h
    intro Γ s hs ho hk
    have ht := (hs.opened ho).isTerminated
    simp only [List.map_cons, List.foldr_cons, sequence, ends_bind, ends_isTerminated, ht]
    rw [if_neg (by simp), ends_bind]
    refine (hx hs ho hk).imp ?_
    rintro _ s₁ ⟨hw, he⟩
    by_cases hend : s₁.fn.proc.isTerminated s₁.fn.block = true
    · rw [ends_sequence_of_terminated hend]
      refine ⟨hw, he.stack, he.grows, fun p hp held answers => ?_⟩
      refine (he.takes p hp held answers).andThen fun w hf _ => ?_
      exact absurd hf (FunctionState.not_front hend _ _)
    · have hopen := hw.laid.isOpen_of_not_terminated hend
      refine (ih hrest (hw.waiting fun _ => hopen) rfl he.stack).imp ?_
      rintro _ s₂ ⟨hw₂, he₂⟩
      refine ⟨hw₂, he₂.stack, he.grows.trans he₂.grows, fun p hp held answers => ?_⟩
      refine (he.takes p (he₂.grows.trans hp) held answers).andThen ?_
      rintro ⟨b, k, held', _⟩ ⟨-, rfl, rfl⟩ rfl
      exact he₂.takes p hp held' _

theorem exit_cons {Γ : Setting} {o : Bool} {pending : List Nat} {n done : Nat} (b k : Nat)
    (h : (Setting.waiting { Γ with exits := done :: Γ.exits } o pending n).Exit b k) :
    Proc.Place done 0 b k :=
  ⟨(Option.some.inj h.1).symm, h.2⟩

/-- Breaks of the body lead to `done`. -/
theorem ends_withExit {pending : List Nat} {n done : Nat} (h : Enacts contents play)
    (hs : s.Within (Γ.waiting true pending n)) (hk : s.fn.proc.anys.IsStack 0) (hd : done < n) :
    Ends (withExit done contents) s (fun _ s' => s'.Within (Γ.waiting false pending n) ∧
      s.fn.Enacts (Proc.Place done 0) s'.fn play) fun _ _ => True := by
  simp only [withExit, ends_bind, ends_modifyFn]
  refine (h (within_exit hs hd) rfl hk).imp ?_
  rintro _ s₁ ⟨hw, he⟩
  refine ⟨{ hw with
    exits_eq := congrArg List.tail hw.exits_eq, exits_lt := hs.exits_lt }, he.stack, he.grows, ?_⟩
  intro p hp held answers
  exact (he.takes p hp held answers).mono (fun _ _ h => h) exit_cons

end Scopes

section Blocks

variable {pending rest : List Nat} {n a b : Nat} {o : Bool}

theorem ends_startBlock_joins (h : s.Within (Γ.waiting o pending n))
    (hp : pending.Perm (b :: rest)) :
    Ends (startBlock b) s (fun _ s' => s'.Within (Γ.waiting true rest n) ∧ s'.fn.block = b ∧
      s'.fn.proc.ids s'.fn.block = [] ∧ s.fn.Joins s'.fn b) fun _ _ => True := by
  have hmem : b ∈ pending := hp.mem_iff.mpr List.mem_cons_self
  have hempty := h.laid.pending_empty b hmem
  have hjoin : Ends (startBlock b) s (fun _ s' => s'.fn.block = b ∧ s'.fn.proc.ids b = [] ∧
      s.fn.Joins s'.fn b) fun _ _ => True := by
    simp only [startBlock, ends_bind, ends_isTerminated]
    split <;> rename_i ht
    · exact ⟨rfl, hempty, .of_terminated ht rfl⟩
    · have ho := h.laid.isOpen_of_not_terminated ht
      simp only [ends_bind, ends_discard]
      refine (ends_append_of_open h ho (targetsWithin_br (h.laid.pending_lt b hmem))).imp ?_
      rintro i s' ⟨-, -, hproc, -⟩
      have hne : b ≠ s.fn.block := fun he => h.laid.current_fresh (he ▸ hmem)
      refine ⟨rfl, ?_, .of_br h.laid.current_lt hproc⟩
      change s'.fn.proc.ids b = []
      rw [hproc, Proc.ids_appended h.laid.current_lt, if_neg hne, hempty]
  refine ((ends_startBlock h hp).and hjoin).mono ?_ fun _ _ _ => trivial
  rintro _ s' ⟨⟨hw, hb⟩, -, hids, hj⟩
  exact ⟨hw, hb, hb.symm ▸ hids, hj⟩

theorem ends_branchTo_joins (h : s.Within (Γ.waiting o pending n)) (hbn : b < n) :
    Ends (branchTo b) s (fun _ s' => s'.Within (Γ.waiting false pending n) ∧
      s.fn.Joins s'.fn b) fun _ _ => True := by
  have hb : b < s.fn.proc.blocks.size := Nat.lt_of_lt_of_le hbn h.size_le
  have hjoin : Ends (branchTo b) s (fun _ s' => s.fn.Joins s'.fn b) fun _ _ => True := by
    simp only [branchTo, ends_bind, ends_isTerminated]
    split <;> rename_i ht
    · exact .of_terminated ht rfl
    · have ho := h.laid.isOpen_of_not_terminated ht
      rw [emit, ends_discard]
      refine (ends_emitId_of_open h ho (targetsWithin_br hb)).imp ?_
      rintro i s' ⟨-, -, hproc, -⟩
      exact .of_br h.laid.current_lt hproc
  exact ((ends_branchTo h hb).and hjoin).mono (fun _ _ h' => ⟨h'.1.1, h'.2⟩) fun _ _ _ => trivial

/-- The condition is a variable, and reading it leaves the state alone. -/
def Part.IsVariable (cond : Part) (name : String) : Prop :=
  ∀ s, Ends (one cond) s (fun o s' => s' = s ∧ ∃ ref, o = .symbol ref ∧ ref.name = name)
    fun _ _ => True

theorem grows_opened (fn : FunctionState) : fn.proc.Grows fn.opened.proc := by
  unfold FunctionState.opened
  split
  · exact .newBlock
  · exact .refl _

/-- A test stands at the end of the current block, unless that has ended before. -/
theorem ends_test (hc : Part.IsVariable cond name) (h : s.Within (Γ.waiting o pending n))
    (ha : a < n) (hb : b < n) :
    Ends (test cond a b) s (fun _ s' => s'.Within (Γ.waiting false pending n) ∧
      s'.fn.proc.anys = s.fn.proc.anys ∧ s.fn.proc.Grows s'.fn.proc ∧
      ∀ x k, s.fn.Front x k → s'.fn.proc.Tests x k name a b) fun _ _ => True := by
  simp only [test, ends_bind]
  refine (hc s).imp ?_
  rintro _ s' ⟨rfl, ref, rfl, rfl⟩
  have hfree : s'.fn.proc.freeTemp (.symbol ref) = .ok s'.fn.proc := rfl
  rw [free, ends_tryProc, hfree]
  change Ends (emit _ _ _) s' _ _
  obtain ⟨h', ho, -⟩ := within_opened h
  rw [ends_emit]
  refine (ends_append_of_open h' ho (targetsWithin_cbr (Nat.lt_of_lt_of_le ha h'.size_le)
    (Nat.lt_of_lt_of_le hb h'.size_le))).imp ?_
  rintro i s₁ ⟨hw, -, hp, -⟩
  have hlt := h'.laid.current_lt
  refine ⟨hw, ?_, ?_, ?_⟩
  · rw [hp]
    exact anys_opened
  · rw [hp]
    exact (grows_opened s'.fn).trans (.appended hlt)
  · rintro x k ⟨ht, rfl, rfl⟩
    have hopen : s'.opened = s' := opened_of_open (h.laid.isOpen_of_not_terminated (by simp [ht]))
    rw [hopen] at hp hlt
    exact ⟨ref, s'.fn.block, rfl, by rw [hp, Proc.instrAt?_appended hlt]⟩

end Blocks

section NewBlocks

variable {α : Type} {fn : FunctionState} {pending : List Nat} {n : Nat} {o : Bool}
  {Q : α → LoweringState → Prop}

/-- Nothing but blocks was added. -/
def Prepares (fn fn' : FunctionState) : Prop := SameCode fn fn' ∧ fn'.proc.anys = fn.proc.anys

theorem ends_newBlock_prepares {f : Nat → Lower α} (h : s.Within (Γ.waiting o pending n))
    (hp : Prepares fn s.fn) (hf : ∀ b s', n ≤ b → s'.Within (Γ.waiting o (b :: pending) (b + 1)) →
      Prepares fn s'.fn → Ends (f b) s' Q fun _ _ => True) :
    Ends (newBlock >>= f) s Q fun _ _ => True := by
  rw [ends_bind, ends_newBlock]
  refine hf _ _ h.size_le (within_newBlock h) ⟨hp.1.trans ⟨rfl, fun b => ?_, rfl⟩, hp.2⟩
  exact Proc.ids_newBlock

theorem ends_newBlocks_prepares {k : Nat} {f : List Nat → Lower α}
    (h : s.Within (Γ.waiting o pending n)) (hp : Prepares fn s.fn)
    (hf : ∀ bs m s', bs.length = k → n ≤ m → (∀ b ∈ bs, b < m) →
      s'.Within (Γ.waiting o (bs ++ pending) m) → Prepares fn s'.fn →
      Ends (f bs) s' Q fun _ _ => True) :
    Ends (newBlocks k >>= f) s Q fun _ _ => True := by
  induction k generalizing n pending f s with
  | zero => exact hf [] n s rfl (Nat.le_refl _) (by simp) h hp
  | succ k ih =>
    simp only [Lower.newBlocks, bind_assoc, pure_bind]
    refine ends_newBlock_prepares h hp fun b s₁ hb h₁ hp₁ => ?_
    refine ih h₁ hp₁ fun bs m s₂ hk hm hbs h₂ hp₂ => ?_
    have hw : s₂.Within (Γ.waiting o (b :: bs ++ pending) m) :=
      { h₂ with laid := h₂.laid.of_perm List.perm_middle }
    exact hf (b :: bs) m s₂ (by simp [hk]) (by omega) (List.forall_mem_cons.mpr ⟨hm, hbs⟩) hw hp₂

end NewBlocks

theorem within_left {o : Bool} {n : Nat} (h : s.Within (Γ.waiting o Γ.pending n)) (hn : Γ.size ≤ n)
    (he : ∀ e ∈ Γ.exits, e < Γ.size) : s.Within (Γ.waiting false Γ.pending Γ.size) :=
  { h with opened := nofun, size_le := Nat.le_trans hn h.size_le, exits_lt := he }

section Loops

theorem enacts_whileLoop (hc : Part.IsVariable cond name) (hb : Enacts contents play)
    (hs : Shrinks play) :
    Enacts (whileLoop cond contents) fun answers =>
      (Course.whileLoop name play answers.length answers).closeLoop := by
  intro Γ s h ho hk
  refine ends_newBlock_prepares h ⟨⟨rfl, fun _ => rfl, rfl⟩, rfl⟩ fun condBlock _ hc₁ h₁ hp₁ => ?_
  refine ends_newBlock_prepares h₁ hp₁ fun body _ hb₁ h₁ hp₁ => ?_
  refine ends_newBlock_prepares h₁ hp₁ fun done s₁ hd₁ h₁ hp₁ => ?_
  rw [ends_bind]
  refine (ends_startBlock_joins h₁ (@List.perm_middle _ condBlock [done, body] _)).imp ?_
  rintro _ s₂ ⟨h₂, hblock₂, hids₂, hj₂⟩
  rw [ends_bind]
  refine (ends_test hc h₂ (by omega) (by omega)).imp ?_
  rintro _ s₃ ⟨h₃, hanys₃, hg₃, ht₃⟩
  rw [ends_bind]
  refine (ends_startBlock_joins h₃ (List.Perm.swap _ _ _)).imp ?_
  rintro _ s₄ ⟨h₄, hblock₄, hids₄, hj₄⟩
  have hk₄ : s₄.fn.proc.anys.IsStack 0 := by rwa [hj₄.anys_eq, hanys₃, hj₂.anys_eq, hp₁.2]
  rw [ends_bind]
  refine (ends_withExit (enacts_inScope hb) h₄ hk₄ (Nat.lt_succ_self done)).imp ?_
  rintro _ s₅ ⟨h₅, he₅⟩
  rw [ends_bind]
  refine (ends_branchTo_joins h₅ (by omega)).imp ?_
  rintro _ s₆ ⟨h₆, hj₆⟩
  refine (ends_startBlock_joins h₆ (List.Perm.refl _)).imp ?_
  rintro _ s₇ ⟨h₇, hblock₇, hids₇, hj₇⟩
  have hg₅ := he₅.grows.trans (hj₆.grows.trans hj₇.grows)
  have hg₂ := hg₃.trans (hj₄.grows.trans hg₅)
  refine ⟨within_left h₇ (by omega) h.exits_lt, ?_, ?_, fun p hp held answers => ?_⟩
  · rw [hj₇.anys_eq, hj₆.anys_eq]
    exact he₅.stack
  · exact hp₁.1.grows.trans (hj₂.grows.trans hg₂)
  have htest : p.Tests condBlock 0 name body done :=
    ((hj₄.grows.trans hg₅).trans hp).tests
      (ht₃ _ _ (FunctionState.front_of_place hids₂ hblock₂ _ _ ⟨rfl, rfl⟩))
  have hbody : ∀ held answers, p.Takes (Proc.Place condBlock 0) (Proc.Place done 0)
      ⟨body, 0, held, answers⟩ (play answers) := by
    intro held answers
    have ht := he₅.takes p (hj₆.grows.trans (hj₇.grows.trans hp)) held answers
    rw [FunctionState.here_of_empty hids₄ hblock₄] at ht
    exact ht.join (hj₆.walks p (hj₇.grows.trans hp))
  have hloop := Proc.takes_whileLoop hs htest hbody _ held answers (Nat.le_refl _)
  refine .of_reaches (hj₂.walks p (hg₂.trans hp) _ ?_)
    (hloop.closeLoop.mono (FunctionState.front_of_place hids₇ hblock₇) fun _ _ => id)
  rw [FunctionState.front_congr hp₁.1]
  exact FunctionState.front_here (h.opened ho) held answers

theorem enacts_repeatLoop (hb : Enacts contents play) (hc : Part.IsVariable cond name)
    (hs : Shrinks play) :
    Enacts (repeatLoop contents cond) fun answers =>
      (Course.repeatLoop name play answers.length answers).closeLoop := by
  intro Γ s h ho hk
  refine ends_newBlock_prepares h ⟨⟨rfl, fun _ => rfl, rfl⟩, rfl⟩ fun body _ hb₁ h₁ hp₁ => ?_
  refine ends_newBlock_prepares h₁ hp₁ fun done s₁ hd₁ h₁ hp₁ => ?_
  rw [ends_bind]
  refine (ends_startBlock_joins h₁ (List.Perm.swap _ _ _)).imp ?_
  rintro _ s₂ ⟨h₂, hblock₂, hids₂, hj₂⟩
  have hk₂ : s₂.fn.proc.anys.IsStack 0 := by rwa [hj₂.anys_eq, hp₁.2]
  simp only [withExit, inScope, openScope, ends_bind, ends_modifyFn]
  have hin : LoweringState.Within
      (Setting.waiting { Γ with exits := done :: Γ.exits } true (done :: Γ.pending) (done + 1))
      { s₂ with fn := { s₂.fn with
          scopes := [] :: s₂.fn.scopes, exits := done :: s₂.fn.exits } } :=
    { within_exit h₂ (Nat.lt_succ_self done) with }
  refine (hb hin rfl hk₂).imp ?_
  rintro _ s₃ ⟨h₃, he₃⟩
  refine (ends_test hc h₃ (Nat.lt_succ_self done) (Nat.lt_succ_of_lt hd₁)).imp ?_
  rintro _ s₄ ⟨h₄, hanys₄, hg₄, ht₄⟩
  refine ((keeps_closeScope h₄ trivial).and (ends_closeScope s₄)).mono ?_ fun _ _ _ => trivial
  rintro _ s₅ ⟨⟨h₅, -⟩, hlocals⟩
  obtain ⟨hcode₅, hanys₅⟩ := sameCode_of_sameButLocals hlocals
  have hout : LoweringState.Within (Γ.waiting false (done :: Γ.pending) (done + 1))
      { s₅ with fn := { s₅.fn with exits := s₅.fn.exits.tail } } :=
    { h₅ with exits_eq := congrArg List.tail h₅.exits_eq, exits_lt := h₂.exits_lt }
  refine (ends_startBlock_joins hout (List.Perm.refl _)).imp ?_
  rintro _ s₆ ⟨h₆, hblock₆, hids₆, hj₆⟩
  have hg₃ := hg₄.trans (hcode₅.grows.trans hj₆.grows)
  refine ⟨within_left h₆ (by omega) h.exits_lt, ?_, ?_, fun p hp held answers => ?_⟩
  · rw [hj₆.anys_eq, hanys₅, hanys₄]
    exact he₃.stack
  · exact hp₁.1.grows.trans (hj₂.grows.trans (he₃.grows.trans hg₃))
  have htest : ∀ b k, s₃.fn.Front b k → p.Tests b k name done body := fun b k hf =>
    (hcode₅.grows.trans (hj₆.grows.trans hp)).tests (ht₄ b k hf)
  have hbody : ∀ held answers, p.Takes s₃.fn.Front (Proc.Place done 0) ⟨body, 0, held, answers⟩
      (play answers) := by
    intro held answers
    have ht : p.Takes s₃.fn.Front _ (s₂.fn.here held answers) (play answers) :=
      he₃.takes p (hg₃.trans hp) held answers
    rw [FunctionState.here_of_empty hids₂ hblock₂] at ht
    exact ht.mono (fun _ _ h => h) exit_cons
  have hloop := Proc.takes_repeatLoop hs htest hbody _ held answers (Nat.le_refl _)
  refine .of_reaches (hj₂.walks p (he₃.grows.trans (hg₃.trans hp)) _ ?_)
    (hloop.closeLoop.mono (FunctionState.front_of_place hids₆ hblock₆) fun _ _ => id)
  rw [FunctionState.front_congr hp₁.1]
  exact FunctionState.front_here (h.opened ho) held answers

end Loops

section Branches

variable {pending : List Nat} {n body next otherwise done : Nat} {o : Bool}

/-- The test of a clause leads to its body and from there to `done`, or to the next test. -/
theorem ends_clause (hc : Part.IsVariable cond name) (hb : Enacts contents play)
    (h : s.Within (Γ.waiting true (body :: pending) n)) (hk : s.fn.proc.anys.IsStack 0)
    (hbody : body < n) (hnext : next < n) (hdone : done < n) :
    Ends (clause cond contents body next done) s (fun _ s' =>
      s'.Within (Γ.waiting false pending n) ∧ s'.fn.proc.anys.IsStack 0 ∧
        s.fn.proc.Grows s'.fn.proc ∧ ∀ p, s'.fn.proc.Grows p →
          (∀ x k, s.fn.Front x k → p.Tests x k name body next) ∧
          ∀ held answers, p.Takes (Proc.Place done 0) Γ.Exit ⟨body, 0, held, answers⟩
            (play answers)) fun _ _ => True := by
  rw [clause, ends_bind]
  refine (ends_test hc h hbody hnext).imp ?_
  rintro _ s₁ ⟨h₁, hanys₁, hg₁, ht₁⟩
  rw [ends_bind]
  refine (ends_startBlock_joins h₁ (List.Perm.refl _)).imp ?_
  rintro _ s₂ ⟨h₂, hblock₂, hids₂, hj₂⟩
  have hk₂ : s₂.fn.proc.anys.IsStack 0 := by rwa [hj₂.anys_eq, hanys₁]
  rw [ends_bind]
  refine (enacts_inScope hb h₂ rfl hk₂).imp ?_
  rintro _ s₃ ⟨h₃, he₃⟩
  refine (ends_branchTo_joins h₃ hdone).imp ?_
  rintro _ s₄ ⟨h₄, hj₄⟩
  have hg₁' := hj₂.grows.trans (he₃.grows.trans hj₄.grows)
  refine ⟨h₄, hj₄.anys_eq ▸ he₃.stack, hg₁.trans hg₁', fun p hp => ⟨fun x k hf => ?_, ?_⟩⟩
  · exact (hg₁'.trans hp).tests (ht₁ x k hf)
  · intro held answers
    have ht := he₃.takes p (hj₄.grows.trans hp) held answers
    rw [FunctionState.here_of_empty hids₂ hblock₂] at ht
    exact ht.join (hj₄.walks p hp)

/-- A clause whose condition is `y.1` and whose body takes the course `y.2`. -/
def ClauseEnacts (x : Part × Lower Unit) (y : String × (List Bool → Course)) : Prop :=
  Part.IsVariable x.1 y.1 ∧ Enacts x.2 y.2

/-- The clauses decide between their bodies and what comes otherwise. All of them get to `done`. -/
theorem ends_clauses {xs : List (Part × Lower Unit)} {ys : List (String × (List Bool → Course))}
    {bodies tests : List Nat} (h : List.Forall₂ ClauseEnacts xs ys) (hne : xs ≠ [])
    (hb : bodies.length = xs.length) (ht : tests.length = xs.length - 1)
    (hlt : ∀ x ∈ bodies ++ tests, x < n) (hotherwise : otherwise < n) (hdone : done < n)
    (hs : s.Within (Γ.waiting true (bodies ++ tests ++ pending) n))
    (hk : s.fn.proc.anys.IsStack 0) :
    Ends (clauses otherwise done xs bodies tests) s (fun _ s' =>
      s'.Within (Γ.waiting false pending n) ∧ s'.fn.proc.anys.IsStack 0 ∧
        s.fn.proc.Grows s'.fn.proc ∧ ∀ p, s'.fn.proc.Grows p → ∀ rest : List Bool → Course,
          (∀ held answers, p.Takes (Proc.Place done 0) Γ.Exit ⟨otherwise, 0, held, answers⟩
            (rest answers)) →
          ∀ held answers, p.Takes (Proc.Place done 0) Γ.Exit (s.fn.here held answers)
            (Course.decide rest ys answers)) fun _ _ => True := by
  induction h generalizing s bodies tests with
  | nil => exact absurd rfl hne
  | @cons x y xs ys hx hxs ih =>
    obtain ⟨hcond, hbody⟩ := hx
    obtain ⟨body, bodies, rfl⟩ := List.exists_cons_of_length_eq_add_one hb
    cases tests with
    | nil =>
      obtain rfl : xs = [] := List.length_eq_zero_iff.mp ht.symm
      obtain rfl : bodies = [] := by simpa using hb
      cases hxs
      refine (ends_clause hcond hbody hs hk (hlt body (by simp)) hotherwise hdone).imp ?_
      rintro _ s₁ ⟨h₁, hk₁, hg₁, hp₁⟩
      refine ⟨h₁, hk₁, hg₁, fun p hp rest hrest held answers => ?_⟩
      obtain ⟨htest, hplay⟩ := hp₁ p hp
      refine .ask (htest _ _ (FunctionState.front_here (hs.opened rfl) held answers)) ?_ ?_
      · exact fun rest _ => hplay held rest
      · exact fun rest _ => hrest held rest
    | cons next tests =>
      have hnext : next < n := hlt next (by simp)
      rw [clauses, ends_bind]
      refine (ends_clause hcond hbody hs hk (hlt body (by simp)) hnext hdone).imp ?_
      rintro _ s₁ ⟨h₁, hk₁, hg₁, hp₁⟩
      have hperm : (bodies ++ next :: tests ++ pending).Perm
          (next :: (bodies ++ tests ++ pending)) := by
        simp
      rw [ends_bind]
      refine (ends_startBlock_joins h₁ hperm).imp ?_
      rintro _ s₂ ⟨h₂, hblock₂, hids₂, hj₂⟩
      simp only [List.length_cons, Nat.add_sub_cancel] at ht hb
      have hxs : xs ≠ [] := List.ne_nil_of_length_pos (by omega)
      have hlt' : ∀ x ∈ bodies ++ tests, x < n := by
        intro x hx
        apply hlt
        rcases List.mem_append.mp hx with hx | hx <;> simp [hx]
      refine (ih hxs (by omega) (by omega) hlt' h₂ (hj₂.anys_eq ▸ hk₁)).imp ?_
      rintro _ s₃ ⟨h₃, hk₃, hg₃, hp₃⟩
      refine ⟨h₃, hk₃, hg₁.trans (hj₂.grows.trans hg₃), fun p hp rest hrest held answers => ?_⟩
      obtain ⟨htest, hplay⟩ := hp₁ p (hj₂.grows.trans (hg₃.trans hp))
      refine .ask (htest _ _ (FunctionState.front_here (hs.opened rfl) held answers)) ?_ ?_
      · exact fun rest _ => hplay held rest
      · intro answers' _
        have hlater := hp₃ p hp rest hrest held answers'
        rwa [FunctionState.here_of_empty hids₂ hblock₂] at hlater

theorem enacts_branch {xs : List (Part × Lower Unit)} {ys : List (String × (List Bool → Course))}
    (h : List.Forall₂ ClauseEnacts xs ys) (hne : xs ≠ []) {otherwise : Option (Lower Unit)}
    {rest : List Bool → Course} (hnone : otherwise = none → rest = (⟨[], .done, ·⟩))
    (hsome : ∀ x, otherwise = some x → Enacts x rest) :
    Enacts (branch xs otherwise) (Course.decide rest ys) := by
  intro Γ s hs ho hk
  have hs' : s.Within (Γ.waiting true Γ.pending Γ.size) := hs.waiting fun _ => hs.opened ho
  refine ends_newBlock_prepares hs' ⟨⟨rfl, fun _ => rfl, rfl⟩, rfl⟩ fun done _ hd h₁ hp₁ => ?_
  refine ends_newBlocks_prepares h₁ hp₁ fun bodies m _ hb hm hbm h₁ hp₁ => ?_
  refine ends_newBlocks_prepares h₁ hp₁ fun tests n s₁ ht hn htn h₁ hp₁ => ?_
  have hlt : ∀ x ∈ bodies ++ tests, x < n := by
    intro x hx
    rcases List.mem_append.mp hx with hx | hx
    · have := hbm x hx
      omega
    · exact htn x hx
  have hperm : ∀ rest, (tests ++ (bodies ++ rest)).Perm (bodies ++ tests ++ rest) := by
    intro rest
    simpa using List.perm_append_comm_assoc tests bodies rest
  cases otherwise with
  | none =>
    have h₁' : s₁.Within (Γ.waiting true (bodies ++ tests ++ (done :: Γ.pending)) n) :=
      { h₁ with laid := h₁.laid.of_perm (hperm _) }
    rw [ends_bind]
    refine (ends_clauses h hne hb ht hlt (by omega) (by omega) h₁' (hp₁.2.symm ▸ hk)).imp ?_
    rintro _ s₂ ⟨h₂, hk₂, hg₂, hp₂⟩
    refine (ends_startBlock_joins h₂ (List.Perm.refl _)).imp ?_
    rintro _ s₃ ⟨h₃, hblock₃, hids₃, hj₃⟩
    refine ⟨within_left h₃ (by omega) hs.exits_lt, hj₃.anys_eq ▸ hk₂,
      hp₁.1.grows.trans (hg₂.trans hj₃.grows), fun p hp held answers => ?_⟩
    have htakes := hp₂ p (hj₃.grows.trans hp) rest
      (fun held answers => hnone rfl ▸ .done (.refl _ _) ⟨rfl, rfl⟩) held answers
    rw [FunctionState.here_congr hp₁.1] at htakes
    exact htakes.mono (FunctionState.front_of_place hids₃ hblock₃) fun _ _ => id
  | some contents =>
    refine ends_newBlock_prepares h₁ hp₁ fun block s₁ hblock h₁ hp₁ => ?_
    have h₁' : s₁.Within
        (Γ.waiting true (bodies ++ tests ++ (block :: done :: Γ.pending)) (block + 1)) :=
      { h₁ with laid := h₁.laid.of_perm (((hperm _).cons block).trans List.perm_middle.symm) }
    have hlt' : ∀ x ∈ bodies ++ tests, x < block + 1 := fun x hx =>
      Nat.lt_succ_of_lt (Nat.lt_of_lt_of_le (hlt x hx) hblock)
    rw [ends_bind]
    refine (ends_clauses h hne hb ht hlt' (by omega) (by omega) h₁' (hp₁.2.symm ▸ hk)).imp ?_
    rintro _ s₂ ⟨h₂, hk₂, hg₂, hp₂⟩
    rw [ends_bind]
    refine (ends_startBlock_joins h₂ (List.Perm.refl _)).imp ?_
    rintro _ s₃ ⟨h₃, hblock₃, hids₃, hj₃⟩
    rw [ends_bind]
    refine (enacts_inScope (hsome contents rfl) h₃ rfl (hj₃.anys_eq ▸ hk₂)).imp ?_
    rintro _ s₄ ⟨h₄, he₄⟩
    rw [ends_bind]
    have hd' : done < block + 1 := by omega
    refine (ends_branchTo_joins h₄ hd').imp ?_
    rintro _ s₅ ⟨h₅, hj₅⟩
    refine (ends_startBlock_joins h₅ (List.Perm.refl _)).imp ?_
    rintro _ s₆ ⟨h₆, hblock₆, hids₆, hj₆⟩
    have hg₅ := hj₅.grows.trans hj₆.grows
    have hg₂' := hj₃.grows.trans (he₄.grows.trans hg₅)
    refine ⟨within_left h₆ (show Γ.size ≤ block + 1 by omega) hs.exits_lt, ?_,
      hp₁.1.grows.trans (hg₂.trans hg₂'), fun p hp held answers => ?_⟩
    · rw [hj₆.anys_eq, hj₅.anys_eq]
      exact he₄.stack
    have hrest : ∀ held answers, p.Takes (Proc.Place done 0) Γ.Exit ⟨block, 0, held, answers⟩
        (rest answers) := by
      intro held answers
      have ht := he₄.takes p (hg₅.trans hp) held answers
      rw [FunctionState.here_of_empty hids₃ hblock₃] at ht
      exact ht.join (hj₅.walks p (hj₆.grows.trans hp))
    have htakes := hp₂ p (hg₂'.trans hp) rest hrest held answers
    rw [FunctionState.here_congr hp₁.1] at htakes
    exact htakes.mono (FunctionState.front_of_place hids₆ hblock₆) fun _ _ => id

end Branches

end Lower

end ScriptC
