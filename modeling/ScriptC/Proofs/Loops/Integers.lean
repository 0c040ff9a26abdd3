import ScriptC.Proofs.Control.Statements
import ScriptC.Proofs.Loops.Counting
import ScriptC.Proofs.Policies.Upkeep
import ScriptC.Proofs.Safety.Trees

/-! # Integer loops

A numeric loop over integers with a constant step becomes a counting loop. Its index and its bound
are registers that nothing else uses while the loop lasts.
-/

namespace ScriptC

theorem Proc.Enters.extends {p q : Proc} {L : LoopHead} (h : p.Enters L) (he : p.Extends q) :
    q.Enters L where
  __ := h
  setIndex := he.instrAt? h.setIndex
  setBound := he.instrAt? h.setBound
  enter := he.instrAt? h.enter
  compare := he.instrAt? h.compare
  branch := he.instrAt? h.branch
  outside := by
    obtain ⟨i, hi, hid⟩ := h.outside
    exact ⟨i, hi, he.getElem?_ids hid⟩

namespace Lower

/-- At a point of lowering, `code` ends the current block, from position `n` on, and the block may
have ended with it. Everything that `p` had is still there. -/
structure Cursor (p : Proc) (b n : Nat) (code : List Instr) (isOpen : Bool) (pending : List Nat)
    (held : List (TempKind × Nat)) (s : LoweringState) : Prop where
  grown : p.Extends s.fn.proc
  block_eq : s.fn.block = b
  laid : s.fn.proc.Laid b pending
  ending : if isOpen then s.fn.proc.IsOpen b else s.fn.proc.IsSealed b
  length_eq : (s.fn.proc.ids b).length = n + code.length
  stands : ∀ j i, code[j]? = some i → s.fn.proc.instrAt? b (n + j) = some i
  holds : s.fn.proc.Holds held

namespace Cursor

variable {p q : Proc} {b n t : Nat} {code : List Instr} {isOpen : Bool} {pending rest : List Nat}
  {held held' : List (TempKind × Nat)} {s : LoweringState} {o : Operand} {opcode : Opcode}
  {operands targets : List Operand}

theorem start (hl : s.fn.proc.Laid s.fn.block pending) (ho : s.fn.proc.IsOpen s.fn.block)
    (hh : s.fn.proc.Holds held) :
    Cursor s.fn.proc s.fn.block (s.fn.proc.ids s.fn.block).length [] true pending held s :=
  ⟨.refl _, rfl, hl, ho, rfl, by simp, hh⟩

/-- Registers, constants and blocks may be added. -/
theorem withProc (h : Cursor p b n code isOpen pending held s) (hc : s.fn.proc.Extends q)
    (hids : q.ids = s.fn.proc.ids) (hi : q.instrs = s.fn.proc.instrs) (hl : q.Laid b rest)
    (hq : q.Holds held') : Cursor p b n code isOpen rest held' (s.withProc q) where
  grown := h.grown.trans hc
  block_eq := h.block_eq
  laid := hl
  ending := by
    have := h.ending
    simpa only [LoweringState.withProc_proc, Proc.IsOpen, Proc.IsSealed, Proc.isEnd, hids, hi]
      using this
  length_eq := by simpa [hids] using h.length_eq
  stands j i hj := hc.instrAt? (h.stands j i hj)
  holds := hq

theorem sameCode (h : Cursor p b n code isOpen pending held s) (hc : s.fn.proc.SameCode q)
    (hq : q.Holds held') : Cursor p b n code isOpen pending held' (s.withProc q) :=
  h.withProc hc.extends hc.ids hc.instrs (h.laid.of_eq hc.blocks hc.instrs) hq

theorem perm (h : Cursor p b n code isOpen pending held s) (hp : held.Perm held') :
    Cursor p b n code isOpen pending held' s :=
  { h with holds := h.holds.perm hp }

theorem allocTemp (h : Cursor p b n code isOpen pending held s) (kind : TempKind) :
    Cursor p b n code isOpen pending ((s.fn.proc.allocTemp kind).2.temps ++ held)
      (s.withProc (s.fn.proc.allocTemp kind).1) :=
  h.sameCode Proc.sameCode_allocTemp (h.holds.allocTemp kind)

theorem newBlock (h : Cursor p b n code isOpen pending held s) :
    Cursor p b n code isOpen (s.fn.proc.blocks.size :: pending) held
      (s.withProc s.fn.proc.newBlock.1) :=
  h.withProc Proc.extends_newBlock (by funext b; simp) rfl h.laid.newBlock (h.holds.of_pool_eq rfl)

theorem ends_free (h : Cursor p b n code isOpen pending (o.temps ++ held) s) :
    Ends (free o) s (fun _ s' => Cursor p b n code isOpen pending held s') fun _ _ => True := by
  obtain ⟨hf, hh⟩ := h.holds.freeTemp
  rw [free, ends_tryProc, hf]
  exact h.sameCode Proc.sameCode_freed hh

theorem ends_intConstant (h : Cursor p b n code isOpen pending held s) (d : Int64) :
    Ends (intConstant d) s (fun k s' => ∃ j, k = .constant j ∧
      s'.fn.proc.constants.get? j = some (.integer d) ∧
      Cursor p b n code isOpen pending held s') fun _ _ => True := by
  simp only [intConstant, constant, ends_bind, ends_onProc]
  have hget := s.fn.proc.constants.get?_intern (.integer d)
  have h' : Cursor p b n code isOpen pending held (s.withProc (s.fn.proc.intern (.integer d)).1) :=
    h.withProc Proc.extends_intern rfl rfl (h.laid.of_eq rfl rfl) (h.holds.of_pool_eq rfl)
  split
  · exact ⟨_, rfl, hget, { h' with }⟩
  · exact ⟨_, rfl, hget, h'⟩

theorem ends_append (h : Cursor p b n code true pending held s)
    (ht : Instr.TargetsWithin s.fn.proc.blocks.size ⟨opcode, operands, targets, b⟩) :
    Ends (append opcode operands targets) s (fun _ s' =>
      Cursor p b n (code ++ [⟨opcode, operands, targets, b⟩]) (!opcode.isTerminator) pending held
        s') fun _ _ => True := by
  obtain rfl := h.block_eq
  have hext {i : Instr} := @Proc.extends_appended s.fn.proc s.fn.block i h.laid.current_lt
  refine ends_append_proc.imp ?_
  rintro _ s' ⟨hlt, -, hb, hs, -⟩
  constructor
  case block_eq => exact hb
  all_goals rw [hs]
  case grown => exact h.grown.trans hext
  case laid => exact h.laid.append h.ending ht
  case ending =>
    cases ho : opcode.isTerminator with
    | false => exact h.laid.isOpen_appended h.ending ho
    | true => exact h.laid.isSealed_appended h.ending ho
  case length_eq => simp [Proc.ids_appended hlt, h.length_eq, Nat.add_assoc]
  case stands =>
    intro j x hx
    rw [List.getElem?_append] at hx
    split at hx
    · exact hext.instrAt? (h.stands j x hx)
    · obtain ⟨hj, rfl⟩ : j ≤ code.length ∧ _ = x := by
        simpa [List.getElem?_singleton, Nat.sub_eq_zero_iff_le] using hx
      obtain rfl : j = code.length := by omega
      rw [← h.length_eq]
      exact Proc.instrAt?_appended hlt
  case holds => exact h.holds.of_pool_eq (by funext kind; cases kind <;> rfl)

theorem ends_emit (h : Cursor p b n code true pending held s)
    (ht : Instr.TargetsWithin s.fn.proc.blocks.size ⟨opcode, operands, targets, b⟩) :
    Ends (emit opcode operands targets) s (fun _ s' =>
      Cursor p b n (code ++ [⟨opcode, operands, targets, b⟩]) (!opcode.isTerminator) pending held
        s') fun _ _ => True := by
  rw [Lower.ends_emit, opened_of_open (h.block_eq ▸ h.ending)]
  exact h.ends_append ht

theorem ends_moveInt {r : Nat} (h : Cursor p b n code true pending held s) (hne : o ≠ .tempInt r) :
    Ends (move o .integer (.tempInt r)) s (fun _ s' =>
      Cursor p b n (code ++ [⟨.movI, [o], [.tempInt r], b⟩]) true pending held s')
      fun _ _ => True := by
  have hs : ¬ o.sameStorage (.tempInt r) = true := by
    cases o with
    | symbol ref => cases ref <;> simp [Operand.sameStorage, Operand.storage]
    | tempInt x =>
      intro h
      exact hne (by simpa [Operand.sameStorage, Operand.storage] using h)
    | _ => simp [Operand.sameStorage, Operand.storage]
  rw [move, if_neg hs]
  exact h.ends_emit (Instr.targetsWithin_of_not_terminator rfl (by simp))

/-- A block is left for one that waits, by a branch if it is open. -/
theorem ends_startBlock (h : Cursor p b n code isOpen pending held s)
    (hp : pending.Perm (t :: rest)) : Ends (startBlock t) s (fun _ s' =>
      Cursor s'.fn.proc t 0 [] true rest held s' ∧ p.Extends s'.fn.proc ∧
        n + code.length ≤ (s'.fn.proc.ids b).length ∧
        ∀ j i, (code ++ if isOpen then [⟨.br, [], [.block t], b⟩] else [])[j]? = some i →
          s'.fn.proc.instrAt? b (n + j) = some i) fun _ _ => True := by
  have hnext (u : LoweringState) {code : List Instr}
      (hu : Cursor p b n code false pending held u) :
      Cursor u.fn.proc t 0 [] true rest held { u with fn := { u.fn with block := t } } := by
    have hempty := hu.laid.pending_empty t (hp.mem_iff.mpr List.mem_cons_self)
    exact ⟨.refl _, rfl, (hu.laid.of_perm hp).start hu.ending, by simp [Proc.IsOpen, hempty],
      by simp [hempty], by simp, hu.holds⟩
  simp only [startBlock, Lower.ends_bind, ends_isTerminated, h.block_eq]
  cases isOpen with
  | false =>
    rw [if_pos h.ending.isTerminated]
    exact ⟨hnext s h, h.grown, Nat.le_of_eq h.length_eq.symm, by simpa using h.stands⟩
  | true =>
    have hb := h.laid.pending_lt t (hp.mem_iff.mpr List.mem_cons_self)
    rw [if_neg (by simp [h.ending.isTerminated])]
    simp only [Lower.ends_bind, ends_discard]
    refine (h.ends_append (targetsWithin_br hb)).imp ?_
    intro _ u hu
    exact ⟨hnext u hu, hu.grown, hu.length_eq ▸ by simp, hu.stands⟩

end Cursor

/-- What is known where the body of a loop starts. -/
structure AtBody (L : LoopHead) (stride : Operand) (pending : List Nat)
    (held : List (TempKind × Nat)) (s : LoweringState) : Prop where
  enters : s.fn.proc.Enters L
  cursor : Cursor s.fn.proc L.body 0 [] true (L.done :: pending)
    ((.int, L.bound) :: (.int, L.index) :: held) s
  size_eq : s.fn.proc.instrs.size = L.lower
  stride : ∃ j, stride = .constant j ∧ s.fn.proc.constants.get? j = some (.integer L.step)

section Heads

variable {first last : Operand} {d : Int64} {held : List (TempKind × Nat)} {pending : List Nat}
  {s : LoweringState} {Q : Unit → LoweringState → Prop}
  {k : Operand → Operand → Operand → Nat → Nat → Nat → Lower Unit}

theorem ends_loopHead (hl : s.fn.proc.Laid s.fn.block pending) (ho : s.fn.proc.IsOpen s.fn.block)
    (hheld : s.fn.proc.Holds (last.temps ++ (first.temps ++ held)))
    (hk : ∀ L stride s', L.first = first → L.last = last → L.step = d →
      L.entry = (s.fn.block, (s.fn.proc.ids s.fn.block).length) →
      s.fn.proc.Extends s'.fn.proc → AtBody L stride pending held s' →
      Ends (k (.tempInt L.index) (.tempInt L.bound) stride L.test L.body L.done) s' Q
        fun _ _ => True) :
    Ends (do
      let index ← allocTemp .int
      let bound ← allocTemp .int
      move first .integer index
      move last .integer bound
      free last
      free first
      let stride ← intConstant d
      let testBlock ← newBlock
      let body ← newBlock
      let done ← newBlock
      startBlock testBlock
      compare .leII (if 0 ≤ d then [index, bound] else [bound, index]) body done
      startBlock body
      k index bound stride testBlock body done) s Q fun _ _ => True := by
  have h₂ := ((Cursor.start hl ho hheld).allocTemp .int).allocTemp .int
  obtain ⟨p₁, x, hx⟩ : ∃ p₁ x, s.fn.proc.allocTemp .int = (p₁, .tempInt x) := ⟨_, _, rfl⟩
  obtain ⟨p₂, y, hy⟩ : ∃ p₂ y, p₁.allocTemp .int = (p₂, .tempInt y) := ⟨_, _, rfl⟩
  simp only [ends_bind, allocTemp, ends_onProc, hx, hy, LoweringState.withProc_proc] at h₂ ⊢
  have hne {o : Operand} {r : Nat} (h : (TempKind.int, r) ∉ o.temps) : o ≠ .tempInt r := by
    rintro rfl
    simp [Operand.temps, Proc.owned?] at h
  obtain ⟨⟨hyx, hyl, -, -⟩, ⟨hxl, hxf, -⟩, -⟩ : (y ≠ x ∧ (TempKind.int, y) ∉ last.temps ∧ _ ∧ _) ∧
      ((TempKind.int, x) ∉ last.temps ∧ (TempKind.int, x) ∉ first.temps ∧ _) ∧ _ := by
    simpa [Operand.temps, Proc.owned?] using h₂.holds.nodup
  refine (h₂.ends_moveInt (hne hxf)).imp fun _ s₃ h₃ => ?_
  refine (h₃.ends_moveInt (hne hyl)).imp fun _ s₄ h₄ => ?_
  have hperm := (List.perm_append_comm_assoc [(TempKind.int, y), (.int, x)] last.temps
    (first.temps ++ held)).trans ((List.perm_append_comm_assoc _ first.temps held).append_left _)
  refine (h₄.perm hperm).ends_free.imp fun _ s₅ h₅ => ?_
  refine h₅.ends_free.imp fun _ s₆ h₆ => ?_
  refine (h₆.ends_intConstant d).imp ?_
  rintro _ s₇ ⟨j, rfl, hj, h₇⟩
  have h₈ := (Cursor.newBlock { h₇ with grown := .refl s₇.fn.proc }).newBlock.newBlock
  simp only [ends_newBlock]
  generalize s₇.fn.proc.blocks.size = test, (s₇.withProc _).fn.proc.blocks.size = body,
    ((s₇.withProc _).withProc _).fn.proc.blocks.size = done at h₈ ⊢
  refine (h₈.ends_startBlock (@List.perm_middle _ test [done, body] _)).imp ?_
  rintro _ s₉ ⟨h₉, hgrown, -, hentry⟩
  simp only [compare, ends_bind, allocTemp, ends_onProc]
  have h₁₀ := h₉.allocTemp .any
  obtain ⟨p₁₀, flag, hflag⟩ : ∃ p₁₀ flag, s₉.fn.proc.allocTemp .any = (p₁₀, .tempAny flag) :=
    ⟨_, _, rfl⟩
  rw [hflag] at h₁₀ ⊢
  refine (h₁₀.ends_emit (Instr.targetsWithin_of_not_terminator rfl (by simp))).imp
    fun _ s₁₁ h₁₁ => ?_
  refine h₁₁.ends_free.imp fun _ s₁₂ h₁₂ => ?_
  have hlt := h₁₂.laid.pending_lt
  refine (h₁₂.ends_emit (targetsWithin_cbr (hlt body (by simp)) (hlt done (by simp)))).imp
    fun _ s₁₃ h₁₃ => ?_
  refine (h₁₃.ends_startBlock (List.Perm.swap _ _ _)).imp ?_
  rintro _ s₁₄ ⟨h₁₄, hgrown', hlength, htest⟩
  refine hk ⟨first, last, d, x, y, flag, (s.fn.block, _), test, body, done,
    s₁₄.fn.proc.instrs.size⟩ _ s₁₄ rfl rfl rfl rfl (h₇.grown.trans (hgrown.trans hgrown')) ?_
  constructor
  case enters =>
    constructor
    case setIndex => exact hgrown'.instrAt? (hentry 0 _ rfl)
    case setBound => exact hgrown'.instrAt? (hentry 1 _ rfl)
    case enter => exact hgrown'.instrAt? (hentry 2 _ rfl)
    case compare => simpa using htest 0 _ rfl
    case branch => simpa using htest 1 _ rfl
    case outside =>
      have hlt : 1 < (s₁₄.fn.proc.ids test).length := hlength
      exact ⟨_, h₁₄.laid.ids_lt test _ (List.getElem_mem hlt), List.getElem?_eq_getElem hlt⟩
    case body_ne =>
      intro (he : body = done)
      subst he
      exact (List.nodup_cons.mp h₁₃.laid.pending_nodup).1 List.mem_cons_self
    case bound_ne => exact hyx
    case last_ne => exact hne hxl
  case cursor => exact h₁₄
  case size_eq => rfl
  case stride => exact ⟨j, rfl, (hgrown.trans hgrown').constants j _ hj⟩

end Heads

section Tails

variable {symbols : SymbolTable} {var : SymbolId} {p : Proc} {b x y j t exit : Nat}
  {pending : List Nat} {held : List (TempKind × Nat)} {body : List Stmt} {s : LoweringState}

theorem executes_ofBlock (hp : ∀ b, ∀ i ∈ p.ids b, i < p.instrs.size) {reserved : List Nat} :
    Policy.Executes (fun _ : Unit => p.upkeep reserved) (ofBlock symbols body) :=
  Policy.Lawful.ofBlock (fun s _ (_ : ∀ x ∈ s.occurrences, True) => executes_upkeep hp symbols s)
    fun _ _ _ _ => trivial

theorem Cursor.ends_declareLocal {n : Nat} {code : List Instr} {isOpen : Bool}
    (h : Cursor p b n code isOpen pending held s) :
    Ends (declareLocal symbols var) s (fun o s' => Cursor p b n code isOpen pending held s' ∧
      ∃ name reg tag, o = .symbol (.localVar name reg tag)) fun _ _ => True := by
  unfold declareLocal symbol
  cases symbols.get? var with
  | none => trivial
  | some sym =>
    have h' := h.sameCode (q := s.fn.proc.allocLocal.1) ⟨rfl, rfl, rfl⟩ (h.holds.of_pool_eq rfl)
    simp only [pure_bind, ends_bind, ends_onProc, ends_get]
    split
    · trivial
    · exact ⟨{ h' with }, _, _, _, rfl⟩

/-- The index is given to the local, and it stays as it is until the body ends. -/
theorem ends_loopBody
    (h : Cursor s.fn.proc b 0 [] true pending ((.int, y) :: (.int, x) :: held) s) :
    Ends (loopBody symbols var (.tempInt x) .integer (ofBlock symbols body) exit) s (fun _ s' =>
      s.fn.proc.Upholds [x, y] s'.fn.proc ∧ ∃ name reg tag, s'.fn.proc.instrAt? b 0 =
        some ⟨moveOpcode tag .integer, [.tempInt x], [.symbol (.localVar name reg tag)], b⟩)
      fun _ _ => True := by
  have hids := h.laid.ids_lt
  have hlive : ∀ r ∈ [x, y], s.fn.proc.IsLive .int r := by
    intro r hr
    refine h.holds.live (.int, r) ?_
    rcases List.mem_pair.mp hr with rfl | rfl <;> simp
  have hkeeps : Ends (loopBody symbols var (.tempInt x) .integer (ofBlock symbols body) exit) s
      (fun _ s' => s.fn.proc.Upholds [x, y] s'.fn.proc ∧ True) fun _ _ => True :=
    ((lawful_upkeep hids symbols).loopBody (i := ()) var (.temp .integer x)
      (executes_ofBlock hids)).keeps (.refl hids hlive)
  suffices hlocal : Ends (loopBody symbols var (.tempInt x) .integer (ofBlock symbols body) exit) s
      (fun _ s' => ∃ name reg tag, s'.fn.proc.instrAt? b 0 = some ⟨moveOpcode tag .integer,
        [.tempInt x], [.symbol (.localVar name reg tag)], b⟩) fun _ _ => True from
    (hkeeps.and hlocal).mono (fun _ _ h => ⟨h.1.1, h.2⟩) fun _ _ _ => trivial
  simp only [loopBody, inScope, openScope, ends_bind, ends_modifyFn]
  have h₀ : Cursor s.fn.proc b 0 [] true pending ((.int, y) :: (.int, x) :: held)
      { s with fn := { s.fn with scopes := [] :: s.fn.scopes } } := { h with }
  refine h₀.ends_declareLocal.imp ?_
  rintro _ s₁ ⟨h₁, name, reg, tag, rfl⟩
  have hmove : move (.tempInt x) .integer (.symbol (.localVar name reg tag)) =
    emit (moveOpcode tag .integer) [.tempInt x] [.symbol (.localVar name reg tag)] := rfl
  rw [hmove]
  refine (h₁.ends_emit (Instr.targetsWithin_of_not_terminator (moveOpcode_isStraight _ _).1
    (by simp))).imp fun _ s₂ h₂ => ?_
  have hlaw {p : Proc} (hp : ∀ b, ∀ i ∈ p.ids b, i < p.instrs.size) :=
    @lawful_upkeep p [] hp symbols
  have hrefl := Proc.Upholds.refl h₂.laid.ids_lt (List.forall_mem_nil _)
  refine (((hlaw h₂.laid.ids_lt).withExit (i := ()) exit
    (executes_ofBlock h₂.laid.ids_lt ())).keeps hrefl).imp fun _ s₃ h₃ => ?_
  refine (((hlaw h₂.laid.ids_lt).closeScope (i := ())).keeps h₃.1).imp fun _ s₄ h₄ => ?_
  exact ⟨name, reg, tag, h₄.1.toExtends.instrAt? (h₂.stands 0 _ rfl)⟩

/-- The index is advanced at the end of the body, unless that cannot be reached. -/
theorem ends_advance : Ends (advance .addII (.tempInt x) (.constant j) t) s (fun _ s' =>
      s.fn.proc.Extends s'.fn.proc ∧
      (s'.fn.proc.instrAt? s.fn.block (s.fn.proc.ids s.fn.block).length =
          some ⟨.addII, [.tempInt x, .constant j], [.tempInt x], s.fn.block⟩ ∧
        s'.fn.proc.instrAt? s.fn.block ((s.fn.proc.ids s.fn.block).length + 1) =
          some ⟨.br, [], [.block t], s.fn.block⟩ ∨
        ∃ k i, (s.fn.proc.ids s.fn.block).length = k + 1 ∧
          s'.fn.proc.instrAt? s.fn.block k = some i ∧ i.opcode.isTerminator = true))
      fun _ _ => True := by
  simp only [advance, ends_bind, ends_isTerminated]
  split
  · rename_i ht
    refine ⟨.refl _, .inr ?_⟩
    rw [Proc.isTerminated_eq] at ht
    obtain ⟨id, hid, hend⟩ := (Option.any_eq_true _ _).mp ht
    obtain ⟨i, hi, hterm⟩ := (Option.any_eq_true _ _).mp hend
    obtain ⟨before, hbefore⟩ := List.getLast?_eq_some_iff.mp hid
    exact ⟨before.length, i, by simp [hbefore], by simp [Proc.instrAt?, hbefore, hi], hterm⟩
  · rename_i ht
    have hopen {u : LoweringState} (hu : ¬ u.fn.proc.isTerminated u.fn.block = true) :
        u.opened = u := by
      simp [LoweringState.opened, FunctionState.opened, hu]
    simp only [ends_bind, Lower.ends_emit]
    rw [hopen ht]
    refine ends_append_proc.imp ?_
    rintro _ s₁ ⟨hlt, -, hb, h₁, -⟩
    have hids₁ := @Proc.ids_appended _ _ s.fn.block
      ⟨.addII, [.tempInt x, .constant j], [.tempInt x], s.fn.block⟩ hlt
    rw [hopen (by rw [h₁, hb, Proc.isTerminated_eq, hids₁]; simp [Opcode.isTerminator])]
    refine ends_append_proc.imp ?_
    rintro _ s₂ ⟨hlt', -, -, h₂, -⟩
    rw [h₂]
    rw [h₁, hb] at hlt' ⊢
    refine ⟨(Proc.extends_appended hlt).trans (Proc.extends_appended hlt'), .inl ⟨?_, ?_⟩⟩
    · exact (Proc.extends_appended hlt').instrAt? (Proc.instrAt?_appended hlt)
    · have := @Proc.instrAt?_appended _ _ ⟨.br, [], [.block t], s.fn.block⟩ hlt'
      rwa [hids₁, if_pos rfl, List.length_append] at this

theorem ends_free_extends (o : Operand) : Ends (free o) s (fun _ s' =>
    s.fn.proc.Extends s'.fn.proc ∧ s'.fn.block = s.fn.block) fun _ _ => True := by
  rw [free, ends_tryProc]
  cases hf : s.fn.proc.freeTemp o with
  | error e => trivial
  | ok q =>
    rcases Proc.freeTemp_ok hf with ⟨-, rfl⟩ | ⟨kind, reg, regs, -, -, rfl⟩
    · exact ⟨.refl _, rfl⟩
    · exact ⟨Proc.sameCode_setPool.extends, rfl⟩

theorem ends_startBlock_extends : Ends (startBlock t) s (fun _ s' =>
    s.fn.proc.Extends s'.fn.proc ∧ s'.fn.block = t) fun _ _ => True := by
  simp only [startBlock, ends_bind, ends_isTerminated]
  split
  · exact ⟨.refl _, rfl⟩
  · simp only [ends_bind, ends_discard]
    refine ends_append_proc.imp ?_
    rintro _ s' ⟨hlt, -, -, hs, -⟩
    refine ⟨?_, rfl⟩
    change s.fn.proc.Extends s'.fn.proc
    rw [hs]
    exact Proc.extends_appended hlt

/-- A numeric loop was lowered from `s` to `s'` as `L`. The bounds were evaluated up to `s₁`, and
the body was lowered from `s₂` to `s₃`. -/
structure IsLoop (symbols : SymbolTable) (var : SymbolId) (start limit : Expr) (d : Int64)
    (body : List Stmt) (s s₁ s₂ s₃ s' : LoweringState) (L : CountingLoop) : Prop where
  bounds : (do return (← one (ofExpr symbols start), ← one (ofExpr symbols limit)) : Lower _) s =
    .ok (L.first, L.last) s₁
  step : L.step = d
  entry : L.entry = (s₁.fn.block, (s₁.fn.proc.ids s₁.fn.block).length)
  inside : loopBody symbols var (.tempInt L.index) .integer (ofBlock symbols body) L.done s₂ =
    .ok () s₃
  start : s₂.fn.block = L.body ∧ s₂.fn.proc.ids L.body = []
  lower : L.lower = s₂.fn.proc.instrs.size
  upper : L.upper = s₃.fn.proc.instrs.size
  latch : L.latch = (s₃.fn.block, (s₃.fn.proc.ids s₃.fn.block).length)
  done : L.done = s'.fn.block
  grown : s₁.fn.proc.Extends s'.fn.proc
  kept : s₃.fn.proc.Extends s'.fn.proc

/-- From the start of its body on, a loop is completed. -/
theorem ends_loopTail {H : LoopHead} {stride : Operand} (h : AtBody H stride pending held s) :
    Ends (do
      loopBody symbols var (.tempInt H.index) .integer (ofBlock symbols body) H.done
      advance .addII (.tempInt H.index) stride H.test
      startBlock H.done
      free (.tempInt H.bound)
      free (.tempInt H.index)) s (fun _ s' => ∃ s₃ L, L.toLoopHead = H ∧
        loopBody symbols var (.tempInt L.index) .integer (ofBlock symbols body) L.done s =
          .ok () s₃ ∧
        L.upper = s₃.fn.proc.instrs.size ∧
        L.latch = (s₃.fn.block, (s₃.fn.proc.ids s₃.fn.block).length) ∧ L.done = s'.fn.block ∧
        s.fn.proc.Extends s₃.fn.proc ∧ s₃.fn.proc.Extends s'.fn.proc ∧
        ∀ q, s'.fn.proc.Extends q → q.Counts L) fun _ _ => True := by
  obtain ⟨j, rfl, hj⟩ := h.stride
  simp only [ends_bind]
  refine ((ends_run _ _).and (ends_loopBody h.cursor)).mono ?_ fun _ _ _ => trivial
  rintro _ s₁ ⟨hrun, h₁, hlocal⟩
  refine ends_advance.imp ?_
  rintro _ s₂ ⟨h₂, hlatch⟩
  refine ends_startBlock_extends.imp ?_
  rintro _ s₃ ⟨h₃, hdone⟩
  refine (ends_free_extends _).imp ?_
  rintro _ s₄ ⟨h₄, hb₄⟩
  refine (ends_free_extends _).imp ?_
  rintro _ s₅ ⟨h₅, hb₅⟩
  have hlast := h₃.trans (h₄.trans h₅)
  refine ⟨s₁, ⟨H, s₁.fn.proc.instrs.size, _⟩, rfl, hrun, rfl, rfl,
    (hb₅.trans (hb₄.trans hdone)).symm, h₁.toExtends, h₂.trans hlast, fun q hq => ?_⟩
  replace hlast := hlast.trans hq
  have hrest := h₂.trans hlast
  constructor
  case toEnters => exact h.enters.extends (h₁.toExtends.trans hrest)
  case setLocal =>
    obtain ⟨name, reg, tag, hi⟩ := hlocal
    exact ⟨name, reg, tag, hrest.instrAt? hi⟩
  case spared =>
    intro i instr hlo hhi hi
    have hold := Array.getElem?_eq_getElem hhi
    cases hi.symm.trans (hrest.instrs i _ hold)
    have hspared := h₁.spared i _ (h.size_eq ▸ hlo) hold
    exact ⟨hspared _ (by simp), hspared _ (by simp)⟩
  case advance =>
    rcases hlatch with ⟨hadd, hbr⟩ | ⟨k, i, hk, hi, ht⟩
    · exact .inl ⟨j, (h₁.toExtends.trans hrest).constants j _ hj, hlast.instrAt? hadd,
        hlast.instrAt? hbr⟩
    · exact .inr ⟨k, i, hk, hlast.instrAt? hi, ht⟩

end Tails

section Statements

variable {symbols : SymbolTable} {Γ : Setting} {held : List (TempKind × Nat)} {s : LoweringState}

theorem ends_oneExpr (e : Expr) (hw : s.Within Γ) (hs : s.Sound 0 0 0 held) :
    Ends (one (ofExpr symbols e)) s (fun o s' => one (ofExpr symbols e) s = .ok o s' ∧
      s'.Within Γ ∧ s'.Sound 0 0 0 (o.temps ++ held)) fun _ _ => True := by
  have hkeeps := (tracks_one ((treeCases_follows symbols).expr e)).keeps hw trivial
  have hgains := leads_oneExpr symbols e s hs
  exact ((ends_run _ _).and (hkeeps.and hgains)).mono (fun _ _ h => ⟨h.1, h.2.1.1, h.2.2⟩)
    fun _ _ _ => trivial

/-- A numeric loop over integers with a constant step becomes a counting loop. -/
theorem ends_numericFor (var : SymbolId) (start limit : Expr) (step : Option Expr) (d : Int64)
    (body : List Stmt) (hw : s.Within Γ) (ho : Γ.isOpen = true) (hs : s.Sound 0 0 0 held)
    (hst : start.ty = .integer) (hlt : limit.ty = .integer) (hd : constantStep? step = some d) :
    Ends (ofStmt symbols (.numericFor var start limit step body)) s (fun _ s' => ∃ s₁ s₂ s₃ L,
      IsLoop symbols var start limit d body s s₁ s₂ s₃ s' L ∧
      ∀ q, s'.fn.proc.Extends q → q.Counts L) fun _ _ => True := by
  have hint : (ofExpr symbols start).ty.isInteger ∧ (ofExpr symbols limit).ty.isInteger := by
    simp [ofExpr_ty, hst, hlt, Ty.isInteger]
  rw [ofStmt, hd, numericFor, if_pos hint, integerFor]
  simp only [ends_bind]
  refine (ends_oneExpr start hw hs).imp ?_
  rintro first s₀ ⟨hfirst, hw₀, hs₀⟩
  refine (ends_oneExpr limit hw₀ hs₀).imp ?_
  rintro last s₁ ⟨hlast, hw₁, hs₁⟩
  simp only [← ends_bind]
  refine ends_loopHead hw₁.laid (hw₁.opened ho) hs₁.temps ?_
  rintro H stride s₂ rfl rfl rfl hentry hgrown h
  refine (ends_loopTail h).imp ?_
  rintro _ s' ⟨s₃, L, rfl, hinside, hupper, hlatch, hdone, hgrown', hkept, hcounts⟩
  refine ⟨s₁, s₂, s₃, L, ?_, hcounts⟩
  constructor
  case bounds => simp [bind, EStateM.bind, hfirst, hlast, pure, EStateM.pure]
  case step => rfl
  case entry => exact hentry
  case inside => exact hinside
  case start => exact ⟨h.cursor.block_eq, List.length_eq_zero_iff.mp h.cursor.length_eq⟩
  case lower => exact h.size_eq.symm
  case upper => exact hupper
  case latch => exact hlatch
  case done => exact hdone
  case grown => exact hgrown.trans (hgrown'.trans hkept)
  case kept => exact hkept

/-- A numeric loop over integers with a constant step runs its body for the values that the
unbounded integers give, in that order, and ends, if the first value past the bound has 64 bits.
Otherwise the body is run for what that value wraps around to. -/
theorem ofStmt_numericFor_runs (var : SymbolId) (start limit : Expr) (step : Option Expr)
    (d : Int64) (body : List Stmt) (hw : s.Within Γ) (ho : Γ.isOpen = true) (hs : s.Sound 0 0 0 held)
    (hst : start.ty = .integer) (hlt : limit.ty = .integer) (hd : constantStep? step = some d)
    (hne : d ≠ 0) :
    Ends (ofStmt symbols (.numericFor var start limit step body)) s (fun _ s' => ∃ s₁ s₂ s₃ L,
      IsLoop symbols var start limit d body s s₁ s₂ s₃ s' L ∧
      ∀ q, s'.fn.proc.Extends q → ∀ {ρ : Type} (R : Runtime ρ) (c : Runner ρ) (a b : Int64),
        R.FallsThrough q L c → (c.block, c.position) = L.entry → R.read q c L.first = some a →
        R.read q c L.last = some b → R.Runs q L c a b) fun _ _ => True := by
  refine (ends_numericFor var start limit step d body hw ho hs hst hlt hd).mono ?_ fun _ _ h => h
  rintro _ s' ⟨s₁, s₂, s₃, L, h, hcounts⟩
  refine ⟨s₁, s₂, s₃, L, h, fun q hq ρ R c a b hf hc ha hb => ?_⟩
  exact hf.runs (hcounts q hq) (h.step ▸ hne) hc ha hb

end Statements

section Literals

variable {symbols : SymbolTable} {var : SymbolId} {a b d : Int64} {body : List Stmt}
  {s s₁ s₂ s₃ s' : LoweringState} {L : CountingLoop}

def literal (n : Int64) : Expr := ⟨.integer, .integer n⟩

theorem ends_one_literal (n : Int64) :
    Ends (one (ofExpr symbols (literal n))) s (fun o s' => s.fn.proc.Extends s'.fn.proc ∧
      ∃ j, o = .constant j ∧ s'.fn.proc.constants.get? j = some (.integer n)) fun _ _ => True := by
  simp only [literal, one, ofExpr, ofKind, plain, single, intConstant, constant, ends_bind,
    ends_onProc, ends_pure]
  split <;> exact ⟨Proc.extends_intern, _, rfl, s.fn.proc.constants.get?_intern _⟩

theorem IsLoop.read_literals (h : IsLoop symbols var (literal a) (literal b) d body s s₁ s₂ s₃ s' L)
    {ρ : Type} (R : Runtime ρ) (c : Runner ρ) :
    R.read s'.fn.proc c L.first = some a ∧ R.read s'.fn.proc c L.last = some b := by
  have hread {o : Operand} {n : Int64} {j : Nat} (ho : o = .constant j)
      (hj : s₁.fn.proc.constants.get? j = some (.integer n)) :
      R.read s'.fn.proc c o = some n := by
    simp [ho, Runtime.read, h.grown.constants j _ hj]
  have hbounds : Ends (do
      return (← one (ofExpr symbols (literal a)), ← one (ofExpr symbols (literal b)))) s
      (fun r s₁ =>
        (∃ j, r.1 = .constant j ∧ s₁.fn.proc.constants.get? j = some (.integer a)) ∧
        ∃ k, r.2 = .constant k ∧ s₁.fn.proc.constants.get? k = some (.integer b))
      fun _ _ => True := by
    simp only [ends_bind, ends_pure]
    refine (ends_one_literal a).imp ?_
    rintro _ s₀ ⟨-, j, rfl, hj⟩
    refine (ends_one_literal b).imp ?_
    rintro _ s₁ ⟨hgrown, hb⟩
    exact ⟨⟨j, rfl, hgrown.constants j _ hj⟩, hb⟩
  obtain ⟨⟨j, hfirst, hj⟩, k, hlast, hk⟩ := hbounds.of_ok h.bounds
  exact ⟨hread hfirst hj, hread hlast hk⟩

/-- An empty body gives the index to its local and ends. -/
theorem ends_loopBody_nil {x exit : Nat} (hs : s.fn.proc.ids s.fn.block = []) :
    Ends (loopBody symbols var (.tempInt x) .integer (ofBlock symbols []) exit) s (fun _ s' =>
      s'.fn.block = s.fn.block ∧ s'.fn.proc.ids s.fn.block = [s.fn.proc.instrs.size] ∧
      s'.fn.proc.instrs.size = s.fn.proc.instrs.size + 1 ∧
      ∃ name reg tag, s'.fn.proc.instrAt? s.fn.block 0 = some ⟨moveOpcode tag .integer,
        [.tempInt x], [.symbol (.localVar name reg tag)], s.fn.block⟩) fun _ _ => True := by
  simp only [loopBody, inScope, openScope, declareLocal, symbol, ends_bind, ends_modifyFn]
  cases symbols.get? var with
  | none => trivial
  | some sym =>
    simp only [ends_pure, ends_onProc, ends_get]
    change Ends (emit (moveOpcode sym.ty.tag .integer) [.tempInt x] [.symbol _])
      { s with fn := { s.fn with proc := s.fn.proc.allocLocal.1, scopes := _, history := _ } } _ _
    have hopen : s.fn.proc.IsOpen s.fn.block := by simp [Proc.IsOpen, hs]
    rw [Lower.ends_emit, opened_of_open (by exact hopen)]
    refine ends_append_proc.imp ?_
    rintro _ s₁ ⟨hlt, -, hb, h₁, -⟩
    change Ends closeScope _ _ _
    refine (ends_closeScope _).mono ?_ fun _ _ _ => trivial
    rintro _ s₂ hlocals
    have h₂ := (sameCode_of_sameButLocals hlocals).1
    have hids : s₂.fn.proc.ids s.fn.block = [s.fn.proc.instrs.size] := by
      rw [h₂.ids_eq]
      change s₁.fn.proc.ids s.fn.block = _
      rw [h₁, Proc.ids_appended hlt, if_pos rfl]
      change s.fn.proc.ids s.fn.block ++ _ = _
      rw [hs]
      rfl
    have hinstrs : s₂.fn.proc.instrs = s.fn.proc.instrs.push _ :=
      h₂.instrs_eq.trans (congrArg Proc.instrs h₁)
    refine ⟨h₂.block_eq.trans hb, hids, by simp [hinstrs], sym.name,
      s.fn.proc.allocLocal.2, sym.ty.tag, ?_⟩
    simp [Proc.instrAt?, hids, hinstrs]

/-- A runtime that reads nothing but truth values and does nothing else. -/
def idle : Runtime (Nat → Bool) where
  int? _ _ := none
  isTrue w o :=
    match o with
    | .tempAny r => w r
    | _ => false
  setBool := Function.update
  effect _ x := some x
  isTrue_setBool := by simp
  effect_spares := by
    rintro _ x _ ⟨⟩ _ _
    rfl

theorem IsLoop.fallsThrough {start limit : Expr}
    (h : IsLoop symbols var start limit d [] s s₁ s₂ s₃ s' L) (c : Runner (Nat → Bool)) :
    idle.FallsThrough s'.fn.proc L c := by
  intro _ m _ hb hp
  obtain ⟨hblock, hids⟩ := h.start
  obtain ⟨hblock', hids', hsize, name, reg, tag, hi⟩ :=
    (ends_loopBody_nil (hblock ▸ hids)).of_ok h.inside
  rw [hblock] at hblock' hids' hi
  have hid : (s₃.fn.proc.ids L.body)[0]? = some s₂.fn.proc.instrs.size := by rw [hids']; rfl
  refine ⟨[], { m with position := 1 }, .of_step ?_, ?_⟩
  · simp only [Runtime.stepInBody, Runtime.step, hb, hp, h.kept.getElem?_ids hid,
      h.kept.instrAt? hi, h.lower, h.upper, hsize]
    cases tag <;> simp [Runtime.execute, moveOpcode, idle, hb, hp]
  · rw [h.latch, hblock', hids', hb]
    rfl

/-- A function before its first statement. -/
def blank : LoweringState where
  stats := {}
  module := {}
  fn := { proc := { id := 0, parent := none }, function := 0 }

theorem within_blank : blank.Within (functionSetting #[] 0 true) :=
  within_functionSetting blank { id := 0, parent := none } 0 [] rfl rfl
    fun kind => by cases kind <;> rfl

theorem sound_blank : blank.Sound 0 0 0 [] :=
  .fresh rfl (Nat.le_refl _) rfl rfl (fun kind => by cases kind <;> rfl) rfl rfl rfl

/-- The first value past the bound is the least of the range. -/
theorem ofStmt_numericFor_runs_descent :
    let symbols : SymbolTable := ⟨#[⟨"i", .integer, .localOf 0⟩]⟩
    let first : Int64 := -9223372036854775800
    let last : Int64 := -9223372036854775807
    ∃ s' s₁ s₂ s₃ L c, ofStmt symbols (.numericFor 0 (literal first) (literal last)
        (some (literal (-2))) []) blank = .ok () s' ∧
      IsLoop symbols 0 (literal first) (literal last) (-2) [] blank s₁ s₂ s₃ s' L ∧
      (c.block, c.position) = L.entry ∧
      ∃ c', Reaches (idle.step s'.fn.proc L) c [-9223372036854775800, -9223372036854775802,
        -9223372036854775804, -9223372036854775806] c' ∧ c'.block = L.done ∧ c'.position = 0 := by
  intro symbols first last
  obtain ⟨_, s', hrun⟩ := @exists_run _ blank (ofStmt symbols (.numericFor 0 (literal first)
    (literal last) (some (literal (-2))) [])) (by decide +kernel)
  obtain ⟨s₁, s₂, s₃, L, h, hruns⟩ := (ofStmt_numericFor_runs 0 _ _ _ (-2) [] within_blank rfl
    sound_blank rfl rfl rfl (by decide)).of_ok hrun
  let c : Runner (Nat → Bool) := ⟨L.entry.1, L.entry.2, fun _ => 0, fun _ => false⟩
  obtain ⟨ha, hb⟩ := h.read_literals idle c
  have hr := hruns _ (.refl _) idle c _ _ (h.fallsThrough c) rfl ha hb
  have hcount := hr.of_count (n := 4) fun k => by
    rw [CountingLoop.Continues, CountingLoop.value, h.step]
    change k < 4 ↔ -9223372036854775807 ≤ -9223372036854775800 + (k : Int) * -2
    omega
  refine ⟨s', s₁, s₂, s₃, L, c, hrun, h, rfl, ?_⟩
  simpa [Runtime.RunsTimes, CountingLoop.value, h.step, first, List.range_succ] using hcount

/-- A loop for the greatest integer goes on with the least one. -/
theorem numericFor_greatest_wraps :
    let symbols : SymbolTable := ⟨#[⟨"i", .integer, .localOf 0⟩]⟩
    let greatest : Int64 := 9223372036854775807
    ∃ s' s₁ s₂ s₃ L c, ofStmt symbols (.numericFor 0 (literal greatest) (literal greatest) none [])
        blank = .ok () s' ∧
      IsLoop symbols 0 (literal greatest) (literal greatest) 1 [] blank s₁ s₂ s₃ s' L ∧
      (c.block, c.position) = L.entry ∧
      ∃ c', Reaches (idle.step s'.fn.proc L) c [9223372036854775807, -9223372036854775808] c' ∧
        c'.block = L.body ∧ c'.position = 0 := by
  intro symbols greatest
  obtain ⟨_, s', hrun⟩ := @exists_run _ blank (ofStmt symbols
    (.numericFor 0 (literal greatest) (literal greatest) none [])) (by decide +kernel)
  obtain ⟨s₁, s₂, s₃, L, h, hcounts⟩ := (ends_numericFor 0 _ _ _ 1 [] within_blank rfl
    sound_blank rfl rfl rfl).of_ok hrun
  let c : Runner (Nat → Bool) := ⟨L.entry.1, L.entry.2, fun _ => 0, fun _ => false⟩
  obtain ⟨ha, hb⟩ := h.read_literals idle c
  have hr := (h.fallsThrough c).runs (hcounts _ (.refl _)) (by simp [h.step]) rfl ha hb
  have hcount := hr.of_count (n := 1) fun k => by
    rw [CountingLoop.Continues, CountingLoop.value, h.step]
    change k < 1 ↔ 9223372036854775807 + (k : Int) * 1 ≤ 9223372036854775807
    omega
  refine ⟨s', s₁, s₂, s₃, L, c, hrun, h, rfl, ?_⟩
  simpa [Runtime.RunsTimes, CountingLoop.value, h.step, greatest] using hcount

end Literals

end Lower

end ScriptC
