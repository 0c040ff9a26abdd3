import ScriptC.Proofs.Integers.Holding
import ScriptC.Proofs.Resources.Returns

/-! # Conversions of integers to floats

An operand that an opcode has evaluated as a float although it is an integer is converted if it is held
as an integer. Otherwise nothing tells the code that it is one: a tagged value is read as the float
that it does not hold.
-/

namespace ScriptC

open Lower

/-- The floats that an expression is computed from. -/
def FloatExpr.operand? (n : Nat) : FloatExpr → Option FloatExpr
  | .binary _ x y => [x, y][n]?
  | x => [x][n]?

/-- The floats that a statement reads to set another one. -/
def Code.floatOperand? (n : Nat) : Code → Option FloatExpr
  | .setFloat _ x | .storeFloat _ x => x.operand? n
  | _ => none

namespace CodeContext

variable {c : CodeContext} {i : Instr} {o : Operand} {x : FloatExpr} {n : Nat}

/-- How an operand is read as a float, by where it is held. -/
inductive ReadsFloat (c : CodeContext) (o : Operand) : TempKind → FloatExpr → Prop where
  /-- The conversion of what is read as an integer. -/
  | converted {x : IntExpr} (h : c.intValue o = .ok x) : ReadsFloat c o .int (.ofInt x)
  | integer {n : Int64} (h : c.proc.constant? o = some (.integer n)) :
    ReadsFloat c o .int (.literal (.ofInt n.toInt))
  | native {r : Nat} (h : o = .tempFloat r) : ReadsFloat c o .float (.var (.temp r))
  | number {x : Binary64} (h : c.proc.constant? o = some (.number x)) :
    ReadsFloat c o .float (.literal x)
  /-- The float in a tagged value, whatever it holds. -/
  | tagged {a : Address} (h : c.address? o = .ok (some a)) : ReadsFloat c o .any (.tagged a)

theorem readsFloat_of_taggedFloat (h : c.taggedFloat o = .ok x) : c.ReadsFloat o .any x := by
  obtain ⟨a, ha, h⟩ := bind_eq_ok h
  cases a with
  | none => cases h
  | some a =>
    cases h
    exact .tagged ha

theorem readsFloat_of_floatValue (h : c.floatValue o = .ok x) :
    c.ReadsFloat o (c.proc.heldAs o) x := by
  cases o with
  | tempInt r =>
    cases h
    exact .converted rfl
  | tempFloat r =>
    cases h
    exact .native rfl
  | constant k =>
    simp only [floatValue] at h
    simp only [Proc.heldAs]
    split at h
    · rename_i v hv
      cases h
      rw [show c.proc.constants.get? k = some (.number v) from hv]
      exact .number hv
    · rename_i n hn
      cases h
      rw [show c.proc.constants.get? k = some (.integer n) from hn]
      exact .integer hn
    · cases h
  | symbol ref =>
    simp only [floatValue] at h
    simp only [Proc.heldAs]
    split at h
    · rename_i htag
      obtain ⟨y, hy, h⟩ := bind_eq_ok h
      cases h
      rw [if_pos htag]
      exact .converted hy
    · rename_i htag
      rw [if_neg htag]
      exact readsFloat_of_taggedFloat h
  | _ => exact readsFloat_of_taggedFloat h

theorem floatOperand?_storeFloat {dest : Operand} {st : Code} (h : c.storeFloat dest x = .ok st) :
    st.floatOperand? n = x.operand? n := by
  unfold storeFloat at h
  split at h
  · cases h
    rfl
  · obtain ⟨a, -, h⟩ := bind_eq_ok h
    cases h
    rfl

theorem operand?_of_floatValue (h : c.floatValue o = .ok x) : x.operand? 0 = some x := by
  have hreads := readsFloat_of_floatValue h
  generalize c.proc.heldAs o = kind at hreads
  cases hreads <;> rfl

theorem operand_eq_ok (h : c.operand i n = .ok o) : i.operands[n]? = some o := by
  unfold operand at h
  split at h
  · cases h
    assumption
  · cases h

/-- Both operands of float arithmetic are read as floats. -/
theorem exists_of_floatArith {op : FloatOp} {code : List Code} (h : c.floatArith op i = .ok code)
    (hn : n < 2) : ∃ st o x, code = [st] ∧ i.operands[n]? = some o ∧ c.floatValue o = .ok x ∧
      st.floatOperand? n = some x := by
  obtain ⟨a, ha, h⟩ := bind_eq_ok h
  obtain ⟨b, hb, h⟩ := bind_eq_ok h
  obtain ⟨dest, -, h⟩ := bind_eq_ok h
  obtain ⟨x, hx, h⟩ := bind_eq_ok h
  obtain ⟨y, hy, h⟩ := bind_eq_ok h
  obtain ⟨st, hst, h⟩ := bind_eq_ok h
  cases h
  obtain rfl | rfl : n = 0 ∨ n = 1 := by omega
  · exact ⟨st, a, x, rfl, operand_eq_ok ha, hx, floatOperand?_storeFloat hst⟩
  · exact ⟨st, b, y, rfl, operand_eq_ok hb, hy, floatOperand?_storeFloat hst⟩

theorem exists_of_moveFloat {code : List Code} (h : c.moveFloat i = .ok code) :
    ∃ st o x, code = [st] ∧ i.operands[0]? = some o ∧ c.floatValue o = .ok x ∧
      st.floatOperand? 0 = some x := by
  obtain ⟨src, hsrc, h⟩ := bind_eq_ok h
  obtain ⟨dest, -, h⟩ := bind_eq_ok h
  obtain ⟨x, hx, h⟩ := bind_eq_ok h
  obtain ⟨st, hst, h⟩ := bind_eq_ok h
  cases h
  refine ⟨st, src, x, rfl, operand_eq_ok hsrc, hx, ?_⟩
  rw [floatOperand?_storeFloat hst, operand?_of_floatValue hx]

/-- Integers are converted by moves and by arithmetic. -/
theorem instr_of_converted (hn : n ∈ i.opcode.converted) :
    (n = 0 ∧ c.instr i = c.moveFloat i) ∨ n < 2 ∧ ∃ op, c.instr i = c.floatArith op i := by
  unfold instr
  cases hop : i.opcode <;> rw [hop] at hn <;>
    simp only [Opcode.converted, List.mem_cons, List.not_mem_nil, or_false] at hn
  case movIF => exact .inl ⟨hn, rfl⟩
  all_goals exact .inr ⟨by omega, _, rfl⟩

/-- An operand that is to be converted is read as a float. -/
theorem exists_of_converted {code : List Code} (hn : n ∈ i.opcode.converted)
    (h : c.instr i = .ok code) : ∃ st o x, code = [st] ∧ i.operands[n]? = some o ∧
      c.floatValue o = .ok x ∧ st.floatOperand? n = some x := by
  rcases instr_of_converted (c := c) hn with ⟨rfl, hmove⟩ | ⟨hlt, op, harith⟩
  · exact exists_of_moveFloat (hmove ▸ h)
  · exact exists_of_floatArith (harith ▸ h) hlt

end CodeContext

section Sources

variable {t : Tree} {p : Proc} {o : Operand} {n : Nat}

/-- A value that is converted is a native integer, or that of an expression which is known to be one by
its type or by where it is held. -/
def Tree.IsIntegerSource (t : Tree) (p : Proc) (o : Operand) : Prop :=
  (∃ r, o = .tempInt r) ∨ ∃ e ∈ t.occurrences, e.LowersTo t.symbols p o ∧
    (e.heldAs t.symbols ≠ .int → e.ty = .integer)

/-- A value is tagged as an integer because it is held as one or declared to be one. -/
theorem Lower.Gave.valueTag_integer {declared : TypeTag}
    (h : Gave (LoweringState.LeadsTo p) (valueTag o declared) .integer) :
    p.heldAs o = .int ∨ declared = .integer := by
  obtain ⟨s, s', hrun, hleads⟩ := h
  have hends : Ends (valueTag o declared) s (fun tag s' => s'.fn.proc.Becomes p →
      tag = .integer → p.heldAs o = .int ∨ declared = .integer) fun _ _ => True := by
    cases o with
    | constant k =>
      simp only [valueTag, ends_bind, ends_get]
      split
      · rename_i n hn
        refine fun hp _ => .inl ?_
        simp [Proc.heldAs, hp.constants k _ hn]
      · simp
      · simp
      · exact fun _ h => .inr h
    | symbol ref => exact fun _ h => .inr h
    | _ => simp [valueTag, Proc.heldAs]
  exact hends.of_ok hrun hleads rfl

theorem Origin.IsEntry.isIntegerSource {f : Site}
    (h : Origin.IsEntry t.symbols (· ∈ t.occurrences) (LoweringState.Approaches f) o .integer) :
    t.IsIntegerSource f.proc o := by
  cases h with
  | value h ht =>
    refine .inr ⟨_, h.occurs, h.gave.leadsTo, fun hheld => ?_⟩
    rw [← (Expr.LowersTo.foretells h.gave.leadsTo).heldAs] at hheld
    exact Ty.tag_eq_integer.mp (ht.leadsTo.valueTag_integer.resolve_left hheld)
  | temp tag r => exact .inl ⟨r, rfl⟩

theorem Selection.class_of_converted {op : BinaryOp} {l r : OperandClass} {sel : Selection}
    (h : Selection.binary? op l r = some sel) :
    ∀ n ∈ sel.opcode.converted, [l, r][n]? = some .int := by
  cases op <;> cases l <;> cases r <;> cases h <;> decide

theorem OperandClass.ty_of_int {ty : Ty} (h : OperandClass.of ty = .int) : ty = .integer := by
  cases ty <;> first | rfl | cases h

theorem Selection.converted_unary (op : UnaryOp) (ty : Ty) :
    (Selection.unary op ty).opcode.converted = [] := by
  cases op <;> simp only [Selection.unary] <;> (try split) <;> rfl

theorem Selection.converted_load (ty : Ty) (c : KeyClass) :
    (Selection.load ty c).opcode.converted = [] := by
  cases ty <;> cases c <;> rfl

theorem Opcode.converted_of_store {opcode store : Opcode}
    (h : opcode.storeCounterpart? = some store) : store.converted = [] := by
  cases opcode <;> cases h <;> rfl

theorem Lower.Shape.converted_positional (shape : Shape) : shape.positional.converted = [] := by
  cases shape <;> rfl

theorem Lower.Shape.converted_keyed (shape : Shape) (c : KeyClass) :
    (shape.keyed c).converted = [] := by
  cases shape <;> cases c <;> rfl

/-- What an instruction is to convert is an integer by its type, or is held as one. -/
theorem Origin.converted {f : Site} {opcode : Opcode} {operands targets : List Operand}
    (h : Origin t.symbols (· ∈ t.occurrences) (LoweringState.Approaches f) f.HasChild opcode operands
      targets) (hn : n ∈ opcode.converted) :
    ∃ o, operands[n]? = some o ∧ t.IsIntegerSource f.proc o := by
  induction h with
  | plain hp => simp_all [Opcode.isPlain]
  | unary h r => simp [Selection.converted_unary] at hn
  | load he ho hk hc r => simp [Selection.converted_load] at hn
  | store h hs hv ih => simp [Opcode.converted_of_store hs] at hn
  | positional shape r hk hv => simp [Shape.converted_positional] at hn
  | keyed r he hi hk hc hv => simp [Shape.converted_keyed] at hn
  | @operator op lhs rhs x y sel hx hy hs r =>
    have hclass := Selection.class_of_converted hs n hn
    obtain rfl | rfl : n = 0 ∨ n = 1 := by
      have := (List.getElem?_eq_some_iff.mp hclass).1
      simp only [List.length_cons, List.length_nil] at this
      omega
    · have hty : lhs.ty = .integer := OperandClass.ty_of_int (Option.some.inj hclass)
      exact ⟨x, rfl, .inr ⟨lhs, hx.occurs, hx.gave.leadsTo, fun _ => hty⟩⟩
    · have hty : rhs.ty = .integer := OperandClass.ty_of_int (Option.some.inj hclass)
      exact ⟨y, rfl, .inr ⟨rhs, hy.occurs, hy.gave.leadsTo, fun _ => hty⟩⟩
  | convert h hd =>
    cases List.mem_singleton.mp hn
    exact ⟨_, rfl, h.isIntegerSource⟩
  | ask h hk ih => exact ih hn
  | ret | call | closure => cases hn

end Sources

section Analysis

variable {t : Tree} {stats : Stats} {m : Module}

/-- Whatever the code of the proc converts is an integer. -/
def Tree.ConvertsIntegers (t : Tree) (p : Proc) : Prop := ∀ i ∈ p.instrs, ∀ n ∈ i.opcode.converted,
  ∃ o, i.operands[n]? = some o ∧ t.IsIntegerSource p o

theorem Tree.ConvertsIntegers.withFlow {p : Proc} (h : t.ConvertsIntegers p) (flow : Flow) :
    t.ConvertsIntegers { p with flow := some flow } := by
  have hleads : LoweringState.LeadsTo { p with flow := some flow } = LoweringState.LeadsTo p := by
    ext s
    constructor <;> exact fun h => ⟨h.id, h.parent, h.constants, h.instrs⟩
  unfold ConvertsIntegers IsIntegerSource Expr.LowersTo
  rw [hleads]
  exact h

end Analysis

namespace Tree

variable {t : Tree} {options : Options} {host : Host} {root : Nat} {stats : Stats} {u : CompiledUnit}
  {k : Nat} {p : Proc} {m : Module}

/-- Every operand of a compiled tree that an opcode has converted to a float is a native integer,
which is converted, or the value of an expression. The value of an expression is converted if it is
held as an integer. If it is held as a tagged value, it is read as a float in spite of its type. -/
theorem compile_conversions (h : (t.compile options host root stats).result = .ok u)
    (hp : u.module.procs[k]? = some p) :
    ∃ c P, u.Emits (t.compile options host root stats).host k c P ∧ c.proc = p ∧
      ∀ i ∈ p.instrs, ∀ n ∈ i.opcode.converted, ∃ st o x, c.instr i = .ok [st] ∧
        st.floatOperand? n = some x ∧ i.operands[n]? = some o ∧
        ((∃ r, o = .tempInt r ∧ x = .ofInt (.var (.temp r))) ∨
          ∃ e ∈ t.occurrences, e.LowersTo t.symbols p o ∧ c.ReadsFloat o (e.heldAs t.symbols) x ∧
            (e.heldAs t.symbols ≠ .int → e.ty = .integer)) := by
  obtain ⟨stats', stats'', generated, ha, -, -⟩ := exists_of_compile h
  obtain ⟨c, P, hemits, rfl, -, -, f, hfinished⟩ := exists_emits h hp
  refine ⟨c, P, hemits, rfl, fun i hi n hn => ?_⟩
  obtain ⟨_, _, -, -, -, -, hunit, -⟩ := hemits.function
  have hcode := CodeContext.instr_eq_codeOf hunit hfinished hi
  obtain ⟨st, o, x, hst, ho, hx, hread⟩ := CodeContext.exists_of_converted hn hcode
  have hconverts : t.ConvertsIntegers c.proc :=
    of_analyse (M := fun m => ∀ p ∈ m.procs, t.ConvertsIntegers p)
      (fun _ id flow hm => Module.forall_mem_modify (fun _ hq => hq.withFlow flow) hm id)
      (fun _ hm q hq j hj _ hn => (origin_of_lower hm q hq j hj).converted hn)
      (congrArg Prod.snd ha) _ (Array.mem_of_getElem? hp)
  obtain ⟨o', ho', hsource⟩ := hconverts i hi n hn
  cases ho.symm.trans ho'
  refine ⟨st, o, x, hst ▸ hcode, hread, ho, ?_⟩
  have hreads := CodeContext.readsFloat_of_floatValue hx
  rcases hsource with ⟨r, rfl⟩ | ⟨e, he, hlowers, hty⟩
  · cases hx
    exact .inl ⟨r, rfl, rfl⟩
  · rw [hlowers.foretells.heldAs] at hreads
    exact .inr ⟨e, he, hlowers, hreads, hty⟩

/-- An instruction of the main function, found by a check. -/
theorem exists_mainInstr (check : Instr → Bool) (hm : (t.analyse {}).2 = .ok m)
    (h : (t.analyse {}).2.toOption.any
      (fun m => m.procs[0]?.any fun p => p.instrs.any check) = true) :
    ∃ p, m.procs[0]? = some p ∧ ∃ i ∈ p.instrs, check i = true := by
  rw [hm] at h
  change m.procs[0]?.any (fun p => p.instrs.any check) = true at h
  obtain ⟨p, hp, hany⟩ := (Option.any_eq_true _ _).mp h
  exact ⟨p, hp, Array.any_eq_true'.mp hany⟩

/-- A float is added to a variable that is an integer. -/
def raisedVariable : Tree where
  symbols := ⟨#[⟨"i", .integer, .localOf 0⟩]⟩
  main :=
    { id := 0, name := none, params := [], isVararg := false, upvalues := []
      body := [.declare [0] [⟨.integer, .integer 7⟩],
        .ret [⟨.number, .binary .add ⟨.integer, .symbol 0⟩ ⟨.number, .number (.ofInt 1)⟩⟩]] }

theorem raisedVariable_converts : ∃ u c P i st x,
    (raisedVariable.compile {} {} Host.root {}).result = .ok u ∧
    u.Emits (raisedVariable.compile {} {} Host.root {}).host 0 c P ∧ i ∈ c.proc.instrs ∧
    i.opcode = .addIF ∧ c.instr i = .ok [st] ∧ st.floatOperand? 0 = some (.ofInt x) := by
  obtain ⟨m, unit, hm, hu⟩ := exists_compile (t := raisedVariable) (by decide +kernel)
  obtain ⟨p, hp, i, hi, h⟩ := exists_mainInstr (fun i => i.opcode = .addIF ∧
    i.operands[0]? = some (.symbol (.localVar "i" 0 .integer))) hm (by decide +kernel)
  obtain ⟨hop, ho⟩ := of_decide_eq_true h
  obtain ⟨c, P, hemits, rfl, hreads⟩ := compile_conversions hu hp
  obtain ⟨st, o, x, hst, hx, ho', hsource⟩ := hreads i hi 0 (by rw [hop]; decide)
  cases ho.symm.trans ho'
  obtain ⟨r, hr, -⟩ | ⟨e, -, hlowers, hread, -⟩ := hsource
  · cases hr
  · have hint : e.heldAs raisedVariable.symbols = .int := hlowers.foretells.heldAs.symm
    rw [hint] at hread
    cases hread with
    | converted h => exact ⟨_, c, P, i, st, _, hu, hemits, hi, hop, hst, hx⟩
    | integer h => cases h

/-- A float is added to a quotient that has the type of an integer. -/
def raisedQuotient : Tree where
  symbols := ⟨#[]⟩
  main :=
    { id := 0, name := none, params := [], isVararg := false, upvalues := []
      body := [.ret [⟨.number, .binary .add
        ⟨.integer, .binary .idiv ⟨.integer, .integer 7⟩ ⟨.integer, .integer 2⟩⟩
        ⟨.number, .number (.ofInt 1)⟩⟩]] }

/-- The quotient is worked out by the runtime, and is then read as if it were a float. -/
theorem raisedQuotient_read_as_float : ∃ u c P i st a,
    (raisedQuotient.compile {} {} Host.root {}).result = .ok u ∧
    u.Emits (raisedQuotient.compile {} {} Host.root {}).host 0 c P ∧ i ∈ c.proc.instrs ∧
    i.opcode = .addIF ∧ c.instr i = .ok [st] ∧ st.floatOperand? 0 = some (.tagged a) := by
  obtain ⟨m, unit, hm, hu⟩ := exists_compile (t := raisedQuotient) (by decide +kernel)
  obtain ⟨p, hp, i, hi, h⟩ := exists_mainInstr (fun i => i.opcode = .addIF ∧
    i.operands[0]? = some (.tempAny 0)) hm (by decide +kernel)
  obtain ⟨hop, ho⟩ := of_decide_eq_true h
  obtain ⟨c, P, hemits, rfl, -, -, f, hfinished⟩ := exists_emits hu hp
  obtain ⟨_, _, -, -, -, -, hunit, -⟩ := hemits.function
  have hcode := CodeContext.instr_eq_codeOf hunit hfinished hi
  obtain ⟨st, o, x, hst, ho', hx, hread⟩ :=
    CodeContext.exists_of_converted (n := 0) (by rw [hop]; decide) hcode
  cases ho.symm.trans ho'
  rw [hst] at hcode
  have hreads : c.ReadsFloat (.tempAny 0) .any x := CodeContext.readsFloat_of_floatValue hx
  cases hreads with
  | tagged ha => exact ⟨_, c, P, i, st, _, hu, hemits, hi, hop, hcode, hread⟩

end Tree

end ScriptC
