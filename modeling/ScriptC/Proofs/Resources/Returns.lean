import Mathlib.Data.List.Dedup
import ScriptC.Proofs.Moves.Sequencing
import ScriptC.Proofs.Resources.Units

/-! # Results and frames

A return puts its fixed values into the slot of the function and the slots above it. The frame was
sized by what lies in it, and a returned value may lie nowhere. So results stay within the reserved
slots exactly if there is at most one more of them than of these slots, as there is when all of them
but one have a slot of their own.
-/

namespace ScriptC

/-- The slot of a result, counted from the base of the function that returns it. -/
def Address.resultSlot? : Address → Option Int
  | result j => some (j - 1)
  | _ => none

/-- The values that a return has a fixed number of. -/
def Instr.returned (i : Instr) : List Operand := (CodeContext.splitTail i.operands).1

namespace Code

mutual

/-- The slots where a statement puts results. -/
def resultSlots : Code → List Int
  | .storeInt a _ | .storeFloat a _ | .storeBool a _ | .storeNil a | .copy a _ =>
    a.resultSlot?.toList
  | .scope body => resultSlotsOf body
  | _ => []

def resultSlotsOf : List Code → List Int
  | [] => []
  | st :: rest => st.resultSlots ++ resultSlotsOf rest

end

theorem resultSlotsOf_eq_flatMap (code : List Code) :
    resultSlotsOf code = code.flatMap resultSlots := by
  induction code with
  | nil => rfl
  | cons st rest ih => rw [resultSlotsOf, ih, List.flatMap_cons]

end Code

namespace CodeContext

variable {c : CodeContext} {i : Instr} {code : List Code}

theorem resultSlots_store {dest : Address} {o : Operand} {st : Code} (h : c.store dest o = .ok st) :
    st.resultSlots = dest.resultSlot?.toList := by
  obtain ⟨held, -, h⟩ := bind_eq_ok h
  cases held with
  | nil | boolean =>
    cases h
    rw [Code.resultSlots]
  | _ =>
    obtain ⟨x, -, h⟩ := bind_eq_ok h
    cases h
    rw [Code.resultSlots]

/-- Each fixed value is written once, to the slot of its position. -/
theorem resultSlotsOf_ret (h : c.ret i = .ok code) : Code.resultSlotsOf code =
    (List.range i.returned.length).map fun (j : Nat) => (j : Int) - 1 := by
  obtain ⟨kept, moved, hkept, hmoved, rfl⟩ := ret_eq h (Prod.eta (splitTail i.operands)).symm
  have hstores : ∀ x ∈ (splitTail i.operands).1.zipIdx,
      Yields (c.store (.kept x.2) (narrowed x.1)) fun st => st.resultSlots = [] :=
    fun x _ st hst => resultSlots_store hst
  have hkept : kept.flatMap Code.resultSlots = [] :=
    List.flatMap_eq_nil_iff.mpr (yields_mapM hstores kept hkept)
  have hmoved : moved.flatMap Code.resultSlots = [] := by
    unfold moveTail at hmoved
    split at hmoved
    · obtain ⟨s, -, hmoved⟩ := bind_eq_ok hmoved
      cases hmoved
      rfl
    · cases hmoved
      rfl
  have hkeep : (if i.returned.length = 0 then [] else [Code.keep i.returned.length]).flatMap
      Code.resultSlots = [] := by
    split <;> rfl
  rw [Code.resultSlotsOf, Code.resultSlots, Code.resultSlotsOf, List.append_nil,
    Code.resultSlotsOf_eq_flatMap, ← Instr.returned]
  simp only [List.flatMap_append, hkept, hmoved, hkeep, List.nil_append, List.flatMap_map,
    Code.resultSlots]
  rw [List.map_eq_flatMap]
  exact List.append_nil _

theorem results_lt_iff (slots : Nat) (h : c.ret i = .ok code) :
    (∀ slot ∈ Code.resultSlotsOf code, slot < slots) ↔ i.returned.length ≤ slots + 1 := by
  rw [resultSlotsOf_ret h, List.forall_mem_map]
  constructor
  · intro hlt
    by_contra hle
    have := hlt slots (List.mem_range.mpr (by omega))
    have := hlt (slots + 1) (List.mem_range.mpr (by omega))
    omega
  · intro hle j hj
    have := List.mem_range.mp hj
    omega

/-- Values that lie in slots of the frame lie in no more slots than it has. -/
theorem length_dedup_position_le {symbols : SymbolTable} {f : Function}
    (hf : c.frame.Accommodates c.proc) (h : c.proc.Finished symbols f) (hi : i ∈ c.proc.instrs) :
    (i.returned.filterMap c.frame.position).dedup.length ≤ c.frame.size := by
  have hsubset : (i.returned.filterMap c.frame.position).dedup ⊆ List.range c.frame.size := by
    intro s hs
    obtain ⟨o, ho, hs⟩ := List.mem_filterMap.mp (List.mem_dedup.mp hs)
    have hmem := List.mem_append_left i.targets ((CoversInstr.mem_splitTail i.operands).1 o ho)
    exact List.mem_range.mpr (hf.position_lt hi hmem (h.code i hi o hmem) hs).1
  have hle := (List.subperm_of_subset (List.nodup_dedup _) hsubset).length_le
  rwa [List.length_range] at hle

/-- Every instruction of a proc that has a function has code. -/
theorem instr_eq_codeOf {symbols : SymbolTable} {f : Function} {name : String} {unit : CodeUnit}
    (hunit : c.unit name = .ok unit) (h : c.proc.Finished symbols f) (hi : i ∈ c.proc.instrs) :
    c.instr i = .ok (c.codeOf i) := by
  obtain ⟨b, -, -, -, hb, hexit, -, -, hib⟩ := h.exists_block hi
  exact (unit_eq hunit).2 b (mem_liveBlocks.mpr ⟨hb, hexit⟩) i hib

theorem instr_of_ret (h : i.opcode = .ret) : c.instr i = c.ret i := by
  rw [instr, h]

end CodeContext

/-- The code of proc `k` is generated for `c`, and its function is attached to the prototype `P`. -/
structure CompiledUnit.Emits (u : CompiledUnit) (host : Host) (k : Nat) (c : CodeContext)
    (P : Prototype) : Prop where
  proc : u.module.procs[k]? = some c.proc
  function : ∃ f unit before after, u.unit.functions[k]? = some f ∧ f.frame = c.frame ∧
    c.unit f.name = .ok unit ∧ u.unit.source = before ++ unit.text ++ after ∧
    host.prototypes[f.prototype]? = some P

namespace Tree

variable {t : Tree} {options : Options} {host : Host} {root : Nat} {stats : Stats} {u : CompiledUnit}
  {k : Nat} {p : Proc}

theorem exists_emits (h : (t.compile options host root stats).result = .ok u)
    (hp : u.module.procs[k]? = some p) :
    ∃ c P, u.Emits (t.compile options host root stats).host k c P ∧ c.proc = p ∧
      Frame.compute p = .ok c.frame ∧ P.slots = c.frame.size ∧ ∃ f, p.Finished t.symbols f := by
  obtain ⟨placements, ws, A, hpop, hlength, hprogress, -, -, hattached⟩ := progress_of_compile h
  have hlt := (Array.getElem?_eq_some_iff.mp hp).1
  have hw : ws[k]? = some ws[k] := List.getElem?_eq_getElem (hlength ▸ hlt)
  generalize ws[k] = w at hw
  have hmem : w ∈ ws := List.mem_of_getElem? hw
  obtain ⟨p', hp', -, hname, hprod⟩ := hprogress.produces k w hw
  cases hp.symm.trans hp'
  obtain ⟨P, hP, hslots⟩ := hprogress.slots w hmem
  have hfinal := hattached w hmem
  rw [hP, Option.map_some] at hfinal
  obtain ⟨pl, hpl⟩ := hpop.assigned.placement? hlt
  obtain ⟨front, rear, rfl⟩ := List.append_of_mem hmem
  refine ⟨⟨p, u.module.children p.id, w.function.frame, w.places⟩, _,
    ⟨hp, w.function, w.unit, options.heading ++ String.join (front.map (·.unit.text ++ "\n")),
      "\n" ++ String.join (rear.map (·.unit.text ++ "\n")), ?_, rfl, ?_, ?_, hfinal⟩,
    rfl, hprod.frame_eq, hslots, _, hpop.finished k p pl hp hpl⟩
  · rw [hprogress.functions_eq, List.getElem?_map, hw, Option.map_some]
  · rw [hname, ← hpop.numbered.ids k p hp]
    exact hprod.unit_eq
  · rw [hprogress.source_eq, List.map_append, List.map_cons, String.join_append, String.join_cons]
    simp only [String.append_assoc]

/-- A return of the main function, found by running the analysis. -/
theorem exists_ret {m : Module} {frame : Frame} {n : Nat} (hm : (t.analyse {}).2 = .ok m)
    (h : (match (t.analyse {}).2 with
      | .ok m => m.procs[0]?.any fun p => (Frame.compute p).toOption = some frame ∧
        p.instrs.any fun i => i.opcode = .ret ∧ i.returned.length = n
      | .error _ => false) = true) :
    ∃ p, m.procs[0]? = some p ∧ Frame.compute p = .ok frame ∧
      ∃ i ∈ p.instrs, i.opcode = .ret ∧ i.returned.length = n := by
  simp only [hm, Option.any_eq_true, decide_eq_true_eq, Array.any_eq_true'] at h
  obtain ⟨p, hp, hframe, i, hi, hret⟩ := h
  refine ⟨p, hp, ?_, i, hi, hret⟩
  cases hf : Frame.compute p with
  | ok frame' =>
    rw [hf] at hframe
    exact congrArg _ (Option.some.inj hframe)
  | error e =>
    rw [hf] at hframe
    cases hframe

/-- On whatever host a tree was compiled, a return writes its results within the slots that are
reserved for its proc exactly if it has at most one more of fixed number than there are slots. This
is so if all of them but one lie in slots of their own. -/
theorem compile_results_fit (h : (t.compile options host root stats).result = .ok u)
    (hp : u.module.procs[k]? = some p) :
    ∃ c P, u.Emits (t.compile options host root stats).host k c P ∧ c.proc = p ∧
      Frame.compute p = .ok c.frame ∧ P.slots = c.frame.size ∧
      ∀ i ∈ p.instrs, i.opcode = .ret → ∃ code, c.instr i = .ok code ∧
        ((∀ slot ∈ Code.resultSlotsOf code, slot < P.slots) ↔ i.returned.length ≤ P.slots + 1) ∧
        (i.returned.length ≤ (i.returned.filterMap c.frame.position).dedup.length + 1 →
          ∀ slot ∈ Code.resultSlotsOf code, slot < P.slots) := by
  obtain ⟨c, P, hemits, rfl, hframe, hslots, f, hfinished⟩ := exists_emits h hp
  refine ⟨c, P, hemits, rfl, hframe, hslots, fun i hi hret => ?_⟩
  obtain ⟨_, _, -, -, -, -, hunit, -⟩ := hemits.function
  have hcode := CodeContext.instr_eq_codeOf hunit hfinished hi
  have hiff := CodeContext.results_lt_iff P.slots (CodeContext.instr_of_ret hret ▸ hcode)
  refine ⟨c.codeOf i, hcode, hiff, fun hle => hiff.mpr ?_⟩
  have := CodeContext.length_dedup_position_le (Frame.accommodates_of_compute hframe) hfinished hi
  omega

/-- Two locals are returned in reverse, followed by an integer. -/
def returnedLocals : Tree where
  symbols := ⟨#[⟨"a", .any, .localOf 0⟩, ⟨"b", .any, .localOf 0⟩]⟩
  main :=
    { id := 0, name := none, params := [], isVararg := false, upvalues := []
      body := [.declare [0, 1] [],
        .ret [⟨.any, .symbol 1⟩, ⟨.any, .symbol 0⟩, ⟨.integer, .integer 1⟩]] }

/-- The three results just fit into the two slots of the frame. -/
theorem returnedLocals_results_fit : ∃ u c P i code,
    (returnedLocals.compile {} {} Host.root {}).result = .ok u ∧
    u.Emits (returnedLocals.compile {} {} Host.root {}).host 0 c P ∧ i ∈ c.proc.instrs ∧
    i.opcode = .ret ∧ i.returned.length = 3 ∧ P.slots = 2 ∧ c.instr i = .ok code ∧
    ∀ slot ∈ Code.resultSlotsOf code, slot < P.slots := by
  obtain ⟨m, unit, hm, hu⟩ := exists_compile (t := returnedLocals) (by decide +kernel)
  obtain ⟨p, hp, hframe, i, hi, hret, hlength⟩ : ∃ p, m.procs[0]? = some p ∧
      Frame.compute p = .ok ⟨2, 2⟩ ∧ ∃ i ∈ p.instrs, i.opcode = .ret ∧ i.returned.length = 3 :=
    exists_ret hm (by decide +kernel)
  obtain ⟨c, P, hemits, rfl, hcompute, hslots, hrets⟩ := compile_results_fit hu hp
  obtain ⟨code, hcode, hiff, -⟩ := hrets i hi hret
  have htwo : P.slots = 2 := by
    rw [hslots, Except.ok.inj (hcompute.symm.trans hframe)]
  exact ⟨_, c, P, i, code, hu, hemits, hi, hret, hlength, htwo, hcode, hiff.mpr (by omega)⟩

/-- Two integers are returned. -/
def returnedIntegers : Tree where
  symbols := ⟨#[]⟩
  main :=
    { id := 0, name := none, params := [], isVararg := false, upvalues := []
      body := [.ret [⟨.integer, .integer 1⟩, ⟨.integer, .integer 2⟩]] }

/-- No slot is reserved, but the second result is written to the first slot of the frame. -/
theorem returnedIntegers_exceed_frame : ∃ u c P i code,
    (returnedIntegers.compile {} {} Host.root {}).result = .ok u ∧
    u.Emits (returnedIntegers.compile {} {} Host.root {}).host 0 c P ∧ i ∈ c.proc.instrs ∧
    i.opcode = .ret ∧ P.slots = 0 ∧ c.instr i = .ok code ∧ 0 ∈ Code.resultSlotsOf code := by
  obtain ⟨m, unit, hm, hu⟩ := exists_compile (t := returnedIntegers) (by decide +kernel)
  obtain ⟨p, hp, hframe, i, hi, hret, hlength⟩ : ∃ p, m.procs[0]? = some p ∧
      Frame.compute p = .ok ⟨0, 0⟩ ∧ ∃ i ∈ p.instrs, i.opcode = .ret ∧ i.returned.length = 2 :=
    exists_ret hm (by decide +kernel)
  obtain ⟨c, P, hemits, rfl, hcompute, hslots, f, hfinished⟩ := exists_emits hu hp
  obtain ⟨_, _, -, -, -, -, hunit, -⟩ := hemits.function
  have hcode := CodeContext.instr_eq_codeOf hunit hfinished hi
  have hzero : P.slots = 0 := by
    rw [hslots, Except.ok.inj (hcompute.symm.trans hframe)]
  refine ⟨_, c, P, i, _, hu, hemits, hi, hret, hzero, hcode, ?_⟩
  rw [CodeContext.resultSlotsOf_ret (CodeContext.instr_of_ret hret ▸ hcode), hlength]
  decide

end Tree

end ScriptC
