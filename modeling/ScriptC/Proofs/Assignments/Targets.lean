import ScriptC.Proofs.Assignments.Retention
import ScriptC.Proofs.Calls.Statements

/-! # Targets of assignments

A target is a variable, or a global or an element that is loaded. The loads stay where they are until
the values have been evaluated.
-/

namespace ScriptC

section Hazards

/-- What an instruction reads and writes. -/
structure Access where
  reads : List Operand := []
  writes : List Operand := []

def Proc.access (p : Proc) (i : Nat) : Access :=
  match p.instrs[i]? with
  | some instr => ⟨instr.operands, instr.targets⟩
  | none => {}

/-- A variable is written of which the other instruction reads the value. -/
def Access.Overwrites (a b : Access) : Prop :=
  ∃ t ∈ a.writes, t.isVariable = true ∧ ∃ o ∈ b.reads, t.sameStorage o = true

/-- The value that a move or a store reads last is overwritten. -/
def Access.OverwritesValue (a b : Access) : Prop :=
  ∃ t ∈ a.writes, t.isVariable = true ∧ ∃ o ∈ b.reads.getLast?, t.sameStorage o = true

namespace Lower

/-- The load that an assignment turns into a store. -/
def Target.load? : Target → Option Nat
  | .variable _ => none
  | .element load _ _ => some load

/-- A target is the variable in which the container or the key of another one is found. -/
def Target.Clobbers : Target → Target → Prop
  | .variable dest, .element _ _ held => ∃ o ∈ held, dest.sameStorage o = true
  | _, _ => False

/-- The target is a variable, or its load can become a store and reads the container and the key. -/
def Target.ReadsIn (code : Array Instr) : Target → Prop
  | .variable dest => dest.isVariable = true
  | .element load _ held => ∃ instr store, code[load]? = some instr ∧
      instr.opcode.storeCounterpart? = some store ∧
      instr.operands.filterMap Operand.storage = held.filterMap Operand.storage

end Lower

theorem Operand.sameStorage_iff {a b : Operand} :
    a.sameStorage b = Bool.true ↔ ∃ x, a.storage = some x ∧ b.storage = some x := by
  simp only [sameStorage, Bool.and_eq_true, beq_iff_eq, Option.isSome_iff_exists]
  constructor
  · rintro ⟨⟨x, hx⟩, h⟩
    exact ⟨x, hx, h ▸ hx⟩
  · rintro ⟨x, ha, hb⟩
    exact ⟨⟨x, ha⟩, ha.trans hb.symm⟩

/-- Variables lie in spaces of their own. -/
theorem Operand.not_sameStorage {a b : Operand} (ha : a.isVariable = Bool.true)
    (hb : b.isVariable = Bool.false) : ¬ ∃ x, a.storage = some x ∧ b.storage = some x := by
  rintro ⟨x, hax, hbx⟩
  rcases a with (_ | _ | _) | _ | _ | _ | _ | _ | _ | _ | _ | _ | _ | _ <;> cases ha <;> cases hax <;>
    rcases b with (_ | _ | _) | _ | _ | _ | _ | _ | _ | _ | _ | _ | _ | _ <;> cases hb <;> cases hbx

theorem Operand.exists_sameStorage_iff {t : Operand} {os : List Operand} :
    (∃ o ∈ os, t.sameStorage o = Bool.true) ↔
      ∃ x, t.storage = some x ∧ x ∈ os.filterMap Operand.storage := by
  simp only [sameStorage_iff, List.mem_filterMap]
  constructor
  · rintro ⟨o, ho, x, ht, hx⟩
    exact ⟨x, ht, o, ho, hx⟩
  · rintro ⟨x, ht, o, ho, hx⟩
    exact ⟨o, ho, x, ht, hx⟩

end Hazards

namespace Lower

variable {s : LoweringState} {code : Array Instr}

section Targets

variable (symbols : SymbolTable)

/-- The target is what the expression stands for: a variable, or the load of a global or an element
in `p`. -/
inductive Target.Denotes (p : Proc) : Expr → Target → Prop where
  | localVar {ty : Ty} {id : SymbolId} {sym : Symbol} {f : FunctionId} {reg : Nat}
    (hs : symbols.get? id = some sym) (hk : sym.kind = .localOf f) :
    Denotes p ⟨ty, .symbol id⟩ (.variable (.symbol (.localVar sym.name reg sym.ty.tag)))
  | upvalue {ty : Ty} {id target : SymbolId} {sym : Symbol} {index : UInt32}
    (hs : symbols.get? id = some sym) (hk : sym.kind = .upvalue target index) :
    Denotes p ⟨ty, .symbol id⟩ (.variable (.symbol (.upvalue sym.name index.toNat sym.ty.tag)))
  | global {ty : Ty} {id : SymbolId} {sym : Symbol} {load b : Nat} {result key : Operand}
    (hs : symbols.get? id = some sym) (hk : sym.kind = .global)
    (hc : p.constant? key = some (.string sym.name))
    (hi : p.instrs[load]? =
      some ⟨.loadGlobal, [.symbol (.globalVar sym.name), key], [result], b⟩) :
    Denotes p ⟨ty, .symbol id⟩ (.element load result [])
  | element {ty : Ty} {object key : Expr} {load b : Nat} {result container k : Operand}
    {c : KeyClass} (ho : Gave (fun _ => True) (one (ofExpr symbols object)) container)
    (hk : Gave (fun _ => True) (one (ofExpr symbols key)) k)
    (hc : Gave (fun _ => True) (keyClass k key.ty) c)
    (hi : p.instrs[load]? =
      some ⟨(Selection.load object.ty c).opcode, [container, k], [result], b⟩) :
    Denotes p ⟨ty, .index object key⟩ (.element load result [container, k])

variable {symbols}

theorem Target.Denotes.readsIn {p : Proc} {e : Expr} {t : Target} (h : t.Denotes symbols p e) :
    t.ReadsIn p.instrs := by
  cases h with
  | localVar => rfl
  | upvalue => rfl
  | global hs hk hc hi =>
    refine ⟨_, .storeGlobal, hi, rfl, ?_⟩
    rename_i key
    cases key <;> first | rfl | cases hc
  | element ho hk hc hi =>
    obtain ⟨store, hstore⟩ := Selection.load_storeCounterpart? _ _
    exact ⟨_, store, hi, hstore, rfl⟩

theorem ends_loadGlobal_instr (name : String) (s : LoweringState) :
    Ends (loadGlobal name) s (fun r s' => ∃ key b,
      s'.fn.proc.constant? key = some (.string name) ∧ s'.fn.proc.instrs[r.2]? =
        some ⟨.loadGlobal, [.symbol (.globalVar name), key], [r.1], b⟩) fun _ _ => True := by
  have hkey : Ends (stringConstant name) s
      (fun key s' => s'.fn.proc.constant? key = some (.string name)) fun _ _ => True := by
    simp only [stringConstant, constant, ends_bind, ends_onProc]
    split <;> exact ConstantPool.get?_intern _ _
  simp only [loadGlobal, ends_bind]
  refine hkey.imp fun key s₁ h₁ => ?_
  rw [allocTemp, ends_onProc]
  refine (ends_emitId_fresh _ _ _ _).imp ?_
  rintro load s₂ ⟨hconst, b, hb⟩
  refine ⟨key, b, ?_, hb⟩
  have hc : s₂.fn.proc.constants = s₁.fn.proc.constants :=
    hconst.trans Proc.sameCode_allocTemp.constants
  rw [← h₁]
  cases key <;> simp [Proc.constant?, hc]

theorem ends_symbolTarget_denotes (ty : Ty) (id : SymbolId) (s : LoweringState) :
    Ends (symbolTarget symbols id) s
      (fun t s' => t.Denotes symbols s'.fn.proc ⟨ty, .symbol id⟩) fun _ _ => True := by
  unfold symbolTarget readSymbol symbol
  cases hs : symbols.get? id with
  | none => trivial
  | some sym =>
    simp only [pure_bind]
    cases hk : sym.kind with
    | global =>
      rw [ends_bind]
      refine (ends_loadGlobal_instr sym.name s).imp ?_
      rintro ⟨result, load⟩ s₁ ⟨key, b, hc, hi⟩
      exact .global hs hk hc hi
    | localOf f =>
      simp only [ends_bind, lookupLocal, ends_get, ends_pure]
      split
      · exact .localVar hs hk
      · trivial
    | upvalue target index => exact .upvalue hs hk

theorem ends_indexTarget_denotes (ty : Ty) (object key : Expr) (s : LoweringState) :
    Ends (indexTarget (ofExpr symbols object) (ofExpr symbols key)) s
      (fun t s' => t.Denotes symbols s'.fn.proc ⟨ty, .index object key⟩) fun _ _ => True := by
  simp only [indexTarget, ofExpr_ty, ends_bind]
  refine (ends_run _ s).imp fun container s₁ h₁ => ?_
  refine (ends_run _ s₁).imp fun k s₂ h₂ => ?_
  refine (ends_run _ s₂).imp fun c s₃ h₃ => ?_
  rw [allocTemp, ends_onProc]
  refine (ends_emitId_fresh _ _ _ _).imp ?_
  rintro load s₄ ⟨-, b, hb⟩
  exact .element ⟨s, s₁, h₁, trivial⟩ ⟨s₁, s₂, h₂, trivial⟩ ⟨s₂, s₃, h₃, trivial⟩ hb

theorem ends_ofTarget_denotes (e : Expr) (s : LoweringState) :
    Ends (ofTarget symbols e) s (fun t s' => t.Denotes symbols s'.fn.proc e) fun _ _ => True := by
  obtain ⟨ty, kind⟩ := e
  cases kind with
  | symbol id => exact ends_symbolTarget_denotes ty id s
  | index object key => exact ends_indexTarget_denotes ty object key s
  | _ => trivial

end Targets

section Operands

theorem Target.ReadsIn.retained {t : Target} {code' : Array Instr} (h : t.ReadsIn code)
    (hr : ∀ (i : Nat) (instr : Instr), code[i]? = some instr → code'[i]? = some instr) : t.ReadsIn code' := by
  rcases t with dest | ⟨load, result, held⟩
  · exact h
  · obtain ⟨instr, store, hi, ho⟩ := h
    exact ⟨instr, store, hr load instr hi, ho⟩

/-- The target was evaluated after `code`, and what it reads is known. -/
def Target.LoadedAfter (code : Array Instr) (t : Target) (s : LoweringState) : Prop :=
  s.Retains code ∧ t.ReadsIn s.fn.proc.instrs ∧ ∀ load ∈ t.load?, code.size ≤ load

theorem ends_ofTarget_loaded (symbols : SymbolTable) (e : Expr) (h : s.Retains code) :
    Ends (ofTarget symbols e) s (Target.LoadedAfter code) fun _ _ => True := by
  have hretains := ((lawful_retention code symbols).ofTarget (t := e) (i := ()) trivial
    fun _ object key _ => ⟨evaluates_retention code symbols object,
      evaluates_retention code symbols key⟩).keeps h
  refine ((ends_ofTarget_denotes e s).and hretains).mono ?_ fun _ _ h' => h'.1
  rintro t s' ⟨hdenotes, hs', haims⟩
  refine ⟨hs', hdenotes.readsIn, fun load hl => ?_⟩
  obtain dest | ⟨_, result, held⟩ := t
  · cases hl
  · cases hl
    exact haims.1

theorem Target.ReadsIn.load_lt {t : Target} {load : Nat} (h : t.ReadsIn code)
    (hl : t.load? = some load) : load < code.size := by
  rcases t with dest | ⟨_, result, held⟩
  · cases hl
  · cases hl
    obtain ⟨instr, -, hi, -⟩ := h
    exact (Array.getElem?_eq_some_iff.mp hi).1

/-- The loads of the targets come one after the other. -/
theorem ends_targets_loaded (symbols : SymbolTable) (es : List Expr) (h : s.Retains code) :
    Ends ((ofTargets symbols es).mapM id) s
      (fun ts s' => s'.Retains code ∧ (∀ t ∈ ts, t.ReadsIn s'.fn.proc.instrs) ∧
        (ts.filterMap Target.load?).Nodup ∧ ∀ load ∈ ts.filterMap Target.load?, code.size ≤ load)
      fun _ _ => True := by
  induction es generalizing s code with
  | nil => exact ⟨h, by simp, by simp, by simp⟩
  | cons e es ih =>
    rw [ofTargets, List.mapM_cons, ends_bind]
    refine (ends_ofTarget_loaded symbols e h).imp ?_
    rintro t s₁ ⟨h₁, hreads, hload⟩
    rw [ends_bind]
    refine (ih (.refl s₁)).imp ?_
    rintro ts s₂ ⟨h₂, hall, hnodup, hloads⟩
    refine ⟨h₁.trans h₂, ?_, ?_, ?_⟩
    · rw [List.forall_mem_cons]
      exact ⟨hreads.retained fun i instr hi => h₂.getElem?_eq_some hi, hall⟩
    · cases hl : t.load? with
      | none => rwa [List.filterMap_cons_none hl]
      | some load =>
        rw [List.filterMap_cons_some hl, List.nodup_cons]
        refine ⟨fun hmem => ?_, hnodup⟩
        have := hloads load hmem
        have := hreads.load_lt hl
        omega
    · intro load hmem
      rw [List.mem_filterMap] at hmem
      obtain ⟨u, hu, hlu⟩ := hmem
      rcases List.mem_cons.mp hu with rfl | hu
      · exact hload load hlu
      · exact Nat.le_trans h₁.size_le (hloads load (List.mem_filterMap.mpr ⟨u, hu, hlu⟩))

end Operands

end Lower

end ScriptC
