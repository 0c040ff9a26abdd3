import ScriptC.Proofs.Blocks.Discipline
import ScriptC.Proofs.Evaluation.Source

/-! # Runs of procs

A machine executes the instructions of a proc that compute, move and branch. The specialised form
of an opcode demands integers, and makes of them what the generic form makes. Code that is appended
to a proc does not change the runs it had before.
-/

namespace ScriptC

/-- The contents of all registers. -/
structure Store where
  locals : Nat → Datum
  ints : Nat → Int64
  floats : Nat → Binary64
  anys : Nat → Datum

namespace Store

/-- Both stores hold the same in a temporary. -/
def SameTemp (st st' : Store) (kind : TempKind) (r : Nat) : Prop :=
  match kind with
  | .int => st'.ints r = st.ints r
  | .float => st'.floats r = st.floats r
  | .any => st'.anys r = st.anys r

theorem SameTemp.refl (st : Store) (kind : TempKind) (r : Nat) : st.SameTemp st kind r := by
  cases kind <;> rfl

theorem SameTemp.trans {st st' st'' : Store} {kind : TempKind} {r : Nat}
    (h : st.SameTemp st' kind r) (h' : st'.SameTemp st'' kind r) : st.SameTemp st'' kind r := by
  cases kind <;> exact Eq.trans h' h

/-- Put a value in a register. A native one takes only integers. -/
def write (st : Store) (dest : Operand) (v : Datum) : Option Store :=
  match dest, v with
  | .symbol (.localVar _ r _), v => some { st with locals := Function.update st.locals r v }
  | .tempInt r, .int n => some { st with ints := Function.update st.ints r n }
  | .tempAny r, v => some { st with anys := Function.update st.anys r v }
  | _, _ => none

end Store

/-- The value of an operand. -/
def Proc.read (p : Proc) (st : Store) : Operand → Option Datum
  | .symbol (.localVar _ r _) => some (st.locals r)
  | .tempInt r => some (.int (st.ints r))
  | .tempAny r => some (st.anys r)
  | .constant k =>
    match p.constants.get? k with
    | some (.integer n) => some (.int n)
    | _ => none
  | .nil => some .nil
  | .true => some (.bool true)
  | .false => some (.bool false)
  | _ => none

/-- The value may be put in a temporary of this pool. -/
def TempKind.takes : TempKind → Datum → Bool
  | .int, v => v.isInt
  | .float, _ => false
  | .any, _ => true

/-- A temporary that takes a value has it afterwards, and nothing else changes. -/
theorem Store.write_temp {st : Store} {kind : TempKind} {r : Nat} {v : Datum}
    (h : kind.takes v = true) :
    ∃ st', st.write (.temp kind r) v = some st' ∧
      (∀ p : Proc, p.read st' (.temp kind r) = some v) ∧ st'.locals = st.locals ∧
        ∀ k x, (k, x) ≠ (kind, r) → st.SameTemp st' k x := by
  cases kind with
  | int =>
    obtain ⟨n, rfl⟩ := Datum.isInt_iff.mp h
    refine ⟨_, rfl, fun p => by simp [Operand.temp, Proc.read], rfl, fun k x hx => ?_⟩
    cases k with
    | int => exact Function.update_of_ne (fun he => hx (by rw [he])) _ _
    | _ => rfl
  | float => cases h
  | any =>
    refine ⟨_, rfl, fun p => by simp [Operand.temp, Proc.read], rfl, fun k x hx => ?_⟩
    cases k with
    | any => exact Function.update_of_ne (fun he => hx (by rw [he])) _ _
    | _ => rfl

namespace Opcode

/-- The operator that an opcode applies to its operand. -/
def unaryOp? : Opcode → Option UnaryOp
  | unm | unmI => some .neg
  | not => some .not
  | _ => none

/-- The operator that an opcode applies to its operands. -/
def binaryOp? : Opcode → Option BinaryOp
  | add | addII => some .add
  | sub | subII => some .sub
  | mul | mulII => some .mul
  | band | bandII => some .band
  | bor | borII => some .bor
  | bxor | bxorII => some .bxor
  | shl | shlII => some .shl
  | shr | shrII => some .shr
  | eq | eqII => some .eq
  | lt | ltII => some .lt
  | le | leII => some .le
  | _ => none

/-- The opcode is specialised to integers. -/
def wantsInts : Opcode → Bool
  | addII | subII | mulII | bandII | borII | bxorII | shlII | shrII | eqII | ltII | leII | unmI =>
    true
  | _ => false

/-- What an opcode makes of the values of its operands. -/
def compute? (opcode : Opcode) (vs : List Datum) : Option (Traced Event Datum) :=
  if opcode.wantsInts && !vs.all (·.isInt) then none
  else
    match opcode, vs with
    | mov, [v] => some (v, [])
    | opcode, [v] => do
      let op ← opcode.unaryOp?
      return (← op.apply v, [.unary op v])
    | opcode, [x, y] => do
      let op ← opcode.binaryOp?
      return (← op.apply x y, [.binary op x y])
    | _, _ => none

/-- Branches compute nothing. -/
theorem ne_of_compute? {opcode : Opcode} {vs : List Datum} {result : Traced Event Datum}
    (h : opcode.compute? vs = some result) : opcode ≠ br ∧ opcode ≠ cbr := by
  constructor
  all_goals
    rintro rfl
    unfold compute? at h
    split at h
    · cases h
    · split at h <;> contradiction

end Opcode

/-- A machine before the instruction at `position` of `block`. -/
structure Machine where
  block : Nat
  position : Nat
  store : Store

def Machine.next (m : Machine) (store : Store) : Machine := ⟨m.block, m.position + 1, store⟩

namespace Proc

/-- Execute one instruction. -/
def execute (p : Proc) (m : Machine) (i : Instr) : Option (Traced Event Machine) :=
  match i.opcode with
  | .br =>
    match i.targets with
    | [.block b] => some (⟨b, 0, m.store⟩, [])
    | _ => none
  | .cbr =>
    match i.operands, i.targets with
    | [o], [.block a, .block b] => do
      let v ← p.read m.store o
      return (⟨if v.isTrue then a else b, 0, m.store⟩, [.test v])
    | _, _ => none
  | opcode =>
    match i.targets with
    | [dest] => do
      let (v, trace) ← opcode.compute? (← i.operands.mapM (p.read m.store))
      return (m.next (← m.store.write dest v), trace)
    | _ => none

theorem execute_computed {p : Proc} {m : Machine} {opcode : Opcode} {os : List Operand} {b : Nat}
    {dest : Operand} {vs : List Datum} {v : Datum} {trace : List Event} {st : Store}
    (h : opcode.compute? vs = some (v, trace)) (hr : os.mapM (p.read m.store) = some vs)
    (hw : m.store.write dest v = some st) :
    p.execute m ⟨opcode, os, [dest], b⟩ = some (m.next st, trace) := by
  obtain ⟨hb, hc⟩ := Opcode.ne_of_compute? h
  unfold execute
  split
  · contradiction
  · contradiction
  · simp [hr, h, hw]

def step (p : Proc) (m : Machine) : Option (Traced Event Machine) := do
  p.execute m (← p.instrAt? m.block m.position)

/-- More code and more constants, in new blocks or at the end of those there were. -/
structure Extends (p q : Proc) : Prop where
  ids : ∀ b, p.ids b <+: q.ids b
  instrs : ∀ (i : Nat) (instr : Instr), p.instrs[i]? = some instr → q.instrs[i]? = some instr
  constants : ∀ (k : Nat) (c : Constant), p.constants.get? k = some c →
    q.constants.get? k = some c

namespace Extends

variable {p q r : Proc} {m m' : Machine} {st : Store} {o : Operand} {v : Datum}
  {trace : List Event}

theorem refl (p : Proc) : p.Extends p where
  ids _ := List.prefix_rfl
  instrs _ _ h := h
  constants _ _ h := h

theorem trans (h : p.Extends q) (h' : q.Extends r) : p.Extends r where
  ids b := (h.ids b).trans (h'.ids b)
  instrs i instr hi := h'.instrs i instr (h.instrs i instr hi)
  constants k c hk := h'.constants k c (h.constants k c hk)

theorem getElem?_ids (h : p.Extends q) {b k i : Nat} (hi : (p.ids b)[k]? = some i) :
    (q.ids b)[k]? = some i := by
  obtain ⟨later, hl⟩ := h.ids b
  rw [← hl, List.getElem?_append_left (List.getElem?_eq_some_iff.mp hi).1, hi]

theorem instrAt? (h : p.Extends q) {b k : Nat} {i : Instr} (hi : p.instrAt? b k = some i) :
    q.instrAt? b k = some i := by
  obtain ⟨id, hid, hi⟩ := Option.bind_eq_some_iff.mp hi
  exact Option.bind_eq_some_iff.mpr ⟨id, h.getElem?_ids hid, h.instrs id i hi⟩

theorem read (h : p.Extends q) (hr : p.read st o = some v) : q.read st o = some v := by
  cases o with
  | constant k =>
    simp only [Proc.read] at hr ⊢
    cases hk : p.constants.get? k with
    | none => simp [hk] at hr
    | some c => rwa [h.constants k c hk, ← hk]
  | symbol ref => cases ref <;> exact hr
  | _ => exact hr

theorem mapM_read (h : p.Extends q) {os : List Operand} {vs : List Datum}
    (hr : os.mapM (p.read st) = some vs) : os.mapM (q.read st) = some vs := by
  induction os generalizing vs with
  | nil => simpa using hr
  | cons o os ih =>
    simp only [List.mapM_cons, Option.bind_eq_bind, Option.bind_eq_some_iff, Option.pure_def,
      Option.some.injEq] at hr ⊢
    obtain ⟨v, hv, ws, hws, rfl⟩ := hr
    exact ⟨v, h.read hv, ws, ih hws, rfl⟩

theorem execute (h : p.Extends q) {i : Instr} (he : p.execute m i = some (m', trace)) :
    q.execute m i = some (m', trace) := by
  unfold Proc.execute at he ⊢
  split at he
  · exact he
  · split at he
    · obtain ⟨v, hv, he⟩ := Option.bind_eq_some_iff.mp he
      exact Option.bind_eq_some_iff.mpr ⟨v, h.read hv, he⟩
    · exact he
  · split at he
    · obtain ⟨vs, hvs, he⟩ := Option.bind_eq_some_iff.mp he
      exact Option.bind_eq_some_iff.mpr ⟨vs, h.mapM_read hvs, he⟩
    · exact he

theorem step (h : p.Extends q) (hs : p.step m = some (m', trace)) :
    q.step m = some (m', trace) := by
  obtain ⟨i, hi, he⟩ := Option.bind_eq_some_iff.mp hs
  exact Option.bind_eq_some_iff.mpr ⟨i, h.instrAt? hi, h.execute he⟩

theorem reaches (h : p.Extends q) (hr : Reaches p.step m trace m') : Reaches q.step m trace m' :=
  hr.mono fun _ _ _ => h.step

end Extends

end Proc

end ScriptC
