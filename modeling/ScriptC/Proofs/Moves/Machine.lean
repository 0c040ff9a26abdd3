import Mathlib.Data.List.Forall2
import Mathlib.Logic.Function.Basic
import ScriptC.Code

/-! # Moves between places

The statements that lay out arguments and results, executed one by one on a memory of tagged
values. Whatever they copy is a sequence of puts, one place at a time. If no put touches what an
earlier one has written, the sequence has the effect of all puts at once, and the loop that copies a
tail always runs in such an order.
-/

namespace ScriptC

/-- A tagged value. An object is known by its identity only. -/
inductive Tagged where
  | nil
  | boolean (value : Bool)
  | integer (value : Int64)
  | float (value : Binary64)
  | object (identity : Nat)
deriving DecidableEq, Repr

/-- Where a tagged value is stored. -/
inductive Location where
  /-- A slot of the stack, counted from the base of the function. -/
  | stack (slot : Int)
  /-- A captured variable that is no longer on the stack. -/
  | cell (index : Nat)
  | constant (index : Nat)
  | scratch (index : Nat)
  | floatScratch (index : Nat)
  | kept (index : Nat)
deriving DecidableEq, Repr

abbrev Memory := Location → Tagged

section Puts

/-- A value put into a place: one at hand, or the one that a place holds. -/
structure Put where
  target : Location
  source : Tagged ⊕ Location

namespace Put

def value (μ : Memory) (m : Put) : Tagged := m.source.elim id μ

def apply (μ : Memory) (m : Put) : Memory := Function.update μ m.target (m.value μ)

/-- The put `m'` neither reads nor overwrites what `m` has written. -/
def SparedBy (m m' : Put) : Prop := m'.target ≠ m.target ∧ m'.source ≠ .inr m.target

variable {m : Put} {ms : List Put} {p : Location}

theorem foldl_apply_of_ne (h : ∀ m ∈ ms, m.target ≠ p) (μ : Memory) : ms.foldl apply μ p = μ p := by
  induction ms generalizing μ with
  | nil => rfl
  | cons m ms ih =>
    obtain ⟨hm, hms⟩ := List.forall_mem_cons.mp h
    rw [List.foldl_cons, ih hms, apply, Function.update_of_ne hm.symm]

theorem value_foldl_apply (h : ∀ m' ∈ ms, m.source ≠ .inr m'.target) (μ : Memory) :
    m.value (ms.foldl apply μ) = m.value μ := by
  obtain ⟨target, source⟩ := m
  cases source with
  | inl v => rfl
  | inr p => exact foldl_apply_of_ne (fun m' hm' he => h m' hm' (he ▸ rfl)) μ

/-- Each target ends up with what its source held before the first put. -/
theorem foldl_apply_target (h : ms.Pairwise SparedBy) (μ : Memory) :
    ∀ m ∈ ms, ms.foldl apply μ m.target = m.value μ := by
  induction ms generalizing μ with
  | nil => exact List.forall_mem_nil _
  | cons first ms ih =>
    obtain ⟨hfirst, hms⟩ := List.pairwise_cons.mp h
    rw [List.forall_mem_cons, List.foldl_cons]
    constructor
    · rw [foldl_apply_of_ne fun m' hm' => (hfirst m' hm').1, apply, Function.update_self]
    · intro m hm
      rw [ih hms _ m hm]
      have hread : ∀ m' ∈ [first], m.source ≠ .inr m'.target :=
        List.forall_mem_singleton.mpr (hfirst m hm).2
      exact value_foldl_apply hread μ

end Put

/-- In which order a loop over `n` values reaches them. -/
def Sweep.offsets (n : Nat) : Sweep → List Nat
  | none => []
  | downwards => (List.range n).reverse
  | upwards => List.range n

theorem Sweep.lt_of_mem_offsets {n j : Nat} {d : Sweep} (h : j ∈ d.offsets n) : j < n := by
  cases d with
  | none => cases h
  | downwards => simpa [offsets] using h
  | upwards => simpa [offsets] using h

/-- The loop that copies `n` values from slot `src` on to slot `dest` on. -/
def tailPuts (dest src : Int) (n : Nat) : List Put :=
  ((Sweep.between dest src).offsets n).map fun (j : Nat) =>
    ⟨.stack (dest + j), .inr (.stack (src + j))⟩

variable {dest src : Int} {n : Nat}

@[simp] theorem tailPuts_zero : tailPuts dest src 0 = [] := by
  rw [tailPuts]
  cases Sweep.between dest src <;> rfl

theorem exists_of_mem_tailPuts {m : Put} (h : m ∈ tailPuts dest src n) :
    ∃ j < n, m.target = .stack (dest + j) := by
  obtain ⟨j, hj, rfl⟩ := List.mem_map.mp h
  exact ⟨j, Sweep.lt_of_mem_offsets hj, rfl⟩

/-- The loop never reads a slot that it has written: upwards, the slots still to be read are above
it, and downwards they are below. -/
theorem pairwise_tailPuts : (tailPuts dest src n).Pairwise Put.SparedBy := by
  have hspared (j k : Nat) (hjk : j ≠ k) (hread : src + k ≠ dest + j) : Put.SparedBy
      ⟨.stack (dest + j), .inr (.stack (src + j))⟩ ⟨.stack (dest + k), .inr (.stack (src + k))⟩ := by
    constructor
    · intro he
      have := Location.stack.inj he
      omega
    · intro he
      exact hread (Location.stack.inj (Sum.inr.inj he))
  rw [tailPuts, List.pairwise_map, Sweep.between]
  split
  · exact .nil
  · split
    · rw [Sweep.offsets, List.pairwise_reverse]
      exact List.pairwise_lt_range.imp fun hlt => hspared _ _ (by omega) (by omega)
    · exact List.pairwise_lt_range.imp fun hlt => hspared _ _ (by omega) (by omega)

/-- However the two areas overlap, the values arrive as they were. -/
theorem foldl_tailPuts (μ : Memory) {j : Nat} (hj : j < n) :
    (tailPuts dest src n).foldl Put.apply μ (.stack (dest + j)) = μ (.stack (src + j)) := by
  by_cases he : dest = src
  · simp [tailPuts, Sweep.between, Sweep.offsets, he]
  · apply Put.foldl_apply_target pairwise_tailPuts μ ⟨.stack (dest + j), .inr (.stack (src + j))⟩
    apply List.mem_map.mpr ⟨j, ?_, rfl⟩
    rw [Sweep.between, if_neg he]
    split <;> simpa [Sweep.offsets] using hj

end Puts

section Execution

/-- What moves may touch. -/
structure CodeState where
  memory : Memory
  ints : Nat → Int64
  floats : Nat → Binary64
  /-- The slot of a captured variable that is still on the stack, or its cell. -/
  upvalues : Nat → Int ⊕ Nat
  /-- The slot above the last value on the stack. -/
  top : Int
  results : Int := 0
  /-- The slot of the function being called, in the block that calls it. -/
  callee : Option Nat := none
  /-- How many values a block can set aside. -/
  room : Nat := 0
  /-- How many values the tail was found to have. -/
  tail : Option Int := none

/-- How control leaves a statement. -/
inductive Exit where
  | falls (s : CodeState)
  | jumps (block : Nat) (s : CodeState)
  /-- The function in slot `func` is called. -/
  | calls (func : Nat) (expected : Int64) (s : CodeState)

/-- What a block has declared ends with it. -/
def CodeState.leave (outer s : CodeState) : CodeState :=
  { s with callee := outer.callee, room := outer.room, tail := outer.tail }

def Exit.leave (outer : CodeState) : Exit → Exit
  | falls s => falls (outer.leave s)
  | jumps b s => jumps b (outer.leave s)
  | calls func expected s => calls func expected (outer.leave s)

def CodeState.upvalue (s : CodeState) (index : Nat) : Location := (s.upvalues index).elim .stack .cell

def Address.location? (s : CodeState) : Address → Option Location
  | slot n => some (.stack n)
  | upvalue n => some (s.upvalue n)
  | constant n => some (.constant n)
  | scratch n => some (.scratch n)
  | floatScratch n => some (.floatScratch n)
  | kept n => if n < s.room then some (.kept n) else none
  | argument n => s.callee.map fun (func : Nat) => .stack (func + n)
  | result n => some (.stack (n - 1))

/-- Constants are never written. -/
def Location.IsWritable (p : Location) : Prop := ∀ k, p ≠ constant k

def CodeState.put? (s : CodeState) (a : Address) (source : Tagged ⊕ Location) : Option Exit :=
  match a.location? s with
  | none | some (.constant _) => none
  | some p => some (.falls { s with memory := Put.apply s.memory ⟨p, source⟩ })

theorem Address.location?_memory (a : Address) (s : CodeState) (μ : Memory) :
    a.location? { s with memory := μ } = a.location? s := by
  cases a <;> rfl

theorem CodeState.put?_eq {s : CodeState} {a : Address} {p : Location} (hp : a.location? s = some p)
    (hw : p.IsWritable) (source : Tagged ⊕ Location) (μ : Memory) :
    CodeState.put? { s with memory := μ } a source =
      some (.falls { s with memory := Put.apply μ ⟨p, source⟩ }) := by
  rw [put?, Address.location?_memory, hp]
  cases p with
  | constant k => exact absurd rfl (hw k)
  | _ => rfl

/-- The value of an expression that reads one variable or none. -/
def IntExpr.value? (s : CodeState) : IntExpr → Option Int64
  | var (.temp r) => some (s.ints r)
  | literal n => some n
  | _ => none

def FloatExpr.value? (s : CodeState) : FloatExpr → Option Binary64
  | var (.temp r) => some (s.floats r)
  | literal x => some x
  | _ => none

/-- How many values are added for the tail, if it was counted when there is one. -/
def tailLength? (count : Option Int) (hasTail : Bool) : Option Int :=
  if hasTail then count else some 0

namespace Code

mutual

/-- Execute a statement that lays out arguments or results. No other is executed. -/
def run : Code → CodeState → Option Exit
  | .goto b, s => some (.jumps b s)
  | .storeInt a x, s => (x.value? s).bind fun n => s.put? a (.inl (.integer n))
  | .storeFloat a x, s => (x.value? s).bind fun v => s.put? a (.inl (.float v))
  | .storeBool a (.constant b), s => s.put? a (.inl (.boolean b))
  | .storeNil a, s => s.put? a (.inl .nil)
  | .copy dest src, s => (src.location? s).bind fun p => s.put? dest (.inr p)
  | .keep n, s => some (.falls { s with room := n })
  | .countTail slot, s => some (.falls { s with tail := some (s.top - slot) })
  | .copyTail dest src, s => s.tail.map fun n =>
    .falls { s with memory := (tailPuts dest src n.toNat).foldl Put.apply s.memory }
  | .setResults n hasTail, s => (tailLength? s.tail hasTail).map fun k =>
    .falls { s with results := n + k }
  | .setCallee slot, s => some (.falls { s with callee := some slot })
  | .setTop n hasTail, s => s.callee.bind fun func => (tailLength? s.tail hasTail).map fun k =>
    .falls { s with top := func + n + k }
  | .call expected, s => s.callee.map fun func => .calls func expected s
  | .scope body, s => (runAll body s).map (·.leave s)
  | _, _ => none

/-- Execute statements until control leaves them. -/
def runAll : List Code → CodeState → Option Exit
  | [], s => some (.falls s)
  | st :: rest, s =>
    match st.run s with
    | some (.falls s) => runAll rest s
    | exit => exit

end

/-- Whatever the memory holds, the statement performs the put. -/
def Performs (s : CodeState) (st : Code) (m : Put) : Prop :=
  ∀ μ, st.run { s with memory := μ } = some (.falls { s with memory := m.apply μ })

variable {s : CodeState} {st : Code} {sts rest : List Code}

theorem runAll_cons {s' : CodeState} (h : st.run s = some (.falls s')) :
    runAll (st :: rest) s = runAll rest s' := by
  rw [runAll, h]

theorem run_setResults {n : Nat} {hasTail : Bool} {k : Int} (h : tailLength? s.tail hasTail = some k) :
    run (.setResults n hasTail) s = some (.falls { s with results := n + k }) := by
  rw [run, h]
  rfl

theorem run_setTop {n func : Nat} {hasTail : Bool} {k : Int} (hfunc : s.callee = some func)
    (h : tailLength? s.tail hasTail = some k) :
    run (.setTop n hasTail) s = some (.falls { s with top := func + n + k }) := by
  rw [run, hfunc, h]
  rfl

theorem runAll_scope : runAll [.scope sts] s = (runAll sts s).map (·.leave s) := by
  rw [runAll, run]
  rcases runAll sts s with - | (_ | _ | _) <;> rfl

theorem runAll_performs {ms : List Put} (h : List.Forall₂ (Performs s) sts ms) (μ : Memory) :
    runAll (sts ++ rest) { s with memory := μ } =
      runAll rest { s with memory := ms.foldl Put.apply μ } := by
  induction h generalizing μ with
  | nil => rfl
  | cons hst _ ih =>
    rw [List.cons_append, runAll_cons (hst μ), ih]
    rfl

end Code

end Execution

end ScriptC
