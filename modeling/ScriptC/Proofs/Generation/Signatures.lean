import Mathlib.Data.List.Forall2
import ScriptC.Code.Control
import ScriptC.Lowering.State

/-! # Signatures of opcodes

An opcode asks for operands of certain forms and writes a result of a certain kind. An instruction
is admitted in a proc if its operands are what its opcode asks for. The proc may go on growing: its
constants keep their positions, and registers stay registers.
-/

namespace ScriptC

/-- What an operand is to the code of its proc. -/
inductive Form where
  | int
  | float
  | string
  /-- A tagged value that has an address and can be written. -/
  | slot
  | nil
  | boolean
deriving DecidableEq, Repr

def Constant.form : Constant → Form
  | integer _ => .int
  | number _ => .float
  | string _ => .string

/-- What an instruction asks of an operand. -/
inductive Demand where
  | value
  | int
  | float
  | address
  | stringKey
  /-- The operand is there for listings only. -/
  | nothing
deriving DecidableEq, Repr

def Form.meets : Form → Demand → Bool
  | _, .value | _, .nothing => true
  | .int, .int | .slot, .int => true
  | .int, .float | .float, .float | .slot, .float => true
  | .slot, .address | .string, .address => true
  | .string, .stringKey => true
  | _, _ => false

/-- What meets the first demand meets the second. -/
def Demand.covers (d e : Demand) : Bool :=
  d = e || (d ≠ .nothing && e = .value) || (d = .int && e = .float)

theorem Form.meets_of_covers {φ : Form} {d e : Demand} (hd : d ≠ .nothing)
    (h : d.covers e = true) (hm : φ.meets d = true) : φ.meets e = true := by
  cases d with
  | nothing => exact absurd rfl hd
  | int => cases φ <;> cases e <;> first | rfl | exact hm | exact h
  | _ => cases e <;> first | rfl | exact hm | cases h

namespace Proc

variable (p : Proc)

/-- The form of an operand that has a value. Registers are those of the proc. -/
def form? : Operand → Option Form
  | .tempInt _ => some .int
  | .tempFloat _ => some .float
  | .nil => some .nil
  | .true | .false => some .boolean
  | .constant k => (p.constants.get? k).map Constant.form
  | .symbol (.localVar _ reg _) => if reg < p.numLocals then some .slot else none
  | .symbol (.upvalue _ _ _) => some .slot
  | .tempAny r | .select r _ => if r < p.maxTemps .any then some .slot else none
  | _ => none

def Gives (d : Demand) (o : Operand) : Prop :=
  d = .nothing ∨ ∃ φ, p.form? o = some φ ∧ φ.meets d = true

/-- A result of this kind can be written to the operand. -/
def Accepts (kind : TempKind) (o : Operand) : Prop :=
  p.form? o = some .slot ∨ kind ≠ .any ∧ ∃ r, o = .temp kind r

/-- Arguments or results: values, after which the results of a call may follow whose number is only
known at run time. -/
def Lists (os : List Operand) : Prop :=
  ∃ fixed tail, os = fixed ++ tail ∧ (∀ o ∈ fixed, p.Gives .value (CodeContext.narrowed o)) ∧
    (tail = [] ∨ ∃ base, base < p.maxTemps .any ∧ tail = [.range base (-1)])

end Proc

/-- What the opcode reads, and the pool of its result if it has one. -/
structure Signature where
  reads : List Demand
  writes : Option TempKind
deriving DecidableEq, Repr

/-- The signature of an opcode with a fixed number of operands. Those of calls, returns and
closures are told apart from their forms alone. -/
def Opcode.signature : Opcode → Option Signature
  | br => some ⟨[], none⟩
  | cbr => some ⟨[.value], none⟩
  | ret | call | closure => none
  | mov => some ⟨[.value], some .any⟩
  | movI => some ⟨[.int], some .int⟩
  | movF | movIF => some ⟨[.float], some .float⟩
  | movFI => some ⟨[.float], some .int⟩
  | newTable | newIArray | newFArray => some ⟨[], some .any⟩
  | addII | subII | mulII | bandII | borII | bxorII | shlII | shrII =>
    some ⟨[.int, .int], some .int⟩
  | addFF | addIF | subFF | subFI | subIF | mulFF | mulIF | divFF | divFI | divIF | divII =>
    some ⟨[.float, .float], some .float⟩
  | eqII | ltII | leII => some ⟨[.int, .int], some .any⟩
  | eqFF | ltFF | leFF => some ⟨[.float, .float], some .any⟩
  | add | sub | mul | div | idiv | mod | pow | concat | band | bor | bxor | shl | shr
  | eq | lt | le => some ⟨[.value, .value], some .any⟩
  | unmI => some ⟨[.int], some .int⟩
  | unmF => some ⟨[.float], some .float⟩
  | lenI => some ⟨[.address], some .int⟩
  | toInt => some ⟨[.value], some .int⟩
  | toFlt => some ⟨[.value], some .float⟩
  | not | len | unm | bnot | toIArray | toFArray | toTable | toString | toClosure =>
    some ⟨[.value], some .any⟩
  | loadGlobal => some ⟨[.nothing, .stringKey], some .any⟩
  | get | tableGet => some ⟨[.value, .value], some .any⟩
  | getIK | tableGetIK => some ⟨[.value, .int], some .any⟩
  | getSK | tableGetSK => some ⟨[.value, .stringKey], some .any⟩
  | iarrayGet => some ⟨[.value, .int], some .int⟩
  | farrayGet => some ⟨[.value, .int], some .float⟩
  | storeGlobal => some ⟨[.nothing, .stringKey, .value], none⟩
  | put | tableSet => some ⟨[.value, .value, .value], none⟩
  | putIK | tableSetIK | iarraySet | farraySet => some ⟨[.value, .int, .value], none⟩
  | putSK | tableSetSK => some ⟨[.value, .stringKey, .value], none⟩

/-- A proc in its module. -/
structure Site where
  proc : Proc
  module : Module

namespace Site

/-- The module has a proc of this number that is a child of the proc at hand. -/
def HasChild (f : Site) (child : Nat) : Prop :=
  ∃ q, f.module.procs[child]? = some q ∧ q.parent = some f.proc.id

/-- An instruction whose operands and targets are what its opcode asks for. The blocks that a branch
leads to are a matter of their own. -/
inductive Admits (f : Site) : Opcode → List Operand → List Operand → Prop where
  | plain {opcode : Opcode} {sig : Signature} {operands targets : List Operand}
      (signature : opcode.signature = some sig)
      (reads : List.Forall₂ f.proc.Gives sig.reads operands)
      (writes : ∀ kind ∈ sig.writes, ∃ t, targets = [t] ∧ f.proc.Accepts kind t) :
      Admits f opcode operands targets
  | ret {operands targets : List Operand} (results : f.proc.Lists operands) :
      Admits f .ret operands targets
  | call {base : Nat} {args : List Operand} {result count : Operand} {n : Int64}
      (callee : base < f.proc.maxTemps .any) (passed : f.proc.Lists args)
      (expected : f.proc.constant? count = some (.integer n)) :
      Admits f .call (.tempAny base :: args) [result, count]
  | closure {child : Nat} {target : Operand} (nested : f.HasChild child)
      (writes : f.proc.Accepts .any target) : Admits f .closure [.proc child] [target]

end Site

section Growth

/-- Every proc keeps its number and its parent. -/
def Module.GrowsTo (m n : Module) : Prop :=
  ∀ (i : Nat) (q : Proc), m.procs[i]? = some q →
    ∃ q', n.procs[i]? = some q' ∧ q'.parent = q.parent

theorem Module.GrowsTo.refl (m : Module) : m.GrowsTo m := fun _ q hq => ⟨q, hq, rfl⟩

theorem Module.GrowsTo.trans {m n o : Module} (h : m.GrowsTo n) (h' : n.GrowsTo o) :
    m.GrowsTo o := by
  intro i q hq
  obtain ⟨q', hq', he⟩ := h i q hq
  obtain ⟨q'', hq'', he'⟩ := h' i q' hq'
  exact ⟨q'', hq'', he'.trans he⟩

/-- What is admitted stays admitted; the flow of control does not matter. -/
theorem Site.Admits.withFlow {p : Proc} {m n : Module} {opcode : Opcode}
    {operands targets : List Operand} (h : Admits ⟨p, m⟩ opcode operands targets)
    (hm : m.GrowsTo n) (flow : Option Flow) : Admits ⟨{ p with flow }, n⟩ opcode operands targets := by
  cases h with
  | plain signature reads writes => exact .plain signature reads writes
  | ret results => exact .ret results
  | call callee passed expected => exact .call callee passed expected
  | closure nested writes =>
    obtain ⟨q, hq, hp⟩ := nested
    obtain ⟨q', hq', hp'⟩ := hm _ q hq
    exact .closure ⟨q', hq', hp'.trans hp⟩ writes

end Growth

section Operands

variable {p : Proc}

theorem Proc.Gives.of_covers {d e : Demand} {o : Operand} (h : p.Gives d o)
    (hd : d.covers e = true) : p.Gives e o := by
  by_cases hn : d = .nothing
  · subst hn
    cases e <;> first | exact Or.inl rfl | cases hd
  · rcases h with h | ⟨φ, hφ, hm⟩
    · exact absurd h hn
    · exact Or.inr ⟨φ, hφ, Form.meets_of_covers hn hd hm⟩

theorem Proc.Gives.of_form? {d : Demand} {o : Operand} {φ : Form} (h : p.form? o = some φ)
    (hd : φ.meets d = true) : p.Gives d o :=
  Or.inr ⟨φ, h, hd⟩

theorem Proc.form?_of_constant? {o : Operand} {c : Constant} (h : p.constant? o = some c) :
    p.form? o = some c.form := by
  cases o with
  | constant k => exact Option.map_eq_some_iff.mpr ⟨c, h, rfl⟩
  | _ => cases h

theorem Proc.lists_nil : p.Lists [] := ⟨[], [], rfl, by simp, Or.inl rfl⟩

theorem Proc.lists_range {base : Nat} (h : base < p.maxTemps .any) :
    p.Lists [.range base (-1)] :=
  ⟨[], _, rfl, by simp, Or.inr ⟨base, h, rfl⟩⟩

theorem Proc.Lists.cons {o : Operand} {os : List Operand}
    (ho : p.Gives .value (CodeContext.narrowed o)) (h : p.Lists os) : p.Lists (o :: os) := by
  obtain ⟨fixed, tail, rfl, hfixed, htail⟩ := h
  exact ⟨o :: fixed, tail, rfl, List.forall_mem_cons.mpr ⟨ho, hfixed⟩, htail⟩

end Operands

section Rewriting

variable {f : Site} {opcode store : Opcode} {operands targets : List Operand}

/-- The number of results that a call asks for can be set. -/
theorem Site.Admits.setExpected {k : Operand} {n : Int64}
    (h : f.Admits opcode operands targets) (hk : f.proc.constant? k = some (.integer n)) :
    f.Admits opcode operands (targets.set 1 k) := by
  cases h with
  | plain signature reads writes =>
    refine .plain signature reads fun kind hkind => ?_
    obtain ⟨t, rfl, ht⟩ := writes kind hkind
    exact ⟨t, rfl, ht⟩
  | ret results => exact .ret results
  | call callee passed _ => exact .call callee passed hk
  | closure nested writes => exact .closure nested writes

theorem Opcode.signature_of_storeCounterpart? {sig : Signature}
    (h : opcode.storeCounterpart? = some store) (hs : opcode.signature = some sig) :
    store.signature = some ⟨sig.reads ++ [.value], none⟩ := by
  cases opcode <;> cases h <;> cases hs <;> rfl

end Rewriting

end ScriptC
