import ScriptC.Proofs.Calls.Expressions
import ScriptC.Proofs.Generation.Typing

/-! # Policies of lowering

What lowering emits has an origin in the tree, and what it writes it has taken before. A policy is
something that all states are to keep on these conditions. If every single operation on a proc
observes a policy, the lowering of every tree does.

As an operand may depend on what comes later, states can be judged by where they lead to: a policy
says how states grow and from which of them the end is still ahead.
-/

namespace ScriptC

namespace Opcode

/-- The second operand is a key that is read as an integer. -/
def isKeyed : Opcode → Bool
  | iarrayGet | farrayGet | iarraySet | farraySet | getIK | putIK | tableGetIK | tableSetIK => true
  | _ => false

/-- The positions of the operands that are integers and are evaluated as floats. -/
def converted : Opcode → List Nat
  | addIF | subIF | mulIF | divIF | movIF => [0]
  | subFI | divFI => [1]
  | divII => [0, 1]
  | _ => []

/-- The opcode asks for no integer as a key, and for none to be converted. -/
def isPlain (opcode : Opcode) : Bool := !opcode.isKeyed && opcode.converted.isEmpty

end Opcode

def Constant.tag : Constant → TypeTag
  | integer _ => .integer
  | number _ => .number
  | string _ => .string

/-- A result of this kind can be written to the operand, a temporary or a variable. -/
def Operand.Takes (kind : TempKind) (o : Operand) : Prop :=
  (∃ r, o = .temp kind r) ∨ o.isVariable = Bool.true

open Lower

/-- From a state on the way to one that leads on, the action had this result. -/
def Lower.Gave (Leads : LoweringState → Prop) {α : Type} (x : Lower α) (a : α) : Prop :=
  ∃ s s', x s = .ok a s' ∧ Leads s'

section Origins

variable (symbols : SymbolTable) (Occurs : Expr → Prop) (Leads : LoweringState → Prop)
  (Child : Nat → Prop)

namespace Origin

/-- The operand is the value of an expression that occurs. -/
structure IsValue (e : Expr) (o : Operand) : Prop where
  occurs : Occurs e
  gave : Gave Leads (one (ofExpr symbols e)) o

/-- A value that has a tag by its form, by its type or by what was copied. -/
inductive IsEntry : Operand → TypeTag → Prop where
  | value {e : Expr} {o : Operand} {tag : TypeTag} (h : IsValue symbols Occurs Leads e o)
    (ht : Gave Leads (valueTag o e.ty.tag) tag) : IsEntry o tag
  | result (base n : Nat) : IsEntry (.select base n) .any
  | temp (tag : TypeTag) (r : Nat) : IsEntry (.temp (copyKind tag) r) tag
  | nil : IsEntry .nil .nil

/-- What is read under a tag. -/
inductive IsSource : Operand → TypeTag → Prop where
  | entry {o : Operand} {tag : TypeTag} (h : IsEntry symbols Occurs Leads o tag) : IsSource o tag
  | declared {e : Expr} {o : Operand} (h : IsValue symbols Occurs Leads e o) : IsSource o e.ty.tag
  | generic {e : Expr} {o : Operand} (h : IsValue symbols Occurs Leads e o) : IsSource o .any
  | variable {o : Operand} (h : o.isVariable = true) : IsSource o .any
  | constant {c : Constant} {k : Operand} (h : Gave Leads (Lower.constant c) k) : IsSource k c.tag

/-- The operand is what an instruction asks for. -/
inductive Answers : Demand → Operand → Prop where
  | nothing (o : Operand) : Answers .nothing o
  | name {s : String} {k : Operand} (h : Gave Leads (stringConstant s) k) : Answers .stringKey k
  | source {d : Demand} {o : Operand} {tag : TypeTag} (h : IsSource symbols Occurs Leads o tag)
    (hd : tag.demand.covers d = true) : Answers d o

/-- Arguments or results: the results of a call are all passed on at the end, elsewhere the first
of them is. -/
inductive ArePassed : List Operand → Prop where
  | nil : ArePassed []
  | all (base : Nat) : ArePassed [.range base (-1)]
  | first {os : List Operand} (base : Nat) (h : ArePassed os) : ArePassed (.range base 1 :: os)
  | cons {o : Operand} {tag : TypeTag} {os : List Operand} (ho : IsSource symbols Occurs Leads o tag)
    (h : ArePassed os) : ArePassed (o :: os)

end Origin

open Origin

/-- How an instruction comes about. -/
inductive Origin : Opcode → List Operand → List Operand → Prop where
  /-- An opcode that asks for no integer. -/
  | plain {opcode : Opcode} {sig : Signature} {operands targets : List Operand}
    (hp : opcode.isPlain = true) (hs : opcode.signature = some sig)
    (hr : List.Forall₂ (Answers symbols Occurs Leads) sig.reads operands)
    (hw : ∀ kind ∈ sig.writes, ∃ t, targets = [t] ∧ t.Takes kind) : Origin opcode operands targets
  | unary {op : UnaryOp} {e : Expr} {o : Operand} (h : IsValue symbols Occurs Leads e o) (r : Nat) :
    Origin (Selection.unary op e.ty).opcode [o] [.temp (Selection.unary op e.ty).result r]
  | load {ty : Ty} {object key : Expr} {container k : Operand} {c : KeyClass}
    (he : Occurs ⟨ty, .index object key⟩) (ho : IsValue symbols Occurs Leads object container)
    (hk : IsValue symbols Occurs Leads key k) (hc : Gave Leads (keyClass k key.ty) c) (r : Nat) :
    Origin (Selection.load object.ty c).opcode [container, k]
      [.temp (Selection.load object.ty c).result r]
  | store {opcode store : Opcode} {operands targets : List Operand} {value : Operand} {tag : TypeTag}
    (h : Origin opcode operands targets) (hs : opcode.storeCounterpart? = some store)
    (hv : IsSource symbols Occurs Leads value tag) : Origin store (operands ++ [value]) []
  | positional {n : Int64} {e : Expr} {k v : Operand} (shape : Shape) (r : Nat)
    (hk : Gave Leads (intConstant n) k) (hv : IsValue symbols Occurs Leads e v) :
    Origin shape.positional [.tempAny r, k, v] []
  | keyed {ty : Ty} {items : List TableItem} {key value : Expr} {k v : Operand} {c : KeyClass}
    (r : Nat) (he : Occurs ⟨ty, .table items⟩) (hi : .keyed key value ∈ items)
    (hk : IsValue symbols Occurs Leads key k) (hc : Gave Leads (keyClass k key.ty) c)
    (hv : IsValue symbols Occurs Leads value v) :
    Origin ((Shape.of ty).keyed c) [.tempAny r, k, v] []
  | operator {op : BinaryOp} {lhs rhs : Expr} {x y : Operand} {sel : Selection}
    (hx : IsValue symbols Occurs Leads lhs x) (hy : IsValue symbols Occurs Leads rhs y)
    (hs : Selection.binary? op (.of lhs.ty) (.of rhs.ty) = some sel) (r : Nat) :
    Origin sel.opcode [x, y] [.temp sel.result r]
  /-- An integer is moved to where a float is wanted. -/
  | convert {src dest : Operand} (h : IsEntry symbols Occurs Leads src .integer)
    (hd : dest.Takes .float) : Origin .movIF [src] [dest]
  | ret {os : List Operand} (b : Nat) (h : ArePassed symbols Occurs Leads os) :
    Origin .ret os [.block b]
  | call {args : List Operand} {n : Int64} {k : Operand} (base : Nat)
    (h : ArePassed symbols Occurs Leads args) (hk : Gave Leads (intConstant n) k) :
    Origin .call (.tempAny base :: args) [.range base (-1), k]
  /-- The number of results that a call is asked for is set later. -/
  | ask {opcode : Opcode} {operands targets : List Operand} {n : Int64} {k : Operand}
    (h : Origin opcode operands targets) (hk : Gave Leads (intConstant n) k) :
    Origin opcode operands (targets.set 1 k)
  | closure {id : Nat} (h : Child id) (r : Nat) : Origin .closure [.proc id] [.tempAny r]

variable {symbols Occurs Leads Child} {opcode : Opcode} {reads : List Demand}
  {operands targets : List Operand}

theorem Origin.writes {kind : TempKind} {t : Operand} (hp : opcode.isPlain = true)
    (hs : opcode.signature = some ⟨reads, some kind⟩)
    (hr : List.Forall₂ (Answers symbols Occurs Leads) reads operands) (ht : t.Takes kind) :
    Origin symbols Occurs Leads Child opcode operands [t] := by
  refine .plain hp hs hr ?_
  rintro _ ⟨⟩
  exact ⟨t, rfl, ht⟩

theorem Origin.effects (hp : opcode.isPlain = true) (hs : opcode.signature = some ⟨reads, none⟩)
    (hr : List.Forall₂ (Answers symbols Occurs Leads) reads operands) :
    Origin symbols Occurs Leads Child opcode operands targets :=
  .plain hp hs hr (by simp)

theorem Origin.IsEntry.tempAny (r : Nat) : IsEntry symbols Occurs Leads (.tempAny r) .any :=
  .temp .any r

/-- Whatever it is, it is a value. -/
theorem Origin.IsSource.value {o : Operand} {tag : TypeTag}
    (h : IsSource symbols Occurs Leads o tag) : Answers symbols Occurs Leads .value o :=
  .source h (by cases tag <;> rfl)

end Origins

/-- What is to be observed while a function is lowered. -/
structure Policy where
  Grows : LoweringState → LoweringState → Prop
  /-- The end by which states are judged lies ahead. -/
  Leads : LoweringState → Prop
  /-- What all states are to keep. -/
  Kept : LoweringState → Prop
  /-- What may be written and given back. -/
  Owns : Operand → Prop
  /-- The instructions that were emitted meanwhile and may be changed. -/
  Emitted : Nat → Prop
  /-- The procs of the functions that are nested in the one at hand. -/
  Child : Nat → Prop
  grows_refl : ∀ s, Grows s s
  grows_trans : ∀ {s t u}, Grows s t → Grows t u → Grows s u
  leads_of_grows : ∀ {s t}, Grows s t → Leads t → Leads s

namespace Policy

open Lower

variable {α β γ : Type} {π : Policy} {P P' : Prop} {Q Q' : α → Prop} {R : β → Prop} {x : Lower α}
  {f : α → Lower β}

/-- The action keeps what is to be kept. Given `P`, its result has `Q`. -/
def Observes (π : Policy) (P : Prop) (x : Lower α) (Q : α → Prop) : Prop :=
  ∀ s, Ends x s (fun a s' => π.Grows s s' ∧
    (π.Leads s' → P → π.Kept s → π.Kept s' ∧ Q a)) fun _ _ => True

/-- What every result is can be used besides. -/
theorem Observes.bind_of {S : α → Prop} (hx : π.Observes P x Q)
    (hr : ∀ s, Ends x s (fun a _ => S a) fun _ _ => True)
    (hf : ∀ a, S a → π.Observes (P ∧ Q a) (f a) R) : π.Observes P (x >>= f) R := by
  intro s
  rw [ends_bind]
  refine ((hx s).and (hr s)).mono ?_ fun _ _ _ => trivial
  rintro a s₁ ⟨⟨hg, hk⟩, hS⟩
  refine (hf a hS s₁).imp ?_
  rintro b s₂ ⟨hg', hk'⟩
  constructor
  · exact π.grows_trans hg hg'
  · intro hl hP hs
    obtain ⟨hs₁, hQ⟩ := hk (π.leads_of_grows hg' hl) hP hs
    exact hk' hl ⟨hP, hQ⟩ hs₁

theorem Observes.bind (hx : π.Observes P x Q) (hf : ∀ a, π.Observes (P ∧ Q a) (f a) R) :
    π.Observes P (x >>= f) R := by
  refine hx.bind_of (S := fun _ => True) (fun s => ?_) fun a _ => hf a
  unfold Ends
  split <;> trivial

theorem Observes.mono (hx : π.Observes P x Q) (hP : P' → P) (hQ : ∀ a, P' → Q a → Q' a) :
    π.Observes P' x Q' := by
  intro s
  refine (hx s).imp ?_
  rintro a s' ⟨hg, hk⟩
  refine ⟨hg, fun hl hp hs => ?_⟩
  obtain ⟨hs', hq⟩ := hk hl (hP hp) hs
  exact ⟨hs', hQ a hp hq⟩

theorem Observes.given (hx : π.Observes True x Q) : π.Observes P x Q :=
  hx.mono (fun _ => trivial) fun _ _ h => h

/-- What follows does not depend on the result. -/
theorem Observes.seq (hx : π.Observes P x Q) (hf : ∀ a, π.Observes P (f a) R) :
    π.Observes P (x >>= f) R :=
  hx.bind fun a => (hf a).mono And.left fun _ _ h => h

/-- A result was had on the way. -/
theorem Observes.gave (hx : π.Observes P x Q) :
    π.Observes P x fun a => Q a ∧ Gave π.Leads x a := by
  intro s
  have h := hx s
  unfold Ends at h ⊢
  cases hr : x s with
  | error e s' => trivial
  | ok a s' =>
    rw [hr] at h
    obtain ⟨hg, hk⟩ := h
    refine ⟨hg, fun hl hp hs => ?_⟩
    obtain ⟨hs', hq⟩ := hk hl hp hs
    exact ⟨hs', hq, s, s', hr, hl⟩

theorem observes_pure {a : α} (h : P → Q a) : π.Observes P (pure a) Q :=
  fun s => ⟨π.grows_refl s, fun _ hp hs => ⟨hs, h hp⟩⟩

theorem observes_throw {e : Failure} : π.Observes P (throw e : Lower α) Q := fun _ => trivial

theorem observes_invalid {reason : Reason} : π.Observes P (invalid reason : Lower α) Q :=
  fun _ => trivial

theorem Observes.discard {R : Unit → Prop} (hx : π.Observes P x fun _ => R ()) :
    π.Observes P (discard x) R := by
  intro s
  rw [ends_discard]
  exact hx s

theorem observes_get_bind {g : LoweringState → Lower α} (h : ∀ s, π.Observes P (g s) Q) :
    π.Observes P (get >>= g) Q := fun s => h s s

theorem observes_forM {g : γ → Lower Unit} {l : List γ}
    (h : ∀ c ∈ l, π.Observes P (g c) fun _ => True) :
    π.Observes P (l.forM g) fun _ => True := by
  induction l with
  | nil => exact observes_pure fun _ => trivial
  | cons c l ih =>
    obtain ⟨hc, hl⟩ := List.forall_mem_cons.mp h
    exact hc.seq fun _ => ih hl

theorem observes_mapM {g : γ → Lower α} {l : List γ} (h : ∀ c ∈ l, π.Observes P (g c) Q) :
    π.Observes P (l.mapM g) fun as => ∀ a ∈ as, Q a := by
  induction l with
  | nil => exact observes_pure fun _ => by simp
  | cons c l ih =>
    obtain ⟨hc, hl⟩ := List.forall_mem_cons.mp h
    rw [List.mapM_cons]
    refine hc.bind fun a => ((ih hl).mono And.left fun _ _ h' => h').bind fun as => ?_
    apply observes_pure
    rintro ⟨⟨-, ha⟩, has⟩
    exact List.forall_mem_cons.mpr ⟨ha, has⟩

/-- The policy that all states have a property, wherever they lead to. -/
def keeping (Kept : LoweringState → Prop) (Owns : Operand → Prop) (Emitted : Nat → Prop) :
    Policy where
  Grows _ _ := True
  Leads _ := True
  Kept := Kept
  Owns := Owns
  Emitted := Emitted
  Child _ := True
  grows_refl _ := trivial
  grows_trans _ _ := trivial
  leads_of_grows _ _ := trivial

section Keeping

variable {Kept : LoweringState → Prop} {Owns : Operand → Prop} {Emitted : Nat → Prop}

theorem observes_keeping
    (h : ∀ s, P → Kept s → Ends x s (fun a s' => Kept s' ∧ Q a) fun _ _ => True) :
    (keeping Kept Owns Emitted).Observes P x Q := by
  intro s
  unfold Ends
  cases hr : x s with
  | error e s' => trivial
  | ok a s' => exact ⟨trivial, fun _ hP hs => (h s hP hs).of_ok hr⟩

theorem observes_keeping_tryProc {g : Proc → Except Breach Proc}
    (h : ∀ s q, P → Kept s → g s.fn.proc = .ok q → Kept (s.withProc q)) :
    (keeping Kept Owns Emitted).Observes P (tryProc fun q => return (← g q, ()))
      fun _ => True := by
  refine observes_keeping fun s hP hs => ?_
  rw [ends_tryProc]
  cases hg : g s.fn.proc with
  | error b => trivial
  | ok q => exact ⟨h s q hP hs hg, trivial⟩

/-- What an action observes holds after each of its runs. -/
theorem Observes.keeps {s : LoweringState} (h : (keeping Kept Owns Emitted).Observes True x Q)
    (hs : Kept s) : Ends x s (fun a s' => Kept s' ∧ Q a) fun _ _ => True :=
  (h s).mono (fun _ _ ha => ha.2 trivial trivial hs) fun _ _ _ => trivial

end Keeping

/-- The operations on procs observe every policy of the family. A nested function has a policy of its
own, and what it emits by that is kept by all others. -/
structure Lawful {ι : Type} (symbols : SymbolTable) (Occurs : Expr → Prop) (F : ι → Policy) :
    Prop where
  owns : ∀ (i : ι) {o : Operand}, (∀ r, o ≠ .tempInt r) → (F i).Owns o
  modifyFn : ∀ (i : ι) {g : FunctionState → FunctionState}, (∀ fn, (g fn).proc = fn.proc) →
    (F i).Observes True (Lower.modifyFn g) fun _ => True
  newBlock : ∀ i, (F i).Observes True Lower.newBlock fun _ => True
  append : ∀ (i : ι) {P : Prop} {opcode : Opcode} {operands targets : List Operand},
    (P → (∀ t ∈ targets, (F i).Owns t) ∧
      Origin symbols Occurs (F i).Leads (F i).Child opcode operands targets) →
    (F i).Observes P (Lower.append opcode operands targets) (F i).Emitted
  allocTemp : ∀ i kind, (F i).Observes True (Lower.allocTemp kind) (F i).Owns
  free : ∀ (i : ι) {P : Prop} {o : Operand}, (P → (F i).Owns o) →
    (F i).Observes P (Lower.free o) fun _ => True
  reserveTemp : ∀ i reg,
    (F i).Observes True (tryProc fun p => return (← p.reserveTemp reg, ())) fun _ => True
  constant : ∀ i c, (F i).Observes True (Lower.constant c) fun _ => True
  setTarget : ∀ (i : ι) {P : Prop} {call : Nat} {n : Int64} {k : Operand},
    (P → (F i).Emitted call ∧ (F i).Owns k ∧ Gave (F i).Leads (intConstant n) k) →
    (F i).Observes P (tryProc fun p => return (← p.setTarget call 1 k, ())) fun _ => True
  turnIntoStore : ∀ (i : ι) {P : Prop} {load : Nat} {value : Operand} {tag : TypeTag},
    (P → (F i).Emitted load ∧ Origin.IsSource symbols Occurs (F i).Leads value tag) →
    (F i).Observes P (Lower.turnIntoStore load value) fun _ => True
  allocLocal : ∀ i, (F i).Observes True (onProc (·.allocLocal)) fun _ => True
  freeLocal : ∀ i reg,
    (F i).Observes True (tryProc fun p => return (← p.freeLocal reg, ())) fun _ => True
  function : ∀ (i : ι) (f : Function) {body : Lower Unit},
    (∀ j, (F j).Observes True (functionCode symbols f.params body) fun _ => True) →
    (F i).Observes True (get >>= fun s => Lower.function symbols f (some s.fn.proc.id) body)
      (F i).Child

end Policy

end ScriptC
