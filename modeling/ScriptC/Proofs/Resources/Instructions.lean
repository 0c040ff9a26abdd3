import ScriptC.Proofs.Generation.Operands
import ScriptC.Proofs.Jumps.Texts
import ScriptC.Proofs.Resources.References

/-! # Code of instructions

An instruction has code if its operands are what its signature asks for. The code refers to where its
operands and targets lie, and to the scratch values; only a call refers to more slots, and only a
closure to a child. Unless it ends a block, it jumps nowhere but to where errors are raised.
-/

namespace ScriptC

section Yields

variable {ε α β γ : Type} {x : Except ε α} {Q : α → Prop} {T : Prop}

/-- Every result has `Q`. -/
def Yields (x : Except ε α) (Q : α → Prop) : Prop := ∀ a, x = .ok a → Q a

theorem yields_ok {a : α} (h : Q a) : Yields (.ok a : Except ε α) Q := by
  rintro _ ⟨⟩
  exact h

theorem yields_error {e : ε} : Yields (.error e : Except ε α) Q := nofun

theorem Yields.bind {f : α → Except ε β} {R : β → Prop} (hx : Yields x Q)
    (hf : ∀ a, Q a → Yields (f a) R) : Yields (x >>= f) R := by
  cases x with
  | ok a => exact hf a (hx a rfl)
  | error e => exact yields_error

theorem yields_bind_any {f : α → Except ε β} {R : β → Prop} (hf : ∀ a, Yields (f a) R) :
    Yields (x >>= f) R :=
  Yields.bind (Q := fun _ => True) (fun _ _ => trivial) fun a _ => hf a

theorem Yields.mono {R : α → Prop} (hx : Yields x Q) (h : ∀ a, Q a → R a) : Yields x R :=
  fun a ha => h a (hx a ha)

theorem yields_mapM {f : γ → Except ε α} {l : List γ} (h : ∀ c ∈ l, Yields (f c) Q) :
    Yields (l.mapM f) fun as => ∀ a ∈ as, Q a := by
  induction l with
  | nil => exact yields_ok (List.forall_mem_nil _)
  | cons c l ih =>
    obtain ⟨hc, hl⟩ := List.forall_mem_cons.mp h
    rw [List.mapM_cons]
    exact hc.bind fun a ha => (ih hl).bind fun as has =>
      yields_ok (List.forall_mem_cons.mpr ⟨ha, has⟩)

/-- Every result has `Q`, and there is one if `T` holds. -/
structure Delivers (T : Prop) (x : Except ε α) (Q : α → Prop) : Prop where
  yields : Yields x Q
  returns : T → ∃ a, x = .ok a

theorem delivers_ok {a : α} (h : Q a) : Delivers T (.ok a : Except ε α) Q where
  yields := yields_ok h
  returns _ := ⟨a, rfl⟩

theorem Delivers.bind {f : α → Except ε β} {R : β → Prop} (hx : Delivers T x Q)
    (hf : ∀ a, Q a → Delivers T (f a) R) : Delivers T (x >>= f) R where
  yields := hx.yields.bind fun a ha => (hf a ha).yields
  returns ht := by
    obtain ⟨a, rfl⟩ := hx.returns ht
    exact (hf a (hx.yields a rfl)).returns ht

end Yields

namespace Code

variable {P : Ref → Prop} {func : Option Nat} {c : Code} {cs ds : List Code}

theorem jumpsOf_eq (cs : List Code) : jumpsOf cs = cs.flatMap jumps := by
  induction cs with
  | nil => rfl
  | cons c cs ih => rw [jumpsOf, ih, List.flatMap_cons]

/-- A statement that leaves its block only to raise an error. -/
def Stays (c : Code) : Prop := ∀ j ∈ c.jumps, j = .failure

theorem stays_scope (h : ∀ c ∈ cs, c.Stays) : (scope cs).Stays := by
  intro j hj
  rw [jumps, jumpsOf_eq] at hj
  obtain ⟨c, hc, hj⟩ := List.mem_flatMap.mp hj
  exact h c hc j hj

/-- A statement that stays in its block, where all that it refers to has `P`. -/
structure Plain (P : Ref → Prop) (func : Option Nat) (c : Code) : Prop extends c.Keeps P func where
  stays : c.Stays

/-- Neither a jump nor the start of a call, nor made of other statements. -/
def isSimple : Code → Bool
  | .goto _ | .branch _ _ _ | .setCallee _ | .scope _ => false
  | _ => true

theorem Plain.of_refs (hc : c.isSimple = true) (h : ∀ x ∈ c.refs func, P x) : c.Plain P func where
  callee s := by
    rintro rfl
    cases hc
  refs := h
  stays := by cases c <;> simp_all [isSimple, Stays, jumps]

/-- Statements outside of a call that stay in their block. -/
def AllPlain (P : Ref → Prop) (cs : List Code) : Prop := ∀ c ∈ cs, c.Plain P none

theorem AllPlain.nil : AllPlain P [] := List.forall_mem_nil _

theorem AllPlain.single (hc : c.Plain P none) : AllPlain P [c] := List.forall_mem_singleton.mpr hc

theorem AllPlain.cons (hc : c.Plain P none) (h : AllPlain P cs) : AllPlain P (c :: cs) :=
  List.forall_mem_cons.mpr ⟨hc, h⟩

theorem AllPlain.append (h : AllPlain P cs) (h' : AllPlain P ds) : AllPlain P (cs ++ ds) :=
  List.forall_mem_append.mpr ⟨h, h'⟩

theorem AllPlain.scope (h : AllPlain P cs) : AllPlain P [.scope cs] :=
  .single { toKeeps := keeps_scope fun c hc => (h c hc).toKeeps
            stays := stays_scope fun c hc => (h c hc).stays }

theorem AllPlain.raise (code : ErrorCode) : AllPlain P [.raise code] :=
  .single (.of_refs rfl (List.forall_mem_nil _))

/-- A call of the runtime refers to what its arguments refer to. -/
theorem AllPlain.invoke {helper : Helper} {args : List Argument}
    (h : ∀ a ∈ args, ∀ x ∈ a.refs none, P x) : AllPlain P [.invoke helper args] := by
  refine .single (.of_refs rfl fun x hx => ?_)
  obtain ⟨a, ha, hxa⟩ := List.mem_flatMap.mp hx
  exact h a ha x hxa

/-- A function of the runtime that takes the state and three arguments. -/
theorem AllPlain.invokeWith {helper : Helper} {x y z : Argument} (hx : ∀ r ∈ x.refs none, P r)
    (hy : ∀ r ∈ y.refs none, P r) (hz : ∀ r ∈ z.refs none, P r) :
    AllPlain P [.invoke helper [.state, x, y, z]] := by
  apply invoke
  simp only [List.forall_mem_cons]
  exact ⟨List.forall_mem_nil _, hx, hy, hz, List.forall_mem_nil _⟩

end Code

namespace CodeContext

open Code

variable {c : CodeContext} {P : Ref → Prop} {func : Option Nat} {o : Operand} {i : Instr}

/-- Whatever the code refers to on behalf of an operand has `P`. -/
structure Covers (c : CodeContext) (P : Ref → Prop) (o : Operand) : Prop where
  slot : ∀ s, c.frame.position o = some s → P (.slot s)
  int : ∀ r, o = .tempInt r → P (.int r)
  float : ∀ r, o = .tempFloat r → P (.float r)
  constant : ∀ k h s, o = .constant k → c.proc.constants.get? k = some (.string s) →
    c.strings.lookup k = some h → P (.constant h)

/-- Whatever the code refers to on behalf of the operands of an instruction has `P`. -/
structure CoversInstr (c : CodeContext) (P : Ref → Prop) (i : Instr) : Prop where
  operands : ∀ o ∈ i.operands, c.Covers P o
  targets : ∀ o ∈ i.targets, c.Covers P o
  scratch : ∀ d < CodeUnit.scratchValues, P (.scratch d)

theorem covers_any (c : CodeContext) (i : Instr) : c.CoversInstr (fun _ => True) i := by
  have hcovers (o : Operand) : c.Covers (fun _ => True) o :=
    ⟨fun _ _ => trivial, fun _ _ => trivial, fun _ _ => trivial, fun _ _ _ _ _ _ => trivial⟩
  exact ⟨fun o _ => hcovers o, fun o _ => hcovers o, fun _ _ => trivial⟩

/-- The slots above a callee that hold the arguments, and those that take the results, have `P`. -/
structure CoversCall (c : CodeContext) (P : Ref → Prop) (i : Instr) (s : Nat) : Prop where
  args : ∀ j < (splitTail i.operands.tail).1.length, P (.slot (s + (j + 1)))
  results : ∀ k n, i.targets[1]?.bind c.proc.constant? = some (.integer n) → k < n.toInt.toNat →
    P (.slot (s + k))

section Operands

theorem yields_operand (i : Instr) (n : Nat) :
    Yields (c.operand i n) fun o => i.operands[n]? = some o := by
  unfold operand
  split
  · rename_i o ho
    exact yields_ok ho
  · exact yields_error

theorem yields_target (i : Instr) (n : Nat) :
    Yields (c.target i n) fun o => i.targets[n]? = some o := by
  unfold target
  split
  · rename_i o ho
    exact yields_ok ho
  · exact yields_error

theorem yields_slot? (o : Operand) : Yields (c.slot? o) (· = c.frame.position o) := by
  unfold slot? Frame.slot? Frame.checked
  split
  · rename_i s hs
    split
    · exact yields_ok hs.symm
    · exact yields_error
  · rename_i hs
    exact yields_ok hs.symm

theorem Covers.address? (h : c.Covers P o) (func : Option Nat) :
    Yields (c.address? o) fun a => ∀ a' ∈ a, ∀ x ∈ a'.refs func, P x := by
  unfold CodeContext.address?
  split
  · refine yields_ok ?_
    rintro _ ⟨⟩
    exact List.forall_mem_nil _
  · rename_i k
    split
    · rename_i s hs
      split
      · rename_i index hindex
        refine yields_ok ?_
        rintro _ ⟨⟩
        exact List.forall_mem_singleton.mpr (h.constant k index s rfl hs hindex)
      · exact yields_error
    · exact yields_ok (by simp)
  · refine (yields_slot? o).bind fun s hs => yields_ok ?_
    intro a ha
    obtain ⟨s', hs', rfl⟩ := Option.map_eq_some_iff.mp ha
    exact List.forall_mem_singleton.mpr (h.slot s' (hs ▸ hs'))

theorem Covers.address (h : c.Covers P o) (func : Option Nat) :
    Yields (c.address o) fun a => ∀ x ∈ a.refs func, P x := by
  refine (h.address? func).bind fun a ha => ?_
  split
  · exact yields_ok (ha _ rfl)
  · exact yields_error

theorem Covers.intValue (h : c.Covers P o) (func : Option Nat) :
    Yields (c.intValue o) fun e => ∀ x ∈ e.refs func, P x := by
  unfold CodeContext.intValue
  split
  · exact yields_ok (List.forall_mem_singleton.mpr (h.int _ rfl))
  · split
    · exact yields_ok (List.forall_mem_nil _)
    · exact yields_error
  · refine (h.address? func).bind fun a ha => ?_
    split
    · exact yields_ok (ha _ rfl)
    · exact yields_error

theorem Covers.taggedFloat (h : c.Covers P o) (func : Option Nat) :
    Yields (c.taggedFloat o) fun e => ∀ x ∈ e.refs func, P x := by
  refine (h.address? func).bind fun a ha => ?_
  split
  · exact yields_ok (ha _ rfl)
  · exact yields_error

theorem Covers.floatValue (h : c.Covers P o) (func : Option Nat) :
    Yields (c.floatValue o) fun e => ∀ x ∈ e.refs func, P x := by
  unfold CodeContext.floatValue
  split
  · exact yields_ok (List.forall_mem_singleton.mpr (h.float _ rfl))
  · exact yields_ok (List.forall_mem_singleton.mpr (h.int _ rfl))
  · split
    · exact yields_ok (List.forall_mem_nil _)
    · exact yields_ok (List.forall_mem_nil _)
    · exact yields_error
  · split
    · exact (h.intValue func).bind fun e he => yields_ok he
    · exact h.taggedFloat func
  · exact h.taggedFloat func

/-- A value without an address is put into a scratch value first. -/
theorem Covers.tagged (h : c.Covers P o) {d : Nat} (hd : P (.scratch d)) :
    Yields (c.tagged o d) fun r => AllPlain P r.1 ∧ ∀ x ∈ r.2.refs none, P x := by
  have hscratch : ∀ x ∈ [Ref.scratch d], P x := List.forall_mem_singleton.mpr hd
  refine (h.address? none).bind fun a ha => ?_
  split
  · exact yields_ok ⟨.nil, ha _ rfl⟩
  · refine yields_bind_any fun held => ?_
    split
    · exact (h.intValue none).bind fun e he => yields_ok
        ⟨.single (.of_refs rfl (List.forall_mem_append.mpr ⟨hscratch, he⟩)), hscratch⟩
    · exact (h.floatValue none).bind fun e he => yields_ok
        ⟨.single (.of_refs rfl (List.forall_mem_append.mpr ⟨hscratch, he⟩)), hscratch⟩
    · exact yields_ok ⟨.single (.of_refs rfl hscratch), hscratch⟩
    · exact yields_ok ⟨.single (.of_refs rfl
        (List.forall_mem_append.mpr ⟨hscratch, List.forall_mem_nil _⟩)), hscratch⟩
    · exact yields_error

theorem Covers.falsity (h : c.Covers P o) :
    Yields (c.falsity o) fun r => ∀ a, r = .inr a → ∀ x ∈ a.refs none, P x := by
  refine yields_bind_any fun held => ?_
  split
  · exact yields_ok (by simp)
  · exact yields_ok (by simp)
  · exact yields_ok (by simp)
  · exact yields_ok (by simp)
  · exact yields_ok (by simp)
  · refine (h.address none).bind fun a ha => yields_ok ?_
    rintro _ ⟨⟩
    exact ha

theorem Covers.stringKey (h : c.Covers P o) :
    Yields (c.stringKey o) fun a => ∀ x ∈ a.refs none, P x := by
  unfold CodeContext.stringKey
  split
  · exact h.address none
  · exact yields_error

end Operands

section Stores

theorem Covers.storeInt (h : c.Covers P o) {e : IntExpr} (he : ∀ x ∈ e.refs none, P x) :
    Yields (c.storeInt o e) (Code.Plain P none) := by
  unfold CodeContext.storeInt
  split
  · exact yields_ok (.of_refs rfl (List.forall_mem_cons.mpr ⟨h.int _ rfl, he⟩))
  · exact (h.address none).bind fun a ha =>
      yields_ok (.of_refs rfl (List.forall_mem_append.mpr ⟨ha, he⟩))

theorem Covers.storeFloat (h : c.Covers P o) {e : FloatExpr} (he : ∀ x ∈ e.refs none, P x) :
    Yields (c.storeFloat o e) (Code.Plain P none) := by
  unfold CodeContext.storeFloat
  split
  · exact yields_ok (.of_refs rfl (List.forall_mem_cons.mpr ⟨h.float _ rfl, he⟩))
  · exact (h.address none).bind fun a ha =>
      yields_ok (.of_refs rfl (List.forall_mem_append.mpr ⟨ha, he⟩))

theorem Covers.storeBool (h : c.Covers P o) {e : BoolExpr} (he : ∀ x ∈ e.refs none, P x) :
    Yields (c.storeBool o e) (Code.Plain P none) :=
  (h.address none).bind fun _ ha =>
    yields_ok (.of_refs rfl (List.forall_mem_append.mpr ⟨ha, he⟩))

theorem Covers.store (h : c.Covers P o) {dest : Address} (hd : ∀ x ∈ dest.refs func, P x) :
    Yields (c.store dest o) (Code.Plain P func) := by
  refine yields_bind_any fun held => ?_
  split
  · exact (h.intValue func).bind fun e he =>
      yields_ok (.of_refs rfl (List.forall_mem_append.mpr ⟨hd, he⟩))
  · exact (h.floatValue func).bind fun e he =>
      yields_ok (.of_refs rfl (List.forall_mem_append.mpr ⟨hd, he⟩))
  · exact yields_ok (.of_refs rfl hd)
  · exact yields_ok (.of_refs rfl (List.forall_mem_append.mpr ⟨hd, List.forall_mem_nil _⟩))
  · exact (h.address func).bind fun a ha =>
      yields_ok (.of_refs rfl (List.forall_mem_append.mpr ⟨hd, ha⟩))

/-- A value is declared, checked and stored. -/
theorem allPlain_checked {declared stored : Code} (hd : declared.Plain P none)
    (hs : stored.Plain P none) {check : Check} (hc : ∀ x ∈ check.refs none, P x)
    (code : ErrorCode) : AllPlain P [.scope [declared, .guard check code, stored]] :=
  .scope (.cons hd (.cons (.of_refs rfl hc) (.single hs)))

theorem Covers.checkedInt (h : c.Covers P o) {check : Check} (hc : ∀ x ∈ check.refs none, P x) :
    Yields (c.checkedInt check o) (AllPlain P) :=
  (h.storeInt (e := .var .converted) (List.forall_mem_nil _)).bind fun _ hcode =>
    yields_ok (allPlain_checked (.of_refs rfl (List.forall_mem_nil _)) hcode hc _)

theorem Covers.checkedFloat (h : c.Covers P o) {check : Check} (hc : ∀ x ∈ check.refs none, P x) :
    Yields (c.checkedFloat check o) (AllPlain P) :=
  (h.storeFloat (e := .var .converted) (List.forall_mem_nil _)).bind fun _ hcode =>
    yields_ok (allPlain_checked (.of_refs rfl (List.forall_mem_nil _)) hcode hc _)

end Stores

section Access

variable {T : Prop}

/-- An operand that is covered and, if `T` holds, is what the demand asks for. -/
structure Reads (c : CodeContext) (T : Prop) (P : Ref → Prop) (d : Demand) (o : Operand) : Prop where
  covers : c.Covers P o
  complete : T → c.Complete
  offers : T → c.Offers d o

/-- An operand that is covered and, if `T` holds, can take a result of this kind. -/
structure Writes (c : CodeContext) (T : Prop) (P : Ref → Prop) (kind : TempKind) (o : Operand) :
    Prop where
  covers : c.Covers P o
  complete : T → c.Complete
  accepts : T → c.Accepts kind o

theorem Reads.address (h : c.Reads T P .address o) :
    Delivers T (c.address o) fun a => ∀ x ∈ a.refs none, P x :=
  ⟨h.covers.address none, fun ht => (h.complete ht).address (h.offers ht)⟩

theorem Reads.intValue (h : c.Reads T P .int o) :
    Delivers T (c.intValue o) fun e => ∀ x ∈ e.refs none, P x :=
  ⟨h.covers.intValue none, fun ht => (h.complete ht).intValue (h.offers ht)⟩

theorem Reads.floatValue (h : c.Reads T P .float o) :
    Delivers T (c.floatValue o) fun e => ∀ x ∈ e.refs none, P x :=
  ⟨h.covers.floatValue none, fun ht => (h.complete ht).floatValue (h.offers ht)⟩

theorem Reads.tagged (h : c.Reads T P .value o) {d : Nat} (hd : P (.scratch d)) :
    Delivers T (c.tagged o d) fun r => AllPlain P r.1 ∧ ∀ x ∈ r.2.refs none, P x :=
  ⟨h.covers.tagged hd, fun ht => (h.complete ht).tagged (h.offers ht) d⟩

theorem Reads.falsity (h : c.Reads T P .value o) :
    Delivers T (c.falsity o) fun r => ∀ a, r = .inr a → ∀ x ∈ a.refs none, P x :=
  ⟨h.covers.falsity, fun ht => (h.complete ht).falsity (h.offers ht)⟩

theorem Reads.stringKey (h : c.Reads T P .stringKey o) :
    Delivers T (c.stringKey o) fun a => ∀ x ∈ a.refs none, P x :=
  ⟨h.covers.stringKey, fun ht => (h.complete ht).stringKey (h.offers ht)⟩

theorem Reads.store (h : c.Reads T P .value o) {dest : Address} (hd : ∀ x ∈ dest.refs func, P x) :
    Delivers T (c.store dest o) (Code.Plain P func) :=
  ⟨h.covers.store hd, fun ht => (h.complete ht).store (h.offers ht) dest⟩

/-- How a value is held tells how it can be read. -/
theorem Reads.holding (h : c.Reads T P .value o) :
    Delivers T (c.holding o) fun held => T → c.ReadsAs o held where
  yields held hheld ht := by
    obtain ⟨held', hheld', hr⟩ := (h.offers ht).holding
    cases hheld.symm.trans hheld'
    exact hr
  returns ht := by
    obtain ⟨held, hheld, -⟩ := (h.offers ht).holding
    exact ⟨held, hheld⟩

theorem Reads.change {d e : Demand} (h : c.Reads T P d o) (he : T → c.Offers e o) :
    c.Reads T P e o :=
  ⟨h.covers, h.complete, he⟩

theorem Writes.address (h : c.Writes T P .any o) :
    Delivers T (c.address o) fun a => ∀ x ∈ a.refs none, P x :=
  ⟨h.covers.address none, fun ht => (h.complete ht).address (h.accepts ht).address⟩

theorem Writes.storeInt (h : c.Writes T P .int o) {e : IntExpr} (he : ∀ x ∈ e.refs none, P x) :
    Delivers T (do return [← c.storeInt o e]) (AllPlain P) :=
  Delivers.bind ⟨h.covers.storeInt he, fun ht => (h.complete ht).storeInt (h.accepts ht) e⟩
    fun _ hcode => delivers_ok (.single hcode)

theorem Writes.storeFloat (h : c.Writes T P .float o) {e : FloatExpr}
    (he : ∀ x ∈ e.refs none, P x) : Delivers T (do return [← c.storeFloat o e]) (AllPlain P) :=
  Delivers.bind ⟨h.covers.storeFloat he, fun ht => (h.complete ht).storeFloat (h.accepts ht) e⟩
    fun _ hcode => delivers_ok (.single hcode)

theorem Writes.storeBool (h : c.Writes T P .any o) {e : BoolExpr} (he : ∀ x ∈ e.refs none, P x) :
    Delivers T (c.storeBool o e) (Code.Plain P none) :=
  ⟨h.covers.storeBool he, fun ht => (h.complete ht).storeBool (h.accepts ht) e⟩

theorem Writes.outcome (h : c.Writes T P .any o) {e : BoolExpr} (he : ∀ x ∈ e.refs none, P x) :
    Delivers T (do return [← c.storeBool o e]) (AllPlain P) :=
  (h.storeBool he).bind fun _ hcode => delivers_ok (.single hcode)

theorem Writes.checkedInt (h : c.Writes T P .int o) {check : Check}
    (hc : ∀ x ∈ check.refs none, P x) : Delivers T (c.checkedInt check o) (AllPlain P) :=
  ⟨h.covers.checkedInt hc, fun ht => (h.complete ht).checkedInt (h.accepts ht) check⟩

theorem Writes.checkedFloat (h : c.Writes T P .float o) {check : Check}
    (hc : ∀ x ∈ check.refs none, P x) : Delivers T (c.checkedFloat check o) (AllPlain P) :=
  ⟨h.covers.checkedFloat hc, fun ht => (h.complete ht).checkedFloat (h.accepts ht) check⟩

end Access

/-- The operands are covered and, if `T` holds, as the signature says. -/
structure Handles (c : CodeContext) (T : Prop) (P : Ref → Prop) (sig : Signature) (i : Instr) :
    Prop extends c.CoversInstr P i where
  complete : T → c.Complete
  fits : T → c.Fits sig i

namespace Handles

variable {T : Prop} {sig : Signature}

theorem operand (h : c.Handles T P sig i) (n : Nat) {d : Demand} (hd : sig.reads[n]? = some d) :
    Delivers T (c.operand i n) (c.Reads T P d) where
  yields o ho :=
    { covers := h.operands o (List.mem_of_getElem? (yields_operand i n o ho))
      complete := h.complete
      offers := fun ht => by
        obtain ⟨o', ho', hoffers⟩ := (h.fits ht).operand n hd
        cases ho.symm.trans ho'
        exact hoffers }
  returns ht := by
    obtain ⟨o, ho, -⟩ := (h.fits ht).operand n hd
    exact ⟨o, ho⟩

theorem target (h : c.Handles T P sig i) {kind : TempKind} (hk : sig.writes = some kind) :
    Delivers T (c.target i 0) (c.Writes T P kind) where
  yields t ht :=
    { covers := h.targets t (List.mem_of_getElem? (yields_target i 0 t ht))
      complete := h.complete
      accepts := fun hT => by
        obtain ⟨t', ht', haccepts⟩ := (h.fits hT).target hk
        cases ht.symm.trans ht'
        exact haccepts }
  returns hT := by
    obtain ⟨t, ht, -⟩ := (h.fits hT).target hk
    exact ⟨t, ht⟩

/-- An operand of a runtime function has an address once it was put where it has one. -/
theorem tagged {α : Type} {f : List Code × Address → Except Failure α} {R : α → Prop}
    (h : c.Handles T P sig i) {d : Nat} (hd : d < CodeUnit.scratchValues)
    (ho : c.Reads T P .value o)
    (hf : ∀ set a, AllPlain P set → (∀ x ∈ a.refs none, P x) → Delivers T (f (set, a)) R) :
    Delivers T (c.tagged o d >>= f) R :=
  (ho.tagged (h.scratch d hd)).bind fun r hr => hf r.1 r.2 hr.1 hr.2

section Moves

theorem construct (h : c.Handles T P ⟨[], some .any⟩ i) (helper : Helper) :
    Delivers T (c.construct helper i) (AllPlain P) := by
  refine (h.target rfl).bind fun t ht => ht.address.bind fun a ha => delivers_ok (.invoke ?_)
  simp only [List.forall_mem_cons]
  exact ⟨List.forall_mem_nil _, ha, List.forall_mem_nil _⟩

/-- A native target is not what the signature says. -/
theorem move (h : c.Handles T P ⟨[.value], some .any⟩ i) :
    Delivers T (c.move i) (AllPlain P) := by
  refine (h.operand 0 rfl).bind fun src hsrc => (h.target rfl).bind fun dest hdest => ?_
  have hnative {o : Operand} (hd : c.proc.form? dest ≠ some .slot) : T → o = dest → False := by
    rintro ht rfl
    rcases (hdest.accepts ht).1 with hs | ⟨hk, -⟩
    · exact hd hs
    · exact hk rfl
  split
  · refine Delivers.bind (Reads.intValue (hsrc.change fun ht => ?_)) fun e he =>
      Writes.storeInt ⟨hdest.covers, hdest.complete, fun ht => ?_⟩ he
    · exact (hnative nofun ht rfl).elim
    · exact (hnative nofun ht rfl).elim
  · refine Delivers.bind (Reads.floatValue (hsrc.change fun ht => ?_)) fun e he =>
      Writes.storeFloat ⟨hdest.covers, hdest.complete, fun ht => ?_⟩ he
    · exact (hnative nofun ht rfl).elim
    · exact (hnative nofun ht rfl).elim
  · exact hdest.address.bind fun a ha => (hsrc.store ha).bind fun code hcode =>
      delivers_ok (.single hcode)

theorem moveInt (h : c.Handles T P ⟨[.int], some .int⟩ i) :
    Delivers T (c.moveInt i) (AllPlain P) :=
  (h.operand 0 rfl).bind fun _ hsrc => (h.target rfl).bind fun _ hdest =>
    hsrc.intValue.bind fun _ he => hdest.storeInt he

theorem moveFloat (h : c.Handles T P ⟨[.float], some .float⟩ i) :
    Delivers T (c.moveFloat i) (AllPlain P) :=
  (h.operand 0 rfl).bind fun _ hsrc => (h.target rfl).bind fun _ hdest =>
    hsrc.floatValue.bind fun _ he => hdest.storeFloat he

theorem moveFloatToInt (h : c.Handles T P ⟨[.float], some .int⟩ i) :
    Delivers T (c.moveFloatToInt i) (AllPlain P) :=
  (h.operand 0 rfl).bind fun _ hsrc => (h.target rfl).bind fun _ hdest =>
    hsrc.floatValue.bind fun _ he =>
      hdest.checkedInt (List.forall_mem_append.mpr ⟨he, List.forall_mem_nil _⟩)

end Moves

section Operators

theorem intArith (h : c.Handles T P ⟨[.int, .int], some .int⟩ i) {op : IntExpr → IntExpr → IntExpr}
    (hop : ∀ x y, (op x y).refs none = x.refs none ++ y.refs none) :
    Delivers T (c.intArith op i) (AllPlain P) := by
  refine (h.operand 0 rfl).bind fun a ha => (h.operand 1 rfl).bind fun b hb =>
    (h.target rfl).bind fun t ht => ha.intValue.bind fun x hx => hb.intValue.bind fun y hy =>
    ht.storeInt ?_
  rw [hop]
  exact List.forall_mem_append.mpr ⟨hx, hy⟩

theorem floatArith (h : c.Handles T P ⟨[.float, .float], some .float⟩ i) (op : FloatOp) :
    Delivers T (c.floatArith op i) (AllPlain P) :=
  (h.operand 0 rfl).bind fun _ ha => (h.operand 1 rfl).bind fun _ hb =>
    (h.target rfl).bind fun _ ht => ha.floatValue.bind fun _ hx => hb.floatValue.bind fun _ hy =>
      ht.storeFloat (List.forall_mem_append.mpr ⟨hx, hy⟩)

/-- A runtime function of two tagged operands and a destination. -/
theorem taggedArith (h : c.Handles T P ⟨[.value, .value], some .any⟩ i) {helper : Helper}
    {leading : List Argument} (hl : ∀ a ∈ leading, ∀ x ∈ a.refs none, P x) :
    Delivers T (c.taggedArith helper leading i) (AllPlain P) := by
  refine (h.operand 0 rfl).bind fun a ha => (h.operand 1 rfl).bind fun b hb =>
    (h.target rfl).bind fun t ht => ht.address.bind fun d hd =>
    h.tagged (by decide) ha fun setX x hsetX hx => ?_
  refine h.tagged (by decide) hb fun setY y hsetY hy => ?_
  refine delivers_ok (.append (.append hsetX hsetY) (.invoke ?_))
  simp only [List.cons_append, List.forall_mem_cons, List.forall_mem_append]
  exact ⟨List.forall_mem_nil _, hl, hd, hx, hy, List.forall_mem_nil _⟩

theorem compareInts (h : c.Handles T P ⟨[.int, .int], some .any⟩ i) (r : Relation) :
    Delivers T (c.compareInts r i) (AllPlain P) :=
  (h.operand 0 rfl).bind fun _ ha => (h.operand 1 rfl).bind fun _ hb =>
    (h.target rfl).bind fun _ ht => ha.intValue.bind fun _ hx => hb.intValue.bind fun _ hy =>
      ht.outcome (List.forall_mem_append.mpr ⟨hx, hy⟩)

theorem compareFloats (h : c.Handles T P ⟨[.float, .float], some .any⟩ i) (r : Relation) :
    Delivers T (c.compareFloats r i) (AllPlain P) :=
  (h.operand 0 rfl).bind fun _ ha => (h.operand 1 rfl).bind fun _ hb =>
    (h.target rfl).bind fun _ ht => ha.floatValue.bind fun _ hx => hb.floatValue.bind fun _ hy =>
      ht.outcome (List.forall_mem_append.mpr ⟨hx, hy⟩)

theorem compareTagged (h : c.Handles T P ⟨[.value, .value], some .any⟩ i) (r : Relation) :
    Delivers T (c.compareTagged r i) (AllPlain P) := by
  refine (h.operand 0 rfl).bind fun a ha => (h.operand 1 rfl).bind fun b hb =>
    (h.target rfl).bind fun t ht => h.tagged (by decide) ha fun setX x hsetX hx => ?_
  refine h.tagged (by decide) hb fun setY y hsetY hy => ?_
  exact (ht.storeBool (e := .tagged r x y) (List.forall_mem_append.mpr ⟨hx, hy⟩)).bind
    fun code hcode => delivers_ok (.append (.append hsetX hsetY) (.single hcode))

theorem negateInt (h : c.Handles T P ⟨[.int], some .int⟩ i) :
    Delivers T (c.negateInt i) (AllPlain P) :=
  (h.operand 0 rfl).bind fun _ ha => (h.target rfl).bind fun _ ht =>
    ha.intValue.bind fun _ he => ht.storeInt he

theorem negateFloat (h : c.Handles T P ⟨[.float], some .float⟩ i) :
    Delivers T (c.negateFloat i) (AllPlain P) :=
  (h.operand 0 rfl).bind fun _ ha => (h.target rfl).bind fun _ ht =>
    ha.floatValue.bind fun _ he => ht.storeFloat he

theorem not (h : c.Handles T P ⟨[.value], some .any⟩ i) : Delivers T (c.not i) (AllPlain P) := by
  refine (h.operand 0 rfl).bind fun a ha => (h.target rfl).bind fun t ht =>
    ha.falsity.bind fun r hr => ?_
  cases r with
  | inl b => exact ht.outcome (List.forall_mem_nil _)
  | inr a => exact ht.outcome (hr a rfl)

theorem arrayLength (h : c.Handles T P ⟨[.address], some .int⟩ i) :
    Delivers T (c.arrayLength i) (AllPlain P) :=
  (h.operand 0 rfl).bind fun _ ha => (h.target rfl).bind fun _ ht =>
    ha.address.bind fun _ he => ht.storeInt he

theorem length (h : c.Handles T P ⟨[.value], some .any⟩ i) :
    Delivers T (c.length i) (AllPlain P) := by
  refine (h.operand 0 rfl).bind fun a ha => (h.target rfl).bind fun t ht =>
    ht.address.bind fun d hd => h.tagged (by decide) ha fun set x hset hx => ?_
  refine delivers_ok (.append hset (.invoke ?_))
  simp only [List.forall_mem_cons]
  exact ⟨List.forall_mem_nil _, hd, hx, List.forall_mem_nil _⟩

theorem taggedUnary (h : c.Handles T P ⟨[.value], some .any⟩ i) :
    Delivers T (c.taggedUnary i) (AllPlain P) := by
  refine (h.operand 0 rfl).bind fun a ha => (h.target rfl).bind fun t ht =>
    ht.address.bind fun d hd => h.tagged (by decide) ha fun set x hset hx => ?_
  refine delivers_ok (.append hset (.invoke ?_))
  simp only [List.forall_mem_cons]
  exact ⟨List.forall_mem_nil _, List.forall_mem_nil _, hd, hx, hx, List.forall_mem_nil _⟩

end Operators

section Casts

theorem castInt (h : c.Handles T P ⟨[.value], some .int⟩ i) :
    Delivers T (c.castInt i) (AllPlain P) := by
  refine (h.operand 0 rfl).bind fun src hsrc => (h.target rfl).bind fun dest hdest =>
    hsrc.holding.bind fun held hheld => ?_
  split
  · exact (hsrc.change fun ht => (hheld ht).2).intValue.bind fun e he => hdest.storeInt he
  · exact (hsrc.change fun ht => (hheld ht).2).floatValue.bind fun e he =>
      hdest.checkedInt (List.forall_mem_append.mpr ⟨he, List.forall_mem_nil _⟩)
  · exact (hsrc.change hheld).address.bind fun a ha => hdest.checkedInt ha
  · exact delivers_ok (.raise _)
  · exact delivers_ok (.raise _)

theorem castFloat (h : c.Handles T P ⟨[.value], some .float⟩ i) :
    Delivers T (c.castFloat i) (AllPlain P) := by
  refine (h.operand 0 rfl).bind fun src hsrc => (h.target rfl).bind fun dest hdest =>
    hsrc.holding.bind fun held hheld => ?_
  split
  · exact (hsrc.change fun ht => (hheld ht).2.float).floatValue.bind fun e he => hdest.storeFloat he
  · exact (hsrc.change fun ht => (hheld ht).2).floatValue.bind fun e he => hdest.storeFloat he
  · exact (hsrc.change hheld).address.bind fun a ha => hdest.checkedFloat ha
  · exact delivers_ok (.raise _)
  · exact delivers_ok (.raise _)

theorem castTagged (h : c.Handles T P ⟨[.value], some .any⟩ i) {check : Address → Check}
    (code : ErrorCode) (hcheck : ∀ a, (check a).refs none = a.refs none) :
    Delivers T (c.castTagged check code i) (AllPlain P) := by
  refine (h.operand 0 rfl).bind fun src hsrc => (h.target rfl).bind fun dest hdest =>
    Delivers.bind (hsrc.holding.bind fun _ _ => delivers_ok (Q := fun _ => True) trivial)
      fun _ _ => h.tagged (by decide) hsrc fun set value hset hvalue => ?_
  have hguard : (Code.guard (check value) code).Plain P none :=
    .of_refs rfl (by rw [Code.refs, hcheck]; exact hvalue)
  dsimp only
  split
  · exact delivers_ok (.append hset (.single hguard))
  · exact hdest.address.bind fun a ha => delivers_ok (.append hset (.cons hguard
      (.single (.of_refs rfl (List.forall_mem_append.mpr ⟨ha, hvalue⟩)))))

end Casts

section Elements

theorem loadGlobal (h : c.Handles T P ⟨[.nothing, .stringKey], some .any⟩ i) :
    Delivers T (c.loadGlobal i) (AllPlain P) := by
  refine (h.target rfl).bind fun t ht => (h.operand 1 rfl).bind fun o ho =>
    ho.stringKey.bind fun name hname => ht.address.bind fun d hd => ?_
  exact delivers_ok (.invokeWith (List.forall_mem_nil _) hname hd)

theorem loadElement {kind : ElementKind}
    (h : c.Handles T P ⟨[.value, .int], some (if kind = .int then .int else .float)⟩ i) :
    Delivers T (c.loadElement kind i) (AllPlain P) := by
  refine (h.target rfl).bind fun dest hdest => (h.operand 0 rfl).bind fun a ha =>
    (h.operand 1 rfl).bind fun k hk => h.tagged (by decide) ha fun set array hset harray => ?_
  refine hk.intValue.bind fun index hindex => ?_
  have hcheck : ∀ x ∈ (Check.loadElement kind array index).refs none, P x :=
    List.forall_mem_append.mpr ⟨harray, hindex⟩
  have hnothing : ∀ x ∈ (Variable.element).refs .int, P x := List.forall_mem_nil _
  cases kind with
  | int =>
    refine Delivers.bind ⟨hdest.covers.storeInt hnothing, fun ht => ?_⟩ fun code hcode =>
      delivers_ok (.append hset (allPlain_checked (.of_refs rfl (List.forall_mem_nil _)) hcode
        hcheck _))
    exact (hdest.complete ht).storeInt (hdest.accepts ht) (.var .element)
  | float =>
    refine Delivers.bind ⟨hdest.covers.storeFloat hnothing, fun ht => ?_⟩ fun code hcode =>
      delivers_ok (.append hset (allPlain_checked (.of_refs rfl (List.forall_mem_nil _)) hcode
        hcheck _))
    exact (hdest.complete ht).storeFloat (hdest.accepts ht) (.var .element)

/-- The parts of a load, whatever its key is. -/
theorem loadParts {d : Demand} (h : c.Handles T P ⟨[.value, d], some .any⟩ i) :
    Delivers T (c.loadParts i) fun r =>
      c.Reads T P .value r.1 ∧ c.Reads T P d r.2.1 ∧ ∀ x ∈ r.2.2.refs none, P x :=
  (h.target rfl).bind fun _ ht => (h.operand 0 rfl).bind fun _ ha =>
    (h.operand 1 rfl).bind fun _ hk => ht.address.bind fun _ hd => delivers_ok ⟨ha, hk, hd⟩

theorem load (h : c.Handles T P ⟨[.value, .value], some .any⟩ i) :
    Delivers T (c.load i) (AllPlain P) := by
  refine h.loadParts.bind ?_
  rintro ⟨container, key, dest⟩ ⟨ha, hk, hd⟩
  refine h.tagged (by decide) ha fun setT t hsetT ht => ?_
  refine h.tagged (by decide) hk fun setK k hsetK hk => ?_
  exact delivers_ok (.append (.append hsetT hsetK) (.invokeWith ht hk hd))

theorem loadByInt (h : c.Handles T P ⟨[.value, .int], some .any⟩ i) :
    Delivers T (c.loadByInt i) (AllPlain P) := by
  refine h.loadParts.bind ?_
  rintro ⟨container, key, dest⟩ ⟨ha, hk, hd⟩
  refine h.tagged (by decide) ha fun setT t hsetT ht => ?_
  exact hk.intValue.bind fun k hk => delivers_ok (.append hsetT (.invokeWith ht hk hd))

theorem loadByString (h : c.Handles T P ⟨[.value, .stringKey], some .any⟩ i) :
    Delivers T (c.loadByString i) (AllPlain P) := by
  refine h.loadParts.bind ?_
  rintro ⟨container, key, dest⟩ ⟨ha, hk, hd⟩
  refine h.tagged (by decide) ha fun setT t hsetT ht => ?_
  exact hk.stringKey.bind fun k hk => delivers_ok (.append hsetT (.invokeWith ht hk hd))

theorem storeGlobal (h : c.Handles T P ⟨[.nothing, .stringKey, .value], none⟩ i) :
    Delivers T (c.storeGlobal i) (AllPlain P) := by
  refine (h.operand 1 rfl).bind fun o ho => ho.stringKey.bind fun name hname =>
    (h.operand 2 rfl).bind fun v hv => h.tagged (by decide) hv fun set value hset hvalue => ?_
  exact delivers_ok (.append hset (.invokeWith (List.forall_mem_nil _) hname hvalue))

theorem storeParts {d : Demand} (h : c.Handles T P ⟨[.value, d, .value], none⟩ i) :
    Delivers T (c.storeParts i) fun r =>
      c.Reads T P .value r.1 ∧ c.Reads T P d r.2.1 ∧ c.Reads T P .value r.2.2 :=
  (h.operand 0 rfl).bind fun _ ha => (h.operand 1 rfl).bind fun _ hk =>
    (h.operand 2 rfl).bind fun _ hv => delivers_ok ⟨ha, hk, hv⟩

theorem readInt (ho : c.Reads T P .value o) : Delivers T (c.readInt o) (AllPlain P) := by
  refine ho.holding.bind fun held hheld => ?_
  split
  · exact (ho.change fun ht => (hheld ht).2).intValue.bind fun e he =>
      delivers_ok (.single (.of_refs rfl he))
  · exact (ho.change fun ht => (hheld ht).2).floatValue.bind fun e he => delivers_ok
      (.single (.of_refs rfl (List.forall_mem_append.mpr ⟨he, List.forall_mem_nil _⟩)))
  · exact (ho.change hheld).address.bind fun a ha =>
      delivers_ok (.cons (.of_refs rfl ha) (.single (.of_refs rfl ha)))
  · exact delivers_ok (.raise _)
  · exact delivers_ok (.raise _)

theorem readFloat (ho : c.Reads T P .value o) : Delivers T (c.readFloat o) (AllPlain P) := by
  refine ho.holding.bind fun held hheld => ?_
  split
  · exact (ho.change fun ht => (hheld ht).2.float).floatValue.bind fun e he =>
      delivers_ok (.single (.of_refs rfl he))
  · exact (ho.change fun ht => (hheld ht).2).floatValue.bind fun e he =>
      delivers_ok (.single (.of_refs rfl he))
  · exact (ho.change hheld).address.bind fun a ha => delivers_ok (.single (.of_refs rfl ha))
  · exact delivers_ok (.raise _)
  · exact delivers_ok (.raise _)

theorem storeElement (h : c.Handles T P ⟨[.value, .int, .value], none⟩ i) (kind : ElementKind) :
    Delivers T (c.storeElement kind i) (AllPlain P) := by
  refine h.storeParts.bind ?_
  rintro ⟨container, key, value⟩ ⟨ha, hk, hv⟩
  refine h.tagged (by decide) ha fun set array hset harray => ?_
  refine hk.intValue.bind fun index hindex => ?_
  have hcheck : ∀ x ∈ (Check.storeElement kind array index).refs none, P x :=
    List.forall_mem_append.mpr ⟨harray, hindex⟩
  have hscope {read : List Code} (hread : AllPlain P read) : AllPlain P (set ++
      [.scope (read ++ [.guard (.storeElement kind array index) .arrayOutOfBounds])]) :=
    .append hset (.scope (.append hread (.single (.of_refs rfl hcheck))))
  cases kind with
  | int => exact (readInt hv).bind fun read hread =>
      delivers_ok (hscope (.cons (.of_refs rfl (List.forall_mem_nil _)) hread))
  | float => exact (readFloat hv).bind fun read hread =>
      delivers_ok (hscope (.cons (.of_refs rfl (List.forall_mem_nil _)) hread))

theorem storeByKey (h : c.Handles T P ⟨[.value, .value, .value], none⟩ i) :
    Delivers T (c.storeByKey i) (AllPlain P) := by
  refine h.storeParts.bind ?_
  rintro ⟨container, key, value⟩ ⟨ha, hk, hv⟩
  refine h.tagged (by decide) ha fun setT t hsetT ht => ?_
  refine h.tagged (by decide) hk fun setK k hsetK hk => ?_
  refine h.tagged (by decide) hv fun setV v hsetV hv => ?_
  exact delivers_ok (.append (.append (.append hsetT hsetK) hsetV) (.invokeWith ht hk hv))

theorem storeByInt (h : c.Handles T P ⟨[.value, .int, .value], none⟩ i) :
    Delivers T (c.storeByInt i) (AllPlain P) := by
  refine h.storeParts.bind ?_
  rintro ⟨container, key, value⟩ ⟨ha, hk, hv⟩
  refine h.tagged (by decide) ha fun setT t hsetT ht => ?_
  refine hk.intValue.bind fun k hk => h.tagged (by decide) hv fun setV v hsetV hv => ?_
  exact delivers_ok (.append (.append hsetT hsetV) (.invokeWith ht hk hv))

theorem storeByString (h : c.Handles T P ⟨[.value, .stringKey, .value], none⟩ i) :
    Delivers T (c.storeByString i) (AllPlain P) := by
  refine h.storeParts.bind ?_
  rintro ⟨container, key, value⟩ ⟨ha, hk, hv⟩
  refine h.tagged (by decide) ha fun setT t hsetT ht => ?_
  refine hk.stringKey.bind fun k hk => h.tagged (by decide) hv fun setV v hsetV hv => ?_
  exact delivers_ok (.append (.append hsetT hsetV) (.invokeWith ht hk hv))

end Elements

/-- Every instruction with a signature that does not end a block. -/
theorem plain (h : c.Handles T P sig i) (hs : i.opcode.signature = some sig)
    (ht : i.opcode.isTerminator = false) : Delivers T (c.instr i) (AllPlain P) := by
  unfold CodeContext.instr
  obtain ⟨opcode, operands, targets, block⟩ := i
  cases opcode with cases hs
  | br | cbr => cases ht
  | mov => exact h.move
  | movI => exact h.moveInt
  | movF | movIF => exact h.moveFloat
  | movFI => exact h.moveFloatToInt
  | newTable | newIArray | newFArray => exact h.construct _
  | addII | subII | mulII | bandII | borII | bxorII | shlII | shrII => exact h.intArith fun _ _ => rfl
  | addFF | addIF | subFF | subFI | subIF | mulFF | mulIF | divFF | divFI | divIF | divII =>
    exact h.floatArith _
  | concat => exact h.taggedArith (List.forall_mem_nil _)
  | add | sub | mul | div | idiv | mod | pow | band | bor | bxor | shl | shr =>
    exact h.taggedArith (List.forall_mem_singleton.mpr (List.forall_mem_nil _))
  | eqII | ltII | leII => exact h.compareInts _
  | eqFF | ltFF | leFF => exact h.compareFloats _
  | eq | lt | le => exact h.compareTagged _
  | unmI => exact h.negateInt
  | unmF => exact h.negateFloat
  | not => exact h.not
  | lenI => exact h.arrayLength
  | len => exact h.length
  | unm | bnot => exact h.taggedUnary
  | toInt => exact h.castInt
  | toFlt => exact h.castFloat
  | toIArray | toFArray | toTable | toString | toClosure => exact h.castTagged _ fun _ => rfl
  | loadGlobal => exact h.loadGlobal
  | iarrayGet | farrayGet => exact h.loadElement
  | get | tableGet => exact h.load
  | getIK | tableGetIK => exact h.loadByInt
  | getSK | tableGetSK => exact h.loadByString
  | storeGlobal => exact h.storeGlobal
  | iarraySet | farraySet => exact h.storeElement _
  | put | tableSet => exact h.storeByKey
  | putIK | tableSetIK => exact h.storeByInt
  | putSK | tableSetSK => exact h.storeByString

end Handles

namespace CoversInstr

theorem mem_splitTail (os : List Operand) :
    (∀ o ∈ (splitTail os).1, o ∈ os) ∧ ∀ o ∈ (splitTail os).2, o ∈ os := by
  unfold splitTail
  split
  · rename_i o ho
    split
    · refine ⟨fun o ho => (List.dropLast_sublist os).mem ho, ?_⟩
      rintro _ ⟨⟩
      exact List.mem_of_getLast? ho
    · exact ⟨fun o ho => ho, nofun⟩
  · exact ⟨fun o ho => ho, nofun⟩

/-- A narrowed range starts where the range does. -/
theorem covers_narrowed (ho : c.Covers P o) : c.Covers P (narrowed o) := by
  unfold narrowed
  split
  · exact ⟨ho.slot, nofun, nofun, nofun⟩
  · exact ho

theorem tailSlot (ho : c.Covers P o) :
    Yields (c.tailSlot o) fun s => c.frame.position o = some s ∧ P (.slot s) := by
  refine (yields_slot? o).bind fun s hs => ?_
  split
  · exact yields_ok ⟨hs.symm, ho.slot _ hs.symm⟩
  · exact yields_error

theorem moveTail {tail : Option Operand} (ht : ∀ o ∈ tail, c.Covers P o) (dest : Int)
    (func : Option Nat) :
    Yields (c.moveTail tail dest) fun code => ∀ st ∈ code, st.Plain P func := by
  unfold CodeContext.moveTail
  split
  · rename_i o
    refine (tailSlot (ht o rfl)).bind fun s hs => yields_ok ?_
    simp only [List.forall_mem_cons]
    exact ⟨.of_refs rfl (List.forall_mem_singleton.mpr hs.2), .of_refs rfl (List.forall_mem_nil _),
      List.forall_mem_nil _⟩
  · exact yields_ok (List.forall_mem_nil _)

variable (h : c.CoversInstr P i)
include h

theorem conditional : Yields (c.conditional i) (AllKeep P) := by
  refine (yields_operand i 0).bind fun cond hcond => yields_bind_any fun onTrue =>
    yields_bind_any fun onFalse => ?_
  refine (h.operands cond (List.mem_of_getElem? hcond)).falsity.bind fun r hr => ?_
  split
  · exact yields_ok (List.forall_mem_singleton.mpr ⟨by simp, List.forall_mem_nil _⟩)
  · exact yields_ok (List.forall_mem_singleton.mpr ⟨by simp, List.forall_mem_nil _⟩)
  · exact yields_ok (List.forall_mem_singleton.mpr ⟨by simp, hr _ rfl⟩)

/-- All but the last statement of a return stays in its block. -/
theorem ret : Yields (c.ret i) fun code =>
    ∃ body, AllPlain P body ∧ code = [.scope (body ++ [.goto exitBlock])] := by
  unfold CodeContext.ret
  obtain ⟨hfixed, htail⟩ := mem_splitTail i.operands
  generalize splitTail i.operands = parts at hfixed htail ⊢
  obtain ⟨fixed, tail⟩ := parts
  have hkept : Yields (fixed.zipIdx.mapM fun x => c.store (.kept x.2) (narrowed x.1))
      (AllPlain P) := by
    refine yields_mapM ?_
    rintro ⟨o, j⟩ ho
    have hmem := hfixed o (List.fst_mem_of_mem_zipIdx ho)
    exact (covers_narrowed (h.operands o hmem)).store (List.forall_mem_nil _)
  refine hkept.bind fun kept hkept => ?_
  refine (moveTail (fun o ho => h.operands o (htail o ho)) _ none).bind fun moved hmoved => ?_
  have hkeep : AllPlain P (if fixed.length = 0 then [] else [.keep fixed.length]) := by
    split
    · exact .nil
    · exact .single (.of_refs rfl (List.forall_mem_nil _))
  have hcopies : AllPlain P ((List.range fixed.length).map fun j => .copy (.result j) (.kept j)) :=
    List.forall_mem_map.mpr fun j _ => .of_refs rfl (List.forall_mem_nil _)
  have hset : AllPlain P [.setResults fixed.length tail.isSome] :=
    .single (.of_refs rfl (List.forall_mem_nil _))
  refine yields_ok ⟨_, (((hkeep.append hkept).append hmoved).append hcopies).append hset, ?_⟩
  simp only [List.append_assoc]
  rfl

/-- Arguments and results of a call are counted from the slot of its callee. -/
theorem call (hcall : ∀ base s, i.operands[0]? = some (.tempAny base) →
      c.frame.position (.tempAny base) = some s → c.CoversCall P i s) :
    Yields (c.call i) (AllPlain P) := by
  unfold CodeContext.call
  refine (yields_operand i 0).bind fun callee hcallee => ?_
  have hcovers := h.operands callee (List.mem_of_getElem? hcallee)
  dsimp only
  split
  · rename_i base
    refine (tailSlot hcovers).bind fun s ⟨hs, hslot⟩ => (yields_target i 1).bind fun k hk => ?_
    obtain ⟨hargs, hresults⟩ := hcall base s hcallee hs
    split
    · rename_i n hn
      have hmem := mem_splitTail i.operands.tail
      rw [pure_bind]
      generalize splitTail i.operands.tail = parts at hmem hargs ⊢
      obtain ⟨fixed, tail⟩ := parts
      obtain ⟨hfixed, htail⟩ := hmem
      have hcover {o : Operand} (ho : o ∈ i.operands.tail) : c.Covers P o :=
        h.operands o (List.mem_of_mem_tail ho)
      refine (moveTail (fun o ho => hcover (htail o ho)) _ (some s)).bind fun moved hmoved => ?_
      have hstores : Yields (fixed.zipIdx.reverse.mapM fun x =>
          c.store (.argument (x.2 + 1)) (narrowed x.1)) fun code => ∀ st ∈ code, st.Plain P (some s) := by
        refine yields_mapM ?_
        rintro ⟨o, j⟩ ho
        have hj := List.mem_zipIdx' (List.mem_reverse.mp ho)
        refine (covers_narrowed (hcover (hfixed o ?_))).store ?_
        · exact hj.2 ▸ List.getElem_mem _
        · exact List.forall_mem_singleton.mpr (hargs j hj.1)
      have hcalled : (Code.call n).Plain P (some s) :=
        .of_refs rfl (List.forall_mem_map.mpr fun k' hk' =>
          hresults k' n (by rw [hk]; exact hn) (List.mem_range.mp hk'))
      refine hstores.bind fun args hstored => ?_
      have hrest : ∀ st ∈ moved ++ args ++ [.setTop (fixed.length + 1) tail.isSome, .call n,
          .reloadBase] ++ (if 0 ≤ n then [Code.restoreTop] else []), st.Plain P (some s) := by
        simp only [List.forall_mem_append, List.forall_mem_cons]
        refine ⟨⟨⟨hmoved, hstored⟩, .of_refs rfl (List.forall_mem_nil _), hcalled,
          .of_refs rfl (List.forall_mem_nil _), List.forall_mem_nil _⟩, ?_⟩
        split
        · exact List.forall_mem_singleton.mpr (.of_refs rfl (List.forall_mem_nil _))
        · exact List.forall_mem_nil _
      refine yields_ok (.single { callee := by simp, refs := ?_, stays := stays_scope ?_ })
      · exact List.forall_mem_cons.mpr ⟨hslot, Code.forall_mem_refsOf fun st hst =>
          (hrest st hst).toKeeps⟩
      · exact List.forall_mem_cons.mpr ⟨List.forall_mem_nil _, fun st hst => (hrest st hst).stays⟩
    · exact yields_error
  · exact yields_error

theorem closure (hchild : ∀ child n, i.operands[0]? = some (.proc child) →
      c.children.idxOf? child = some n → P (.child n)) : Yields (c.closure i) (AllPlain P) := by
  refine (yields_operand i 0).bind fun o ho => ?_
  split
  · rename_i child
    split
    · rename_i n hn
      refine (yields_target i 0).bind fun t ht =>
        ((h.targets t (List.mem_of_getElem? ht)).address none).bind fun a ha =>
        yields_ok (.invoke ?_)
      simp only [List.forall_mem_cons]
      exact ⟨List.forall_mem_nil _, List.forall_mem_nil _, List.forall_mem_nil _,
        List.forall_mem_singleton.mpr (hchild child n ho hn), ha, List.forall_mem_nil _⟩
    · exact yields_error
  · exact yields_error

/-- The code of an instruction refers to what its operands stand for, and only a terminator leaves
its block, but for errors. -/
theorem instr (hcall : i.opcode = .call → ∀ base s, i.operands[0]? = some (.tempAny base) →
      c.frame.position (.tempAny base) = some s → c.CoversCall P i s)
    (hchild : i.opcode = .closure → ∀ child n, i.operands[0]? = some (.proc child) →
      c.children.idxOf? child = some n → P (.child n)) :
    Yields (c.instr i) fun code =>
      AllKeep P code ∧ (i.opcode.isTerminator = false → ∀ st ∈ code, st.Stays) := by
  have hplain {code : List Code} (h : AllPlain P code) :
      AllKeep P code ∧ (i.opcode.isTerminator = false → ∀ st ∈ code, st.Stays) :=
    ⟨fun st hst => (h st hst).toKeeps, fun _ st hst => (h st hst).stays⟩
  cases hs : i.opcode.signature with
  | some sig =>
    cases ht : i.opcode.isTerminator with
    | false =>
      have hi : c.Handles False P sig i := ⟨h, False.elim, False.elim⟩
      exact (hi.plain hs ht).yields.mono fun _ hcode => ht ▸ hplain hcode
    | true =>
      refine Yields.mono (Q := AllKeep P) ?_ fun code hcode => ⟨hcode, nofun⟩
      unfold CodeContext.instr
      cases ho : i.opcode with
      | br => exact yields_bind_any fun b =>
          yields_ok (List.forall_mem_singleton.mpr ⟨by simp, List.forall_mem_nil _⟩)
      | cbr => exact h.conditional
      | ret =>
        rw [ho] at hs
        cases hs
      | _ =>
        rw [ho] at ht
        cases ht
  | none =>
    unfold CodeContext.instr
    cases ho : i.opcode with
    | ret =>
      refine h.ret.mono ?_
      rintro _ ⟨body, hbody, rfl⟩
      refine ⟨List.forall_mem_singleton.mpr (keeps_scope (List.forall_mem_append.mpr ⟨fun st hst =>
        (hbody st hst).toKeeps, ?_⟩)), nofun⟩
      exact List.forall_mem_singleton.mpr ⟨by simp, List.forall_mem_nil _⟩
    | call => exact (h.call (hcall ho)).mono fun _ hcode => ho ▸ hplain hcode
    | closure => exact (h.closure (hchild ho)).mono fun _ hcode => ho ▸ hplain hcode
    | _ =>
      rw [ho] at hs
      cases hs

end CoversInstr

end CodeContext

end ScriptC
