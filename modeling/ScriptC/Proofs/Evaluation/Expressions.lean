import ScriptC.Proofs.Blocks.Trees
import ScriptC.Proofs.Calls.Trees
import ScriptC.Proofs.Evaluation.Pieces

/-! # Code of expressions

The code of an expression delivers the value that its evaluation has, with the same trace. This is
shown for one form of expression at a time, with the code of its parts given.
-/

namespace ScriptC

section Opcodes

variable {x y v : Datum} {trace : List Event}

theorem OperandClass.of_eq_int {ty : Ty} : OperandClass.of ty = .int ↔ ty = .integer := by
  cases ty <;> simp [OperandClass.of]

theorem OperandClass.of_eq_float {ty : Ty} : OperandClass.of ty = .float ↔ ty = .number := by
  cases ty <;> simp [OperandClass.of]

/-- The opcode of an operator applies it, and its result fits where it goes. -/
theorem Selection.compute?_unary {op : UnaryOp} {ty : Ty} (hop : op.isScalar = true)
    (hf : ty ≠ .number) (hi : ty = .integer → x.isInt = true)
    (h : op.perform x = some (v, trace)) :
    (Selection.unary op ty).opcode.compute? [x] = some (v, trace) ∧
      (Selection.unary op ty).result.takes v = true := by
  obtain ⟨w, hw, he⟩ := Option.map_eq_some_iff.mp h
  obtain ⟨rfl, rfl⟩ := Prod.mk.inj he
  obtain rfl | rfl : op = .neg ∨ op = .not := by simpa [UnaryOp.isScalar] using hop
  · obtain ⟨n, rfl⟩ : ∃ n, x = .int n := by cases x <;> simp [UnaryOp.apply] at hw ⊢
    obtain rfl : .int (-n) = w := by simpa [UnaryOp.apply] using hw
    cases ty <;> first | contradiction | exact ⟨rfl, rfl⟩
  · exact ⟨by simp [Selection.unary, Opcode.compute?, Opcode.wantsInts, Opcode.unaryOp?, hw], rfl⟩

/-- Operators with opcodes of their own. -/
def BinaryOp.isCanonical : BinaryOp → Bool
  | .gt | .ge | .ne | .and | .or => false
  | op => op.isScalar

theorem Selection.binary?_canonical {op : BinaryOp} (hop : op.isCanonical = true)
    (cx cy : OperandClass) : ∃ sel, Selection.binary? op cx cy = some sel := by
  cases op <;> cases hop <;> cases cx <;> cases cy <;> exact ⟨_, rfl⟩

theorem Selection.compute?_binary {op : BinaryOp} {cx cy : OperandClass} {sel : Selection}
    (hop : op.isCanonical = true) (hsel : Selection.binary? op cx cy = some sel)
    (hx : cx ≠ .float) (hy : cy ≠ .float)
    (hxi : cx = .int → x.isInt = true) (hyi : cy = .int → y.isInt = true)
    (h : op.apply x y = some v) :
    sel.opcode.compute? [x, y] = some (v, [.binary op x y]) ∧ sel.result.takes v = true := by
  by_cases hints : cx = .int ∧ cy = .int
  · obtain ⟨rfl, rfl⟩ := hints
    obtain ⟨m, rfl⟩ := Datum.isInt_iff.mp (hxi rfl)
    obtain ⟨n, rfl⟩ := Datum.isInt_iff.mp (hyi rfl)
    cases op <;> cases hop <;> cases h <;> cases hsel <;> exact ⟨rfl, rfl⟩
  · -- without two integers the opcode is generic
    have hgeneric : sel.result = .any ∧ sel.opcode.wantsInts = false ∧
        sel.opcode.binaryOp? = some op := by
      cases op <;> cases hop <;> cases cx <;> cases cy <;> cases hsel <;>
        first | contradiction | (exact absurd ⟨rfl, rfl⟩ hints) | exact ⟨rfl, rfl, rfl⟩
    obtain ⟨hany, hw, hb⟩ := hgeneric
    rw [hany]
    exact ⟨by simp [Opcode.compute?, hw, hb, h], rfl⟩

/-- What the instructions for a canonical form do. -/
def Canonical.perform (form : Canonical) (x y : Datum) : Option (Traced Event Datum) :=
  let (a, b) := if form.swap then (y, x) else (x, y)
  do
    let w ← form.op.apply a b
    if form.negate then
      let (v, last) ← UnaryOp.not.perform w
      return (v, .binary form.op a b :: last)
    return (w, [.binary form.op a b])

theorem Canonical.perform_of {op : BinaryOp} {cx cy : OperandClass} (hop : op.isScalar = true)
    (hl : op.isLogical = false) (hx : cx ≠ .float) :
    (Canonical.of op cx cy).op.isCanonical = true ∧
      (Canonical.of op cx cy).perform x y = op.perform x y := by
  have hmap : ∀ (c : BinaryOp) (a b : Datum), (do
      let w ← c.apply a b
      pure (w, [Event.binary c a b])) = (c.apply a b).map (·, [Event.binary c a b]) :=
    fun c a b => by cases c.apply a b <;> rfl
  cases op <;> cases hop <;> cases hl <;> cases cx <;>
    first | contradiction | exact ⟨rfl, rfl⟩ | exact ⟨rfl, hmap _ _ _⟩

theorem Canonical.perform_eq_some {form : Canonical} (h : form.perform x y = some (v, trace)) :
    ∃ a b w last, (a, b) = (if form.swap then (y, x) else (x, y)) ∧ form.op.apply a b = some w ∧
      (if form.negate then UnaryOp.not.perform w = some (v, last) else v = w ∧ last = []) ∧
      trace = .binary form.op a b :: last := by
  unfold Canonical.perform at h
  split at h
  rename_i a b hab
  obtain ⟨w, hw, h⟩ := Option.bind_eq_some_iff.mp h
  split at h <;> rename_i hn
  · obtain ⟨⟨u, last⟩, hu, h⟩ := Option.bind_eq_some_iff.mp h
    cases h
    exact ⟨a, b, w, last, hab.symm, hw, by simpa [hn] using hu, rfl⟩
  · cases h
    exact ⟨a, b, v, [], hab.symm, hw, by simp [hn], rfl⟩

end Opcodes

namespace Proc

variable {p q : Proc} {b c : Nat} {o : Operand} {R R' : Meaning Datum} {pending : List Nat}

theorem Delivers.mono (h : p.Delivers b q c o R) (hR : ∀ l v trace, R' l v trace → R l v trace) :
    p.Delivers b q c o R' :=
  { h with runs := fun st v trace hv => h.runs st v trace (hR _ _ _ hv) }

/-- An operand that owns nothing needs no instructions. -/
theorem Delivers.immediate (hc : p.Extends q) (hids : q.ids b = p.ids b)
    (hl : ∀ kind r, q.IsLive kind r ↔ p.IsLive kind r) (ho : owned? o = none)
    (hR : ∀ st v trace, R st.locals v trace → trace = [] ∧ q.read st o = some v) :
    p.Delivers b q b o R where
  code := hc
  fresh kind r h := by simp [ho] at h
  live kind r := by simp [hl, ho]
  runs st v trace hv := by
    obtain ⟨rfl, hr⟩ := hR st v trace hv
    have hend : q.atEnd b st = p.atEnd b st := by simp only [Proc.atEnd, hids]
    exact ⟨st, hend ▸ Reaches.refl _ _, hr, Kept.refl p st⟩

end Proc

/-- The function with one more instruction in its current block. -/
def FunctionState.emitted (fn : FunctionState) (opcode : Opcode) (operands targets : List Operand) :
    FunctionState :=
  { fn with proc := fn.proc.appended fn.block ⟨opcode, operands, targets, fn.block⟩ }

def FunctionState.moved (fn : FunctionState) (o dest : Operand) : FunctionState :=
  { fn with proc := fn.proc.moved fn.block o dest }

/-- The function takes instructions, with these locals in scope. -/
structure LoweringState.Prepared (scopes : List (List (SymbolId × Nat))) (pending : List Nat)
    (s : LoweringState) : Prop where
  ready : s.fn.proc.Ready s.fn.block pending
  scopes_eq : s.fn.scopes = scopes

namespace Lower

variable {α : Type} {s : LoweringState} {Q : α → LoweringState → Prop}
  {E : Failure → LoweringState → Prop} {pending : List Nat}
  {scopes : List (List (SymbolId × Nat))} {R R₁ R₂ : Meaning Datum}

/-- The code that was added to `p` after the end of `b` delivers a value. -/
def Delivered (scopes : List (List (SymbolId × Nat))) (pending : List Nat) (p : Proc) (b : Nat)
    (R : Meaning Datum) (o : Operand) (s : LoweringState) : Prop :=
  s.Prepared scopes pending ∧ p.Delivers b s.fn.proc s.fn.block o R

/-- With these locals in scope, the action succeeds and its code delivers a value. -/
def Supplies (scopes : List (List (SymbolId × Nat))) (x : Lower Operand) (R : Meaning Datum) :
    Prop :=
  ∀ ⦃pending : List Nat⦄ ⦃s : LoweringState⦄, s.Prepared scopes pending →
    Ends x s (Delivered scopes pending s.fn.proc s.fn.block R) fun _ _ => False

theorem Supplies.mono {x : Lower Operand} (h : Supplies scopes x R₁)
    (hR : ∀ l v trace, R l v trace → R₁ l v trace) : Supplies scopes x R :=
  fun _ _ hs => (h hs).imp fun _ _ h' => ⟨h'.1, h'.2.mono hR⟩

section Primitives

theorem ends_free_live {Q : Unit → LoweringState → Prop} {o : Operand}
    (h : ∀ kind r, Proc.owned? o = some (kind, r) → s.fn.proc.IsLive kind r) :
    Ends (free o) s Q E ↔ Q () (s.withProc (s.fn.proc.freed o)) := by
  simp only [free, ends_tryProc, Proc.freeTemp_eq h]
  rfl

theorem prepared_free {o : Operand} (h : s.Prepared scopes pending)
    (ho : ∀ kind r, Proc.owned? o = some (kind, r) → s.fn.proc.IsLive kind r) :
    (s.withProc (s.fn.proc.freed o)).Prepared scopes pending :=
  ⟨Proc.sameCode_freed.ready h.ready (Proc.wellFormed_freed h.ready.pools ho), h.scopes_eq⟩

theorem ends_append_current {Q : Nat → LoweringState → Prop} {opcode : Opcode}
    {operands targets : List Operand} (hb : s.fn.block < s.fn.proc.blocks.size)
    (hQ : ∀ i s', s'.fn = s.fn.emitted opcode operands targets → Q i s') :
    Ends (append opcode operands targets) s Q E := by
  simp only [append, ends_bind, ends_get, ends_tryProc, Proc.emit_eq, if_pos hb, ends_modifyStats]
  split
  · exact hQ _ _ rfl
  · exact hQ _ _ rfl

theorem ends_emit_ready {Q : Unit → LoweringState → Prop} {opcode : Opcode}
    {operands targets : List Operand} (h : s.fn.proc.Ready s.fn.block pending)
    (hQ : ∀ s', s'.fn = s.fn.emitted opcode operands targets → Q () s') :
    Ends (emit opcode operands targets) s Q E := by
  rw [ends_emit, opened_of_open h.isOpen]
  exact ends_append_current h.laid.current_lt fun _ => hQ

/-- A generic temporary takes a value as it is. -/
theorem ends_move_ready {Q : Unit → LoweringState → Prop} {o : Operand} {r : Nat}
    (h : s.fn.proc.Ready s.fn.block pending)
    (hQ : ∀ s', s'.fn = s.fn.moved o (.tempAny r) → Q () s') :
    Ends (move o .any (.tempAny r)) s Q E := by
  unfold FunctionState.moved Proc.moved at hQ
  unfold move
  split <;> rename_i hs
  · exact hQ s (by rw [if_pos hs])
  · refine ends_emit_ready h fun s' hs' => hQ s' ?_
    rw [hs', if_neg hs]
    rfl

end Primitives

section Leaves

/-- Where a local in scope is kept. -/
def register? (symbols : SymbolTable) (scopes : List (List (SymbolId × Nat))) (id : SymbolId) :
    Option Nat :=
  match symbols.get? id with
  | some ⟨_, _, .localOf _⟩ => scopes.flatten.lookup id
  | _ => none

theorem supplies_pure {o : Operand} (ho : Proc.owned? o = none)
    (hR : ∀ (p : Proc) st v trace, R st.locals v trace → trace = [] ∧ p.read st o = some v) :
    Supplies scopes (pure o) R := by
  intro pending s hs
  exact ⟨hs, .immediate (.refl _) rfl (fun _ _ => Iff.rfl) ho (hR s.fn.proc)⟩

theorem supplies_intConstant (n : Int64) :
    Supplies scopes (intConstant n) fun _ v trace => v = .int n ∧ trace = [] := by
  intro pending s hs
  have hget := s.fn.proc.constants.get?_intern (.integer n)
  have hd : s.fn.proc.Delivers s.fn.block (s.fn.proc.intern (.integer n)).1 s.fn.block
      (s.fn.proc.intern (.integer n)).2.1 fun _ v trace => v = .int n ∧ trace = [] := by
    refine .immediate Proc.extends_intern rfl (fun _ _ => by simp [Proc.IsLive]) rfl ?_
    rintro st v trace ⟨rfl, rfl⟩
    refine ⟨rfl, ?_⟩
    simp only [Proc.intern, Proc.read, hget]
  have hr : (s.fn.proc.intern (.integer n)).1.Ready s.fn.block pending :=
    ⟨hs.ready.laid.of_eq rfl rfl, hs.ready.isOpen, fun kind => by simpa using hs.ready.pools kind⟩
  simp only [intConstant, constant, ends_bind, ends_onProc]
  split
  · exact ⟨⟨hr, hs.scopes_eq⟩, hd⟩
  · exact ⟨⟨hr, hs.scopes_eq⟩, hd⟩

theorem supplies_readSymbol {symbols : SymbolTable} {id : SymbolId} {r : Nat}
    (h : register? symbols scopes id = some r) :
    Supplies scopes (readSymbol symbols id) fun l v trace => v = l r ∧ trace = [] := by
  intro pending s hs
  unfold register? at h
  split at h
  · rename_i name ty f hsym
    have hlookup : s.fn.scopes.flatten.lookup id = some r := by rw [hs.scopes_eq, h]
    simp only [readSymbol, symbol, hsym, ends_bind, ends_pure, lookupLocal, ends_get, hlookup]
    refine ⟨hs, .immediate (.refl _) rfl (fun _ _ => Iff.rfl) rfl ?_⟩
    rintro st v trace ⟨rfl, rfl⟩
    exact ⟨rfl, rfl⟩
  · cases h

end Leaves

section Operators

variable {p q : Proc} {b c : Nat} {o x y : Operand} {os : List Operand} {S : Meaning (List Datum)}
  {lhs rhs : Part}

/-- An instruction on values that are computed, with its result in a new temporary. -/
theorem ends_instr {opcode : Opcode} {kind : TempKind} {f : Operand → Lower α}
    (h : p.Computes b s.fn.proc s.fn.block os S) (hs : s.Prepared scopes pending)
    (hop : opcode.isTerminator = false)
    (hR : ∀ l v trace, R l v trace → kind.takes v = true ∧ ∃ vs before last, S l vs before ∧
      opcode.compute? vs = some (v, last) ∧ trace = before ++ last)
    (hf : ∀ t s', Delivered scopes pending p b R t s' → Ends (f t) s' Q E) :
    Ends (do
      let target ← allocTemp kind
      emit opcode os [target]
      f target) s Q E := by
  have hr : (s.fn.proc.allocTemp kind).1.Ready s.fn.block pending :=
    Proc.sameCode_allocTemp.ready hs.ready (Proc.wellFormed_allocTemp hs.ready.pools)
  simp only [ends_bind, allocTemp, ends_onProc]
  refine ends_emit_ready hr fun s' hs' => hf _ _ ⟨⟨?_, ?_⟩, ?_⟩
  · rw [hs']
    refine hr.append hop fun c => ?_
    cases kind <;> simp [Proc.allocTemp, Operand.temp]
  · rw [hs']
    exact hs.scopes_eq
  · rw [hs']
    exact h.instr hs.ready hR

/-- Return what a delivered value owns, and use the value. -/
theorem ends_release {f : Lower α} (h : Delivered scopes pending p b R o s)
    (hf : ∀ s', s'.Prepared scopes pending →
      p.Computes b s'.fn.proc s'.fn.block [o] (fun l vs trace => ∃ v, vs = [v] ∧ R l v trace) →
      Ends f s' Q E) :
    Ends (do free o; f) s Q E := by
  obtain ⟨hs, hd⟩ := h
  rw [ends_bind, ends_free_live hd.owned]
  exact hf _ (prepared_free hs hd.owned) hd.release

theorem ends_release₂ {f : Lower α} (h : p.Delivers b q c x R₁)
    (h' : Delivered scopes pending q c R₂ y s)
    (hf : ∀ s', s'.Prepared scopes pending →
      p.Computes b s'.fn.proc s'.fn.block [x, y] (fun l vs trace => ∃ v w t t', vs = [v, w] ∧
        trace = t ++ t' ∧ R₁ l v t ∧ R₂ l w t') → Ends f s' Q E) :
    Ends (do free y; free x; f) s Q E := by
  obtain ⟨hs, hd⟩ := h'
  have hx : ∀ kind r, Proc.owned? x = some (kind, r) → (s.fn.proc.freed y).IsLive kind r := by
    intro kind r ho
    have hlive := h.owned kind r ho
    exact Proc.isLive_freed.mpr ⟨(hd.live kind r).mpr (.inl hlive), fun ho' => hd.fresh _ _ ho' hlive⟩
  rw [ends_bind, ends_free_live hd.owned, ends_bind, ends_free_live hx]
  exact hf _ (prepared_free (prepared_free hs hd.owned) hx) (h.release₂ hd)

theorem supplies_unary {op : UnaryOp} {part : Part} (h : Supplies scopes (one part) R₁)
    (hR : ∀ l v trace, R l v trace → ∃ x before last, R₁ l x before ∧
      (Selection.unary op part.ty).opcode.compute? [x] = some (v, last) ∧
      (Selection.unary op part.ty).result.takes v = true ∧ trace = before ++ last) :
    Supplies scopes (unary op part) R := by
  intro pending s hs
  rw [unary, ends_bind]
  refine (h hs).imp fun o s₁ h₁ => ?_
  refine ends_release h₁ fun s₂ hs₂ hc => ?_
  refine ends_instr (R := R) hc hs₂ (Selection.unary_isStraight _ _).1 ?_ fun _ _ => id
  intro l v trace hv
  obtain ⟨x, before, last, hx, hcomp, ht, rfl⟩ := hR l v trace hv
  exact ⟨ht, [x], before, last, ⟨x, rfl, hx⟩, hcomp, rfl⟩

/-- A canonical operator on computed values, and the negation of its result if need be. -/
theorem ends_canonical {op : BinaryOp} {cx cy : OperandClass} {sel : Selection} {negate : Bool}
    (h : p.Computes b s.fn.proc s.fn.block [x, y] S) (hs : s.Prepared scopes pending)
    (hop : op.isCanonical = true) (hsel : Selection.binary? op cx cy = some sel)
    (hx : cx ≠ .float) (hy : cy ≠ .float)
    (hR : ∀ l v trace, R l v trace → ∃ u w z before last, S l [u, w] before ∧
      op.apply u w = some z ∧ (cx = .int → u.isInt = true) ∧ (cy = .int → w.isInt = true) ∧
      (if negate then UnaryOp.not.perform z = some (v, last) else v = z ∧ last = []) ∧
      trace = before ++ .binary op u w :: last) :
    Ends (do
      let target ← allocTemp sel.result
      emit sel.opcode [x, y] [target]
      if negate then
        free target
        let negated ← allocTemp .any
        emit .not [target] [negated]
        return negated
      else return target) s (Delivered scopes pending p b R) E := by
  refine ends_instr (R := fun l z trace => ∃ u w before, S l [u, w] before ∧
    op.apply u w = some z ∧ (cx = .int → u.isInt = true) ∧ (cy = .int → w.isInt = true) ∧
      trace = before ++ [.binary op u w]) h hs (Selection.binary?_isStraight hsel).1 ?_ ?_
  · rintro l z trace ⟨u, w, before, hS, hz, hu, hw, rfl⟩
    obtain ⟨hcomp, ht⟩ := Selection.compute?_binary hop hsel hx hy hu hw hz
    exact ⟨ht, [u, w], before, _, hS, hcomp, rfl⟩
  · intro t s₁ h₁
    cases negate with
    | false =>
      refine ⟨h₁.1, h₁.2.mono fun l v trace hv => ?_⟩
      obtain ⟨u, w, z, before, last, hS, hz, hu, hw, ⟨rfl, rfl⟩, rfl⟩ := hR l v trace hv
      exact ⟨u, w, before, hS, hz, hu, hw, rfl⟩
    | true =>
      refine ends_release h₁ fun s₂ hs₂ hc => ?_
      refine ends_instr (R := R) hc hs₂ rfl ?_ fun _ _ => id
      intro l v trace hv
      obtain ⟨u, w, z, before, last, hS, hz, hu, hw, hnot, rfl⟩ := hR l v trace hv
      have hcomp : Opcode.not.compute? [z] = some (v, last) ∧ TempKind.any.takes v = true :=
        @Selection.compute?_unary z v last .not .any rfl (by simp) (by simp) hnot
      refine ⟨rfl, [z], before ++ [.binary op u w], last, ⟨z, rfl, ?_⟩, hcomp.1, by simp⟩
      exact ⟨u, w, before, hS, hz, hu, hw, rfl⟩

theorem supplies_arithmetic {op : BinaryOp} (hop : op.isScalar = true)
    (hlog : op.isLogical = false) (hl : Supplies scopes (one lhs) R₁)
    (hr : Supplies scopes (one rhs) R₂) (hlf : lhs.ty ≠ .number) (hrf : rhs.ty ≠ .number)
    (hR : ∀ l v trace, R l v trace → ∃ x y left right last, R₁ l x left ∧ R₂ l y right ∧
      op.perform x y = some (v, last) ∧ (lhs.ty = .integer → x.isInt = true) ∧
      (rhs.ty = .integer → y.isInt = true) ∧ trace = left ++ right ++ last) :
    Supplies scopes (arithmetic op lhs rhs) R := by
  intro pending s hs
  rw [arithmetic, ends_bind]
  refine (hl hs).imp fun a s₁ h₁ => ?_
  rw [ends_bind]
  refine (hr h₁.1).imp fun c s₂ h₂ => ?_
  extract_lets classA classB form
  have hA : classA ≠ .float := fun h => hlf (OperandClass.of_eq_float.mp h)
  have hB : classB ≠ .float := fun h => hrf (OperandClass.of_eq_float.mp h)
  have hcan : form.op.isCanonical = true :=
    (Canonical.perform_of (x := .nil) (y := .nil) hop hlog hA).1
  have hR' : ∀ l v trace, R l v trace → ∃ x y left right last, R₁ l x left ∧ R₂ l y right ∧
      form.perform x y = some (v, last) ∧ (classA = .int → x.isInt = true) ∧
      (classB = .int → y.isInt = true) ∧ trace = left ++ right ++ last := by
    intro l v trace hv
    obtain ⟨x, y, left, right, last, hx, hy, hp, hxi, hyi, rfl⟩ := hR l v trace hv
    refine ⟨x, y, left, right, last, hx, hy, ?_, fun h => hxi (OperandClass.of_eq_int.mp h),
      fun h => hyi (OperandClass.of_eq_int.mp h), rfl⟩
    rw [← hp]
    exact (Canonical.perform_of hop hlog hA).2
  clear_value form classA classB
  obtain ⟨op', swap, negate⟩ := form
  cases swap with
  | false =>
    obtain ⟨sel, hsel⟩ := Selection.binary?_canonical hcan classA classB
    simp only [Bool.false_eq_true, if_false, hsel]
    refine ends_release₂ h₁.2 h₂ fun s₃ hs₃ hc => ends_canonical hc hs₃ hcan hsel hA hB ?_
    intro l v trace hv
    obtain ⟨x, y, left, right, last, hx, hy, hp, hxi, hyi, rfl⟩ := hR' l v trace hv
    obtain ⟨_, _, w, last, ⟨⟩, hw, hn, rfl⟩ := Canonical.perform_eq_some hp
    exact ⟨x, y, w, left ++ right, last, ⟨x, y, left, right, rfl, rfl, hx, hy⟩, hw, hxi, hyi, hn, rfl⟩
  | true =>
    obtain ⟨sel, hsel⟩ := Selection.binary?_canonical hcan classB classA
    simp only [if_true, hsel]
    refine ends_release₂ h₁.2 h₂ fun s₃ hs₃ hc => ends_canonical hc.swap hs₃ hcan hsel hB hA ?_
    intro l v trace hv
    obtain ⟨x, y, left, right, last, hx, hy, hp, hxi, hyi, rfl⟩ := hR' l v trace hv
    obtain ⟨_, _, w, last, ⟨⟩, hw, hn, rfl⟩ := Canonical.perform_eq_some hp
    exact ⟨y, x, w, left ++ right, last, ⟨x, y, rfl, x, y, left, right, rfl, rfl, hx, hy⟩, hw, hyi,
      hxi, hn, rfl⟩

end Operators

section Branches

variable {p : Proc} {b r : Nat} {o : Operand} {lhs rhs : Part}

theorem ends_startBlock_sealed {Q : Unit → LoweringState → Prop} {c : Nat}
    (h : s.fn.proc.IsSealed s.fn.block) :
    Ends (startBlock c) s Q E ↔ Q () { s with fn := { s.fn with block := c } } := by
  simp [startBlock, h.isTerminated]

theorem ends_startBlock_ready {Q : Unit → LoweringState → Prop} {c : Nat}
    (h : s.fn.proc.Ready s.fn.block pending)
    (hQ : ∀ s', s'.fn = { s.fn.emitted .br [] [.block c] with block := c } → Q () s') :
    Ends (startBlock c) s Q E := by
  simp only [startBlock, ends_bind, ends_isTerminated, h.isOpen.isTerminated, Bool.false_eq_true,
    if_false, ends_discard]
  refine ends_append_current h.laid.current_lt fun i s' hs' => hQ _ ?_
  simp [hs']

/-- A waiting block takes instructions once a terminator ends the block before. -/
theorem ready_started {q : Proc} {c d : Nat} {i : Instr} (h : q.Ready c (d :: pending))
    (hi : i.opcode.isTerminator = true) (ht : i.TargetsWithin q.blocks.size) :
    (q.appended c i).Ready d pending where
  laid := (h.laid.append h.isOpen ht).start (h.laid.isSealed_appended h.isOpen hi)
  isOpen := by
    have hne : d ≠ c := fun he => h.laid.current_fresh (he ▸ List.mem_cons_self)
    have hempty := h.laid.pending_empty d List.mem_cons_self
    simp [Proc.IsOpen, Proc.ids_appended h.laid.current_lt, hne, hempty]
  pools kind := by simpa using h.pools kind

/-- A value moves to a generic temporary of its own. -/
theorem ends_hold {f : Operand → Lower α} (h : Delivered scopes pending p b R o s)
    (hf : ∀ r s', Delivered scopes pending p b R (.tempAny r) s' → Ends (f (.tempAny r)) s' Q E) :
    Ends (do
      free o
      let result ← allocTemp .any
      move o .any result
      f result) s Q E := by
  obtain ⟨hs, hd⟩ := h
  have hs₁ := prepared_free hs hd.owned
  have hr : ((s.fn.proc.freed o).allocTemp .any).1.Ready s.fn.block pending :=
    Proc.sameCode_allocTemp.ready hs₁.ready (Proc.wellFormed_allocTemp hs₁.ready.pools)
  rw [ends_bind, ends_free_live hd.owned]
  simp only [ends_bind, allocTemp, ends_onProc]
  refine ends_move_ready hr fun s' hs' => hf _ s' ⟨⟨?_, ?_⟩, ?_⟩
  · rw [hs']
    exact hr.moved
  · rw [hs']
    exact hs.scopes_eq
  · rw [hs']
    exact hd.held hs.ready rfl

/-- The right operand runs in a block of its own, between the test and the join. -/
theorem ends_rightBlock {op : BinaryOp} {fn : FunctionState} {q : Proc}
    {start join left right : Nat}
    (hfn : s.fn = fn.emitted .cbr [.tempAny r] [.block left, .block right])
    (hproc : fn.proc = q.newBlock.1.newBlock.1) (hsc : fn.scopes = scopes)
    (hl : p.Delivers b q fn.block (.tempAny r) R₁) (hq : q.Ready fn.block pending)
    (hr : Supplies scopes (one rhs) R₂) (hstart : start = q.blocks.size) (hjoin : join = q.blocks.size + 1)
    (hlt : left ≤ join ∧ right ≤ join)
    (hgo : ∀ v : Datum, (if v.isTrue then left else right) = if op.decides v then join else start)
    (hR : ∀ l v trace, R l v trace → ∃ x before, R₁ l x before ∧
      if op.decides x then v = x ∧ trace = before ++ [.test x]
      else ∃ after, R₂ l v after ∧ trace = before ++ .test x :: after) :
    Ends (do
      startBlock start
      let value ← one rhs
      free value
      move value .any (.tempAny r)
      startBlock join
      return .tempAny r) s (Delivered scopes pending p b R) fun _ _ => False := by
  subst hstart hjoin
  have hs : s.fn.proc = q.newBlock.1.newBlock.1.appended s.fn.block
      ⟨.cbr, [.tempAny r], [.block left, .block right], s.fn.block⟩ := by
    rw [hfn, FunctionState.emitted, hproc]
  have hb : fn.block = s.fn.block := by rw [hfn]; rfl
  have hsc : s.fn.scopes = scopes := by rw [hfn]; exact hsc
  rw [hb] at hl hq
  have hsize : q.newBlock.1.newBlock.1.blocks.size = q.blocks.size + 2 := by simp [Proc.newBlock]
  have hlaid : q.newBlock.1.newBlock.1.Laid s.fn.block
      (q.blocks.size :: (q.blocks.size + 1) :: pending) := by
    have h := hq.laid.newBlock.newBlock
    rw [show q.newBlock.1.blocks.size = q.blocks.size + 1 by simp [Proc.newBlock]] at h
    exact h.of_perm (List.Perm.swap _ _ _)
  have hready : q.newBlock.1.newBlock.1.Ready s.fn.block
      (q.blocks.size :: (q.blocks.size + 1) :: pending) :=
    ⟨hlaid, by simpa using hq.isOpen, fun kind => by simpa using hq.pools kind⟩
  have ht : Instr.TargetsWithin q.newBlock.1.newBlock.1.blocks.size
      ⟨.cbr, [.tempAny r], [.block left, .block right], s.fn.block⟩ :=
    targetsWithin_cbr (by omega) (by omega)
  have hsealed : s.fn.proc.IsSealed s.fn.block := by
    rw [hs]
    exact hlaid.isSealed_appended hready.isOpen rfl
  have hstarted : s.fn.proc.Ready q.blocks.size ((q.blocks.size + 1) :: pending) := by
    rw [hs]
    exact ready_started hready rfl ht
  have hempty : s.fn.proc.ids q.blocks.size = [] := by
    have hne : q.blocks.size ≠ s.fn.block := fun he =>
      hlaid.current_fresh (he ▸ List.mem_cons_self)
    rw [hs, Proc.ids_appended hlaid.current_lt, if_neg hne]
    exact hlaid.pending_empty _ List.mem_cons_self
  have hprepared : LoweringState.Prepared scopes ((q.blocks.size + 1) :: pending)
      { s with fn := { s.fn with block := q.blocks.size } } := ⟨hstarted, hsc⟩
  rw [ends_bind, ends_startBlock_sealed hsealed, ends_bind]
  refine (hr hprepared).imp fun o s₁ h₁ => ?_
  obtain ⟨hs₁, hd₁⟩ := h₁
  have hs₂ := prepared_free hs₁ hd₁.owned
  rw [ends_bind, ends_free_live hd₁.owned, ends_bind]
  refine ends_move_ready hs₂.ready fun s₃ hs₃ => ?_
  have hready₃ : s₃.fn.proc.Ready s₃.fn.block ((q.blocks.size + 1) :: pending) := by
    rw [hs₃]
    exact hs₂.ready.moved
  rw [ends_bind]
  refine ends_startBlock_ready hready₃ fun s₄ hs₄ => ⟨⟨?_, ?_⟩, ?_⟩
  · rw [hs₄]
    exact ready_started hready₃ rfl (targetsWithin_br (hready₃.laid.pending_lt _ List.mem_cons_self))
  · rw [hs₄]
    change s₃.fn.scopes = scopes
    rw [hs₃]
    exact hs₁.scopes_eq
  · rw [hs₄]
    change p.Delivers b (s₃.fn.emitted .br [] [.block (q.blocks.size + 1)]).proc _ _ R
    rw [FunctionState.emitted, hs₃]
    have hjoin := hs₁.ready.laid.pending_empty _ List.mem_cons_self
    have hne : q.blocks.size + 1 ≠ s₁.fn.block := fun he =>
      hs₁.ready.laid.current_fresh (he ▸ List.mem_cons_self)
    refine (hl.joined op (Proc.extends_newBlock.trans Proc.extends_newBlock) (by simp)
      hlaid.current_lt (by simp) hs.symm hgo hempty hd₁ hs₁.ready.laid.current_lt hjoin hne).mono hR

theorem supplies_logical {op : BinaryOp} (hop : op.isLogical = true)
    (hl : Supplies scopes (one lhs) R₁) (hr : Supplies scopes (one rhs) R₂)
    (hR : ∀ l v trace, R l v trace → ∃ x before, R₁ l x before ∧
      if op.decides x then v = x ∧ trace = before ++ [.test x]
      else ∃ after, R₂ l v after ∧ trace = before ++ .test x :: after) :
    Supplies scopes (logical op lhs rhs) R := by
  intro pending s hs
  rw [logical, ends_bind]
  refine (hl hs).imp fun left s₁ h₁ => ?_
  refine ends_hold h₁ fun r s₂ h₂ => ?_
  obtain ⟨hs₂, hd₂⟩ := h₂
  rw [ends_bind, ends_newBlock, ends_bind, ends_newBlock]
  extract_lets rest
  have hready : s₂.fn.proc.newBlock.1.newBlock.1.Ready s₂.fn.block
      (s₂.fn.proc.newBlock.1.blocks.size :: s₂.fn.proc.blocks.size :: pending) :=
    ⟨hs₂.ready.laid.newBlock.newBlock, by simpa using hs₂.ready.isOpen,
      fun kind => by simpa using hs₂.ready.pools kind⟩
  have hjoin : s₂.fn.proc.newBlock.1.blocks.size = s₂.fn.proc.blocks.size + 1 := by
    simp [Proc.newBlock]
  split <;> rename_i hand
  · subst hand
    rw [ends_bind]
    refine ends_emit_ready hready fun s₃ hs₃ => ?_
    refine ends_rightBlock hs₃ rfl hs₂.scopes_eq hd₂ hs₂.ready hr rfl hjoin ?_ (fun v => ?_) hR
    · exact ⟨by simp [Proc.newBlock], Nat.le_refl _⟩
    · cases hv : v.isTrue <;> simp [BinaryOp.decides, hv]
  · obtain rfl : op = .or := by simpa [BinaryOp.isLogical, hand] using hop
    rw [ends_bind]
    refine ends_emit_ready hready fun s₃ hs₃ => ?_
    refine ends_rightBlock hs₃ rfl hs₂.scopes_eq hd₂ hs₂.ready hr rfl hjoin ?_ (fun v => rfl) hR
    exact ⟨Nat.le_refl _, by simp [Proc.newBlock]⟩

end Branches

end Lower

end ScriptC
