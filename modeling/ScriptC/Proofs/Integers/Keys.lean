import ScriptC.Proofs.Policies.Origins
import ScriptC.Proofs.Calls.Tracking

/-! # Integer keys

An instruction that reads its key as an integer gets an integer constant or the value of a key that
is known to be an integer, with one exception: the constructor of an array takes every key for an
integer, whatever the key is.
-/

namespace ScriptC

open Lower

/-- The expression is the key of an element that is read or assigned to, or of an item. -/
def Tree.HasKey (t : Tree) (key : Expr) : Prop :=
  (∃ ty object, ⟨ty, .index object key⟩ ∈ t.occurrences) ∨
    ∃ ty items value, ⟨ty, .table items⟩ ∈ t.occurrences ∧ .keyed key value ∈ items

/-- On the way to the proc, the expression was lowered to the operand. -/
def Expr.LowersTo (symbols : SymbolTable) (p : Proc) (e : Expr) (o : Operand) : Prop :=
  Gave (LoweringState.LeadsTo p) (one (ofExpr symbols e)) o

theorem Lower.Gave.leadsTo {f : Site} {α : Type} {x : Lower α} {a : α}
    (h : Gave (LoweringState.Approaches f) x a) : Gave (LoweringState.LeadsTo f.proc) x a := by
  obtain ⟨s, s', hrun, hleads⟩ := h
  exact ⟨s, s', hrun, hleads.proc⟩

/-- A key that may be read as an integer. -/
def Tree.IsIntegerKey (t : Tree) (p : Proc) (k : Operand) : Prop :=
  (∃ n, p.constant? k = some (.integer n)) ∨
    ∃ key, t.HasKey key ∧ key.ty = .integer ∧ key.LowersTo t.symbols p k

/-- A key that an array constructor takes for an integer without knowing it to be one. -/
def Tree.IsUncheckedKey (t : Tree) (p : Proc) (opcode : Opcode) (k : Operand) : Prop :=
  ∃ ty items key value, ⟨ty, .table items⟩ ∈ t.occurrences ∧ .keyed key value ∈ items ∧
    ty.isArray = true ∧ opcode = (Shape.of ty).positional ∧ key.ty ≠ .integer ∧
    key.LowersTo t.symbols p k ∧ ∀ n, p.constant? k ≠ some (.integer n)

section Classes

variable {p : Proc} {k : Operand} {ty : Ty}

/-- A key of the class of integers is a constant, or has the type. -/
theorem Lower.Gave.keyClass_int (h : Gave (LoweringState.LeadsTo p) (keyClass k ty) .int) :
    (∃ n, p.constant? k = some (.integer n)) ∨ ty = .integer := by
  obtain ⟨s, s', hrun, hleads⟩ := h
  have hends : Ends (keyClass k ty) s (fun c s' => s' = s ∧
      (c = .int → (∃ n, s.fn.proc.constant? k = some (.integer n)) ∨ ty = .integer))
      fun _ _ => True := by
    simp only [keyClass, ends_bind, ends_get]
    split
    · simp
    · rename_i n hn
      simp [hn]
    · split
      · rename_i hty
        simp [Ty.eq_integer_of_isInteger hty]
      · simp
  obtain ⟨rfl, hclass⟩ := hends.of_ok hrun
  rcases hclass rfl with ⟨n, hn⟩ | hty
  · exact .inl ⟨n, hleads.constant? hn⟩
  · exact .inr hty

theorem Lower.Gave.constant? {c : Constant} (h : Gave (LoweringState.LeadsTo p) (Lower.constant c) k) :
    p.constant? k = some c := by
  obtain ⟨s, s', hrun, hleads⟩ := h
  have hends : Ends (Lower.constant c) s (fun o s' => s'.fn.proc.constant? o = some c)
      fun _ _ => True := by
    simp only [Lower.constant, ends_bind, ends_onProc]
    split <;> exact ConstantPool.get?_intern _ _
  exact hleads.constant? (hends.of_ok hrun)

theorem Selection.isKeyed_load {c : KeyClass} (h : (Selection.load ty c).opcode.isKeyed = true) :
    c = .int := by
  cases c <;> cases ty <;> first | rfl | cases h

theorem Opcode.isKeyed_of_store {opcode store : Opcode}
    (h : opcode.storeCounterpart? = some store) (hk : store.isKeyed = true) :
    opcode.isKeyed = true := by
  cases opcode <;> cases h <;> first | rfl | cases hk

/-- A table tells keys apart, an array does not. -/
theorem Lower.Shape.isKeyed_keyed {c : KeyClass}
    (h : ((Shape.of ty).keyed c).isKeyed = true) :
    c = .int ∨ ty.isArray = true ∧ (Shape.of ty).keyed c = (Shape.of ty).positional := by
  cases ty <;> cases c <;> first | exact .inl rfl | exact .inr ⟨rfl, rfl⟩ | cases h

theorem Selection.isKeyed_binary {op : BinaryOp} {l r : OperandClass} {sel : Selection}
    (h : Selection.binary? op l r = some sel) : sel.opcode.isKeyed = false := by
  cases op <;> cases l <;> cases r <;> cases h <;> rfl

theorem Selection.isKeyed_unary (op : UnaryOp) (ty : Ty) :
    (Selection.unary op ty).opcode.isKeyed = false := by
  cases op <;> simp only [Selection.unary] <;> (try split) <;> rfl

end Classes

/-- What reads its key as an integer got one, or fills an array. -/
theorem Origin.key {t : Tree} {f : Site} {opcode : Opcode} {operands targets : List Operand}
    (h : Origin t.symbols (· ∈ t.occurrences) (LoweringState.Approaches f) f.HasChild opcode operands
      targets) (hk : opcode.isKeyed = true) : ∃ k, operands[1]? = some k ∧
      (t.IsIntegerKey f.proc k ∨ t.IsUncheckedKey f.proc opcode k) := by
  induction h with
  | plain hp => simp [Opcode.isPlain, hk] at hp
  | unary h r => simp [Selection.isKeyed_unary] at hk
  | load he ho hkey hc r =>
    cases Selection.isKeyed_load hk
    refine ⟨_, rfl, .inl ?_⟩
    rcases hc.leadsTo.keyClass_int with hconst | hty
    · exact .inl hconst
    · exact .inr ⟨_, .inl ⟨_, _, he⟩, hty, hkey.gave.leadsTo⟩
  | store h hs hv ih =>
    obtain ⟨k, hget, hkey | ⟨ty, items, key, v, -, -, -, hop, -⟩⟩ :=
      ih (Opcode.isKeyed_of_store hs hk)
    · refine ⟨k, ?_, .inl hkey⟩
      obtain ⟨hlt, -⟩ := List.getElem?_eq_some_iff.mp hget
      rw [List.getElem?_append_left hlt, hget]
    · -- what fills an array is no load
      rw [hop] at hs
      cases hshape : Shape.of ty <;> rw [hshape] at hs <;> cases hs
  | positional shape r hkey hv => exact ⟨_, rfl, .inl (.inl ⟨_, hkey.leadsTo.constant?⟩)⟩
  | @keyed ty items key value k v c r he hi hkey hc hv =>
    refine ⟨k, rfl, ?_⟩
    by_cases hconst : ∃ n, f.proc.constant? k = some (.integer n)
    · exact .inl (.inl hconst)
    by_cases hty : key.ty = .integer
    · exact .inl (.inr ⟨key, .inr ⟨ty, items, value, he, hi⟩, hty, hkey.gave.leadsTo⟩)
    rcases Shape.isKeyed_keyed hk with rfl | ⟨harray, hop⟩
    · exact absurd hc.leadsTo.keyClass_int (not_or.mpr ⟨hconst, hty⟩)
    · exact .inr ⟨ty, items, key, value, he, hi, harray, hop, hty, hkey.gave.leadsTo,
        not_exists.mp hconst⟩
  | operator hx hy hs r => simp [Selection.isKeyed_binary hs] at hk
  | ask h hk' ih => exact ih hk
  | convert | ret | call | closure => cases hk

end ScriptC
