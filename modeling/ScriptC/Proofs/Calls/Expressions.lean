import ScriptC.Proofs.Calls.Tracking

/-! # Use of temporaries by expressions

Each form of expression follows its use if its parts do.
-/

namespace ScriptC

open Lower

/-- The class of a key from its constant, or else from its type. -/
def keyOf (ty : Ty) : Option Constant → KeyClass
  | some (.string _) => .stringConstant
  | some (.integer _) => .int
  | _ => if ty.isInteger then .int else .other

/-- A variable that is used where it is. -/
def Operand.isVariable : Operand → Bool
  | .symbol (.localVar ..) | .symbol (.upvalue ..) => Bool.true
  | _ => Bool.false

/-- A constant, a sentinel, a variable or a native temporary: it takes no generic temporary. -/
def Operand.isUnstacked : Operand → Bool
  | .constant _ | .nil | .true | .false | .symbol _ | .tempInt _ | .tempFloat _ => Bool.true
  | _ => Bool.false

/-- Where a multiple assignment copies a value to. -/
def copyOf (entry : Operand × TypeTag) : Option TempKind :=
  if entry.1.isVariable then some (copyKind entry.2) else none

/-- What is known about a value before it is evaluated is true of it. -/
inductive Value.Denotes (ty : Ty) (d : Usage.Value) (s : LoweringState) :
    Value → Option Nat → Prop
  | results {base call : Nat} (hi : OpcodeAt call .call s.fn.proc.instrs) (hc : d.isCall = true)
      (hk : keyOf ty none = d.key) (hd : d.copy = none) :
      Denotes ty d s ⟨.range base (-1), some call⟩ (some base)
  | operand {o : Operand} {held : Option Nat} (hc : d.isCall = false)
      (hk : keyOf ty (s.fn.proc.constant? o) = d.key) (hd : copyOf (o, ty.tag) = d.copy)
      (ho : o.Holds held) (hf : o.isTemp = true ∨ o.isUnstacked = true) :
      Denotes ty d s ⟨o, none⟩ held

theorem Value.Denotes.generic {ty : Ty} {d : Usage.Value} {s : LoweringState} {v : Value}
    {held : Option Nat} (h : v.Denotes ty d s held) : v.operand.generic? = held := by
  cases h with
  | results => rfl
  | operand _ _ _ ho => exact ho.1

def Part.Follows (part : Part) (d : Usage.Value) : Prop :=
  Tracks part.value d.use fun v held s => v.Denotes part.ty d s held

namespace Lower

/-- An item follows the use of its parts. -/
inductive Item.Follows : Item → Usage Unit → Prop
  | positional {value : Part} {d : Usage.Value} (h : value.Follows d) :
      Follows (.positional value) (Usage.item (pure none) d.use)
  | named {name : String} {value : Part} {d : Usage.Value} (h : value.Follows d) :
      Follows (.named name value) (Usage.item (pure none) d.use)
  | keyed {key value : Part} {dkey d : Usage.Value} (hk : key.Follows dkey) (h : value.Follows d) :
      Follows (.keyed key value) (Usage.item dkey.use d.use)

variable {α β : Type} {s : LoweringState} {part object key lhs rhs func : Part}
  {d dobject dkey dlhs drhs dfunc : Usage.Value}

/-- The result of an instruction. -/
def Fresh (o : Operand) (held : Option Nat) (_ : LoweringState) : Prop :=
  o.isTemp = true ∧ o.Holds held

/-- A single value holds what its part does. -/
theorem tracks_one (h : part.Follows d) : Tracks (one part) d.use fun o held s =>
    o.Holds held ∧ keyOf part.ty (s.fn.proc.constant? o) = d.key := by
  intro s
  refine (h s).andThen fun v held s' hv => ?_
  cases hv with
  | results hi _ hk _ =>
    exact (tracks_setExpected hi _).before fun _ _ _ => tracks_pure ⟨⟨rfl, rfl⟩, hk⟩
  | operand _ hk _ ho => exact tracks_pure ⟨ho, hk⟩

theorem tracks_keyClass {k : Operand} {ty : Ty} {f : KeyClass → Lower α} {u : Usage β}
    {R : α → β → LoweringState → Prop}
    (h : TracksFrom s (f (keyOf ty (s.fn.proc.constant? k))) u R) :
    TracksFrom s (keyClass k ty >>= f) u R := by
  unfold TracksFrom Records at h ⊢
  simp only [keyClass, ends_bind, ends_get]
  unfold keyOf at h
  split <;> rename_i hk <;> simp_all

theorem constant?_of_isTemp {o : Operand} (p : Proc) (h : o.isTemp = true) :
    p.constant? o = none := by
  cases o <;> first | rfl | cases h

theorem isVariable_of_isTemp {o : Operand} (h : o.isTemp = true) : o.isVariable = false := by
  cases o <;> first | rfl | cases h

theorem constant?_of_isVariable {o : Operand} (p : Proc) (h : o.isVariable = true) :
    p.constant? o = none := by
  cases o <;> first | rfl | cases h

theorem isUnstacked_of_isVariable {o : Operand} (h : o.isVariable = true) :
    o.isUnstacked = true := by
  cases o <;> first | rfl | cases h

theorem follows_temp (ty : Ty) {x : Lower Operand} {u : Usage (Option Nat)} (h : Tracks x u Fresh) :
    Part.Follows ⟨ty, plain x⟩ ⟨u, keyOf ty none, false, none⟩ := by
  intro s
  refine (h s).andThen fun o held s' ho => tracks_pure (.operand rfl ?_ ?_ ho.2 (.inl ho.1))
  · rw [constant?_of_isTemp _ ho.1]
  · simp [copyOf, isVariable_of_isTemp ho.1]

/-- Take the register of the result and emit the instruction that fills it. -/
theorem tracks_result (kind : TempKind) {opcode : Opcode} {operands : List Operand}
    (h : opcode.IsStraight) :
    TracksFrom s (do
      let target ← allocTemp kind
      emit opcode operands [target]
      return target) (Usage.holdAs kind) Fresh :=
  (tracks_holdAs kind s).andThen fun _ _ _ ht => (silent_emitTo h ht.1).bind fun _ _ _ =>
    tracks_pure ht

theorem tracks_index (ho : object.Follows dobject) (hk : key.Follows dkey) :
    Tracks (index object key) (Usage.index dobject.use dkey.use
      (Selection.load object.ty dkey.key).result) Fresh := by
  intro s
  refine (tracks_one ho s).bind fun container _ s₁ h₁ => (tracks_one hk s₁).bind
    fun k _ s₂ h₂ => tracks_keyClass ?_
  rw [h₂.2]
  refine (tracks_drop h₂.1 s₂).bind fun _ _ s₃ _ => (tracks_drop h₁.1 s₃).bind fun _ _ s₄ _ => ?_
  exact tracks_result _ (Selection.load_isStraight _ _)

theorem tracks_unary (op : UnaryOp) (h : part.Follows d) :
    Tracks (unary op part) (Usage.unary d.use (Selection.unary op part.ty).result) Fresh := by
  intro s
  refine (tracks_one h s).bind fun value _ s₁ h₁ => (tracks_drop h₁.1 s₁).bind fun _ _ s₂ _ => ?_
  exact tracks_result _ (Selection.unary_isStraight _ _)

/-- Only the logical operators create blocks: the right operand gets a block of its own, and both
ways meet in another. -/
theorem keeps_logical (op : BinaryOp) (hl : Keeps (one lhs)) (hr : Keeps (one rhs)) :
    Keeps (logical op lhs rhs) := by
  refine hl.bind fun left => (keeps_free left).bind fun _ =>
    (gives_allocTemp .any).bind fun result hres => (keeps_move left .any hres).bind fun _ =>
      keeps_of_turns fun Γ he => ?_
  refine Turns.newBlock fun rhsBlock h₁ => Turns.newBlock fun endBlock h₂ => ?_
  extract_lets rest
  have hrest : ∀ r, Turns (Γ.waiting false (endBlock :: rhsBlock :: Γ.pending) (endBlock + 1)) Γ
      (rest r) := by
    intro r
    refine (turns_startBlock (List.Perm.swap _ _ _)).bind fun _ => ?_
    refine hr.turns_bind fun right => (keeps_free right).turns_bind fun _ =>
      (keeps_move right .any hres).turns_bind fun _ => ?_
    exact (turns_startLast (by omega) he).bind fun _ => keeps_pure.turns
  split
  · exact (turns_cbr (by omega) (by omega)).bind hrest
  · exact (turns_cbr (by omega) (by omega)).bind hrest

theorem tracks_logical (op : BinaryOp) (hl : lhs.Follows dlhs) (hr : rhs.Follows drhs) :
    Tracks (logical op lhs rhs) (Usage.logical dlhs.use drhs.use) Fresh := by
  refine (keeps_logical op (tracks_one hl).keeps (tracks_one hr).keeps).tracks fun s => ?_
  refine Records.bind (tracks_one hl s) fun left _ s₁ h₁ => Records.bind (tracks_drop h₁.2.1 s₁)
    fun _ _ s₂ _ => Records.bind (tracks_hold s₂) fun result r s₃ h₃ => ?_
  obtain ⟨-, rfl⟩ := h₃
  refine Records.before (silent_move _ _ (isData_of_isTemp rfl) s₃) fun _ s₄ _ =>
    records_newBlock.before fun rhsBlock s₅ _ => records_newBlock.before fun endBlock s₆ _ => ?_
  extract_lets rest
  have hrest : ∀ a s, Records s (rest a) (do
      let right ← drhs.use
      Usage.drop right
      return some r) Fresh := by
    intro _ s
    refine (records_startBlock _).before fun _ s₁ _ => Records.bind (tracks_one hr s₁)
      fun right _ s₂ h₂ => Records.bind (tracks_drop h₂.2.1 s₂) fun _ _ s₃ _ => Records.before
      (silent_move _ _ (isData_of_isTemp rfl) s₃) fun _ s₄ _ => (records_startBlock _).before
      fun _ s₅ _ => ?_
    exact ⟨rfl, rfl, rfl, rfl, rfl⟩
  split
  · exact (records_emit (by decide)).before fun r s _ => hrest r s
  · exact (records_emit (by decide)).before fun r s _ => hrest r s

theorem tracks_arithmetic (op : BinaryOp) (hl : lhs.Follows dlhs) (hr : rhs.Follows drhs) :
    Tracks (arithmetic op lhs rhs) (arithmeticUsage op lhs.ty rhs.ty dlhs.use drhs.use) Fresh := by
  intro s
  refine (tracks_one hl s).bind fun a _ s₁ h₁ => (tracks_one hr s₁).bind fun b _ s₂ h₂ => ?_
  extract_lets classA classB form
  split
  rename_i x y classX classY hxy
  split <;> rename_i hsel
  · exact tracks_invalid
  rename_i sel
  have hresult : operatorResult op classA classB = sel.result := by
    unfold operatorResult
    split at hxy <;> cases hxy <;> simp_all [form]
  refine (tracks_drop h₂.1 s₂).bind fun _ _ s₃ _ => (tracks_drop h₁.1 s₃).bind fun _ _ s₄ _ => ?_
  rw [← hresult]
  refine (tracks_holdAs _ s₄).bind fun target _ s₅ h₅ =>
    (silent_emitTo (Selection.binary?_isStraight hsel) h₅.1).bind fun _ s₆ _ => ?_
  split
  · exact (tracks_drop h₅.2 s₆).bind fun _ _ s₇ _ => tracks_result _ (by decide)
  · exact tracks_pure h₅

theorem tracks_binary (op : BinaryOp) (hl : lhs.Follows dlhs) (hr : rhs.Follows drhs) :
    Tracks (binary op lhs rhs) (binaryUsage op lhs.ty rhs.ty dlhs.use drhs.use) Fresh := by
  unfold binary binaryUsage
  split
  · exact tracks_logical op hl hr
  · exact tracks_arithmetic op hl hr

section Calls

variable {args : List Part} {dargs : List Usage.Value}

/-- What is passed to a call is what it owns. -/
def Passed (as : List Argument) (held : List (Option Nat)) (_ : LoweringState) : Prop :=
  as.map (·.operand.stackRegister?) = held ∧ as.map (·.owned.generic?) = held

theorem tracks_arguments (h : List.Forall₂ Part.Follows args dargs) :
    Tracks (arguments args) (Usage.collect (dargs.map (·.use))) Passed := by
  induction h with
  | nil => exact fun _ => tracks_pure ⟨rfl, rfl⟩
  | @cons part d rest ds hp hrest ih =>
    intro s
    refine (hp s).bind fun value held s₁ hv => ?_
    extract_lets next
    have hnext : ∀ o s, o.stackRegister? = held → TracksFrom s (next o) (do
        let rest ← Usage.collect (ds.map (·.use))
        return held :: rest) Passed := by
      intro o s ho
      refine (ih s).bind fun as hs s' has => tracks_pure ?_
      simp [Passed, ho, hv.generic, has.1, has.2]
    cases hv with
    | results hi =>
      dsimp only
      split
      · exact hnext _ _ rfl
      · exact (tracks_setExpected hi _).before fun _ s _ => hnext _ s rfl
    | operand _ _ _ ho => exact hnext _ _ ho.2

/-- The operands of the call are the callee and what is held for the call. -/
theorem tracks_callWith {base : Nat} {held : List Operand} {regs : List (Option Nat)}
    (hs : held.map Operand.stackRegister? = regs) (hg : held.map Operand.generic? = regs)
    (h : List.Forall₂ Part.Follows args dargs) :
    Tracks (callWith (.tempAny base) held args) (Usage.callWith base regs (dargs.map (·.use)))
      fun v r s => (∃ call, OpcodeAt call .call s.fn.proc.instrs ∧
        v = ⟨.range base (-1), some call⟩) ∧ r = some base := by
  intro s
  refine (tracks_arguments h s).bind fun as regs' s₁ has => (silent_constant _).bind
    fun expected s₂ hexpected => ?_
  obtain ⟨has, hag⟩ := has
  have hcall : (held ++ as.map (·.operand)).filterMap Operand.stackRegister? =
      (regs ++ regs').filterMap id := by
    rw [← hs, ← has, List.filterMap_append, List.filterMap_append, List.filterMap_map,
      List.filterMap_map, List.filterMap_map]
    rfl
  have hfree : (held ++ as.map (·.owned)).map Operand.generic? = regs ++ regs' := by
    rw [List.map_append, hg, List.map_map, ← hag]
    rfl
  have htargets : ∀ o ∈ [Operand.range base (-1), expected], o.IsData := by
    obtain ⟨⟨k, rfl⟩, -⟩ := hexpected
    simp [Operand.IsData]
  rw [← hcall, ← hfree]
  exact (tracks_call htargets s₂).bind fun call _ s₃ hi => (tracks_freeAll _ s₃).bind
    fun _ _ s₄ hs => tracks_pure ⟨⟨call, hs ▸ hi, rfl⟩, rfl⟩

theorem tracks_callee (h : func.Follows dfunc) :
    Tracks (callee func) (Usage.callee dfunc.use) fun o r _ => o = .tempAny r := by
  intro s
  refine (tracks_one h s).bind fun value held s₁ h₁ => ?_
  split
  · -- Returning a register and taking it again changes nothing.
    rename_i r
    obtain rfl : some r = held := h₁.1.1
    exact ⟨rfl, rfl, fun _ => id, rfl⟩
  · exact (tracks_drop h₁.1 s₁).bind fun _ _ s₂ _ => (tracks_hold s₂).andThen
      fun _ _ s₃ h₃ => (silent_move _ _ (h₃ ▸ isData_of_isTemp rfl)).bind fun _ _ _ => tracks_pure h₃

theorem follows_call (ty : Ty) (hf : func.Follows dfunc)
    (h : List.Forall₂ Part.Follows args dargs) :
    Part.Follows ⟨ty, call func args⟩
      ⟨Usage.call dfunc.use (dargs.map (·.use)), keyOf ty none, true, none⟩ := by
  intro s
  refine (tracks_callee hf s).bind fun function base s₁ h₁ => ?_
  subst h₁
  refine (tracks_callWith rfl rfl h s₁).mono ?_
  rintro v r s₂ ⟨⟨call, hi, rfl⟩, rfl⟩
  exact .results hi rfl rfl rfl

theorem tracks_member (name : String) (h : object.Follows dobject) :
    Tracks (member object name) (Usage.member dobject.use)
      fun o r _ => o = (.tempAny r.1, .tempAny r.2) := by
  intro s
  refine (tracks_one h s).bind fun value _ s₁ h₁ => (tracks_drop h₁.1 s₁).bind fun _ _ s₂ _ =>
    (tracks_hold s₂).bind fun function _ s₃ h₃ => (tracks_hold s₃).bind fun receiver _ s₄ h₄ =>
    (silent_move _ _ (h₄ ▸ isData_of_isTemp rfl)).bind fun _ s₅ _ => (silent_constant _).bind
    fun key s₆ _ => ?_
  refine (silent_emitTo ?_ (h₃ ▸ rfl)).bind fun _ _ _ => tracks_pure (by rw [h₃, h₄])
  split <;> decide

theorem follows_methodCall (ty : Ty) (name : String) (ho : object.Follows dobject)
    (h : List.Forall₂ Part.Follows args dargs) :
    Part.Follows ⟨ty, methodCall object name args⟩
      ⟨Usage.methodCall dobject.use (dargs.map (·.use)), keyOf ty none, true, none⟩ := by
  intro s
  refine (tracks_member name ho s).bind fun _ r s₁ h₁ => ?_
  subst h₁
  refine (tracks_callWith rfl rfl h s₁).mono ?_
  rintro v r s₂ ⟨⟨call, hi, rfl⟩, rfl⟩
  exact .results hi rfl rfl rfl

theorem tracks_closure {child : Lower Nat} {u : Usage Unit}
    (h : Tracks child u fun _ _ _ => True) : Tracks (closure child) (Usage.closure u) Fresh :=
  fun s => (h s).bind fun _ _ _ _ => tracks_result .any (by decide)

end Calls

section Constructors

theorem tracks_constant (c : Constant) :
    Tracks (constant c) (pure none : Usage (Option Nat)) fun o held _ => o.Holds held :=
  (silent_constant c).tracks fun _ _ h => h.1.elim fun _ ho => ho ▸ ⟨rfl, rfl⟩

theorem tracks_storeItem (table : Operand) {opcode : Opcode} (h : opcode.IsStraight)
    {k v : Operand} {heldKey held : Option Nat} (hk : k.Holds heldKey) (hv : v.Holds held) :
    Tracks (storeItem table opcode k v) (do
      Usage.drop held
      Usage.drop heldKey) fun _ _ _ => True := fun _ =>
  (silent_emit h (List.forall_mem_nil _)).bind fun _ s₁ _ => (tracks_drop hv s₁).bind
    fun _ _ s₂ _ => tracks_drop hk s₂

/-- An item with a constant key, followed by others. -/
theorem tracks_constantItem (table : Operand) (c : Constant) {opcode : Opcode}
    (h : opcode.IsStraight) (hv : part.Follows d) {rest : Lower Unit} {u : Usage Unit}
    (hr : Tracks rest u fun _ _ _ => True) :
    Tracks (do
      let k ← constant c
      let v ← one part
      storeItem table opcode k v
      rest) (do
      Usage.item (pure none) d.use
      u) fun _ _ _ => True := by
  intro s
  rw [Usage.item, bind_assoc]
  refine (tracks_constant c s).bind fun k _ s₁ h₁ => ?_
  rw [bind_assoc]
  exact (tracks_one hv s₁).bind fun v _ s₂ h₂ =>
    (tracks_storeItem table h h₁ h₂.1 s₂).bind fun _ _ s₃ _ => hr s₃

theorem tracks_items (shape : Shape) (table : Operand) (position : Int64) {contents : List Item}
    {us : List (Usage Unit)} (h : List.Forall₂ Item.Follows contents us) :
    Tracks (items shape table position contents) (Usage.each us) fun _ _ _ => True := by
  induction h generalizing position with
  | nil => exact fun _ => tracks_pure trivial
  | cons hi _ ih =>
    intro s
    cases hi with
    | positional hv => exact tracks_constantItem table _ shape.positional_isStraight hv (ih _) s
    | named hv =>
      have hset : Opcode.tableSetSK.IsStraight := by decide
      have hstore := fun name => tracks_constantItem table (.string name) hset hv (ih position)
      unfold items
      split
      · exact hstore _ s
      · exact TracksFrom.before (P := fun _ _ => False) tracks_invalid fun _ _ => False.elim
    | keyed hk hv =>
      rw [Usage.each, Usage.item, bind_assoc]
      refine (tracks_one hk s).bind fun k _ s₁ h₁ => tracks_keyClass ?_
      rw [bind_assoc]
      exact (tracks_one hv s₁).bind fun v _ s₂ h₂ =>
        (tracks_storeItem table (shape.keyed_isStraight _) h₁.1 h₂.1 s₂).bind fun _ _ s₃ _ =>
          ih _ s₃

theorem tracks_construct (ty : Ty) {contents : List Item} {us : List (Usage Unit)}
    (h : List.Forall₂ Item.Follows contents us) :
    Tracks (construct ty contents) (Usage.construct us) Fresh := fun s =>
  (tracks_holdAs .any s).bind fun _ _ _ ht =>
    (silent_emitTo (Shape.opcode_isStraight _) ht.1).bind fun _ s₂ _ =>
      (tracks_items _ _ _ h s₂).bind fun _ _ _ _ => tracks_pure ht

end Constructors

section Leaves

theorem follows_sentinel (ty : Ty) {o : Operand} (ho : o.Holds none) (hv : o.isVariable = false)
    (hf : o.isUnstacked = true) (hk : ∀ p : Proc, p.constant? o = none) :
    Part.Follows ⟨ty, plain (pure o)⟩ ⟨pure none, keyOf ty none, false, none⟩ := fun _ =>
  tracks_pure (.operand rfl (congrArg _ (hk _)) (by simp [copyOf, hv]) ho (.inr hf))

theorem follows_constant (ty : Ty) (c : Constant) :
    Part.Follows ⟨ty, plain (constant c)⟩ ⟨pure none, keyOf ty (some c), false, none⟩ := by
  refine fun s => (silent_constant c).bind fun o s' h => tracks_pure ?_
  obtain ⟨⟨k, rfl⟩, hk⟩ := h
  exact .operand rfl (congrArg _ hk) rfl ⟨rfl, rfl⟩ (.inr rfl)

theorem tracks_loadGlobal (name : String) : Tracks (loadGlobal name) (Usage.holdAs .any)
    fun o r s => Fresh o.1 r s := fun _ =>
  (silent_constant _).bind fun _ s₁ _ => (tracks_holdAs .any s₁).andThen fun _ _ _ ht =>
    (silent_emitId (by decide) (List.forall_mem_singleton.mpr (isData_of_isTemp ht.1))).bind
      fun _ _ _ => tracks_pure ht

/-- A global is loaded to a temporary, any other variable is used where it is. -/
theorem tracks_readSymbol (symbols : SymbolTable) (id : SymbolId) :
    Tracks (readSymbol symbols id) (symbolUsage symbols id) fun o held _ => o.Holds held ∧
      (if isGlobal symbols id then o.isTemp else o.isVariable) = true := by
  refine fun s => (silent_symbol symbols id).bind fun sym s₁ hsym => ?_
  have hglobal : isGlobal symbols id = decide (sym.kind = .global) := by simp [isGlobal, hsym]
  simp only [symbolUsage, hglobal]
  split <;> rename_i hkind <;> simp only [hkind, reduceCtorEq, decide_true, decide_false]
  · refine (silent_lookupLocal id).bind fun reg s₂ _ => ?_
    split
    · exact tracks_pure ⟨⟨rfl, rfl⟩, rfl⟩
    · exact tracks_invalid
  · exact tracks_pure ⟨⟨rfl, rfl⟩, rfl⟩
  · exact (tracks_loadGlobal _ s₁).andThen fun o _ _ ho => tracks_pure ⟨ho.2, ho.1⟩

theorem follows_symbol (symbols : SymbolTable) (ty : Ty) (id : SymbolId) :
    Part.Follows ⟨ty, plain (readSymbol symbols id)⟩
      ⟨symbolUsage symbols id, keyOf ty none, false, Expr.copy symbols ⟨ty, .symbol id⟩⟩ := by
  intro s
  refine (tracks_readSymbol symbols id s).andThen fun o held s' ⟨ho, hkind⟩ =>
    tracks_pure (.operand rfl ?_ ?_ ho ?_)
  · split at hkind
    · rw [constant?_of_isTemp _ hkind]
    · rw [constant?_of_isVariable _ hkind]
  · split at hkind <;> rename_i hg
    · simp [copyOf, isVariable_of_isTemp hkind, Expr.copy, hg]
    · simp [copyOf, hkind, Expr.copy, hg]
  · split at hkind
    · exact .inl hkind
    · exact .inr (isUnstacked_of_isVariable hkind)

end Leaves

end Lower

end ScriptC
