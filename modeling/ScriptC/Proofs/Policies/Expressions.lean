import ScriptC.Proofs.Policies.Rules

/-! # Policies and expressions

The actions of lowering observe a lawful family of policies, and so does the code of every form of
expression if that of its parts does. Each instruction is traced back to where it comes from.
-/

namespace ScriptC

open Lower

section Results

variable {Leads : LoweringState → Prop}

theorem Lower.Gave.of_ends {α : Type} {x : Lower α} {a : α} {Q : α → Prop}
    {E : Failure → LoweringState → Prop} (h : Gave Leads x a)
    (hx : ∀ s, Ends x s (fun a _ => Q a) E) : Q a := by
  obtain ⟨s, s', hr, -⟩ := h
  exact (hx s).of_ok hr

theorem Lower.Gave.constant {c : Constant} {k : Operand} (h : Gave Leads (constant c) k) :
    ∃ n, k = .constant n := by
  refine h.of_ends (Q := fun k => ∃ n, k = .constant n) (E := fun _ _ => True) fun s => ?_
  simp only [Lower.constant, ends_bind, ends_onProc]
  split <;> exact ⟨_, rfl⟩

/-- A value that is no open call is taken as it is. -/
theorem Lower.single_eq_pure {v : Value}
    (h : ∀ call base count, v.call = some call → v.operand ≠ .range base count) :
    single v = pure v.operand := by
  unfold single
  split
  · rename_i call base count hc ho
    exact absurd ho (h call base count hc)
  · rfl

theorem Lower.Gave.one {part : Part} {v : Value} (h : Gave Leads part.value v)
    (hv : ∀ call base count, v.call = some call → v.operand ≠ .range base count) :
    Gave Leads (one part) v.operand := by
  obtain ⟨s, s', hr, hl⟩ := h
  refine ⟨s, s', ?_, hl⟩
  simp only [Lower.one, single_eq_pure hv, bind, EStateM.bind, hr]
  rfl

end Results

namespace Policy

open Origin (IsValue IsEntry IsSource ArePassed)

/-- A value that was taken, and a call that may still be changed. -/
structure Delivers (π : Policy) (v : Value) : Prop where
  owns : π.Owns v.operand
  call : ∀ call, v.call = some call → π.Emitted call ∧ ∃ base, v.operand = .range base (-1)

/-- The expression occurs, and its code observes all policies. -/
structure Evaluates {ι : Type} (symbols : SymbolTable) (Occurs : Expr → Prop) (F : ι → Policy)
    (e : Expr) : Prop where
  occurs : Occurs e
  value : ∀ i, (F i).Observes True (ofExpr symbols e).value (F i).Delivers

namespace Lawful

variable {ι : Type} {symbols : SymbolTable} {Occurs : Expr → Prop} {F : ι → Policy}
  (h : Lawful symbols Occurs F) {i : ι} {P : Prop}

section Actions

variable {opcode : Opcode} {reads : List Demand} {operands targets : List Operand} {o : Operand}
  {tag : TypeTag} {b : Nat}

include h

theorem modify {g : FunctionState → FunctionState} (hg : ∀ fn, (g fn).proc = fn.proc) :
    (F i).Observes P (Lower.modifyFn g) fun _ => True := (h.modifyFn i hg).given

theorem ensureOpen : (F i).Observes P ensureOpen fun _ => True := by
  refine observes_get_bind fun s => ?_
  change (F i).Observes P (if _ then _ else _) _
  split
  · exact (h.newBlock i).given.seq fun _ => h.modify fun _ => rfl
  · exact observes_pure fun _ => trivial

theorem emitId (ht : P → ∀ t ∈ targets, (F i).Owns t)
    (ho : P → Origin symbols Occurs (F i).Leads (F i).Child opcode operands targets) :
    (F i).Observes P (emitId opcode operands targets) (F i).Emitted :=
  h.ensureOpen.seq fun _ => h.append i fun hP => ⟨ht hP, ho hP⟩

theorem emit (ht : P → ∀ t ∈ targets, (F i).Owns t)
    (ho : P → Origin symbols Occurs (F i).Leads (F i).Child opcode operands targets) :
    (F i).Observes P (emit opcode operands targets) fun _ => True :=
  ((h.emitId ht ho).mono (fun hP => hP) fun _ _ _ => trivial).discard

/-- An instruction that writes to one operand. -/
theorem emitTo (ht : P → (F i).Owns o)
    (ho : P → Origin symbols Occurs (F i).Leads (F i).Child opcode operands [o]) :
    (F i).Observes P (Lower.emit opcode operands [o]) fun _ => True :=
  h.emit (fun hP => List.forall_mem_singleton.mpr (ht hP)) ho

theorem owns_block : (F i).Owns (.block b) := h.owns i (by simp)

theorem emitBr : (F i).Observes P (Lower.emit .br [] [.block b]) fun _ => True :=
  h.emitTo (fun _ => h.owns_block) fun _ => .effects rfl rfl .nil

theorem emitCbr {a : Nat} (ho : P → IsSource symbols Occurs (F i).Leads o tag) :
    (F i).Observes P (Lower.emit .cbr [o] [.block a, .block b]) fun _ => True :=
  h.emit (fun _ => by simp [h.owns_block]) fun hP => .effects rfl rfl (.cons (ho hP).value .nil)

theorem startBlock : (F i).Observes P (startBlock b) fun _ => True := by
  have hset : (F i).Observes P (Lower.modifyFn fun fn => { fn with block := b }) fun _ => True :=
    h.modify fun _ => rfl
  refine observes_get_bind fun s => ?_
  split
  · exact hset
  · have hbr : (F i).Observes P (Lower.append .br [] [.block b]) (F i).Emitted :=
      h.append i fun _ => ⟨List.forall_mem_singleton.mpr h.owns_block, .effects rfl rfl .nil⟩
    have hbr : (F i).Observes P (discard (Lower.append .br [] [.block b])) fun _ => True :=
      (hbr.mono (fun hP => hP) fun _ _ _ => trivial).discard
    exact hbr.seq fun _ => hset

theorem branchTo : (F i).Observes P (branchTo b) fun _ => True := by
  refine observes_get_bind fun s => ?_
  split
  · exact observes_pure fun _ => trivial
  · exact h.emitBr

theorem newBlocks (n : Nat) : (F i).Observes P (newBlocks n) fun _ => True := by
  induction n with
  | zero => exact observes_pure fun _ => trivial
  | succ n ih =>
    exact (h.newBlock i).given.seq fun _ => ih.seq fun _ => observes_pure fun _ => trivial

theorem freeAll {os : List Operand} (ho : P → ∀ o ∈ os, (F i).Owns o) :
    (F i).Observes P (freeAll os) fun _ => True :=
  observes_forM fun o hm => h.free i fun hP => ho hP o (List.mem_reverse.mp hm)

theorem intern (c : Constant) : (F i).Observes P (Lower.constant c)
    fun k => (F i).Owns k ∧ Gave (F i).Leads (Lower.constant c) k := by
  refine ((h.constant i c).gave.mono (fun _ => trivial) ?_)
  rintro k - ⟨-, hk⟩
  obtain ⟨n, rfl⟩ := hk.constant
  exact ⟨h.owns i (by simp), hk⟩

/-- What follows a temporary that is taken. -/
theorem newTemp {α : Type} {R : α → Prop} {kind : TempKind} {f : Operand → Lower α}
    (hf : ∀ r, (F i).Observes (P ∧ (F i).Owns (.temp kind r)) (f (.temp kind r)) R) :
    (F i).Observes P (Lower.allocTemp kind >>= f) R := by
  refine (h.allocTemp i kind).given.bind_of (S := fun o => ∃ r, o = .temp kind r)
    (fun s => ⟨(s.fn.proc.pool kind).alloc.2, rfl⟩) ?_
  rintro _ ⟨r, rfl⟩
  exact hf r

theorem setExpected {call : Nat} (count : Int64) (hc : P → (F i).Emitted call) :
    (F i).Observes P (setExpected call count) fun _ => True :=
  (h.intern _).bind fun _ => h.setTarget i fun hP => ⟨hc hP.1, hP.2⟩

theorem single {v : Value} (hv : P → (F i).Delivers v) :
    (F i).Observes P (single v) (F i).Owns := by
  unfold Lower.single
  split
  · rename_i call base count hc _
    exact (h.setExpected 1 fun hP => ((hv hP).call call hc).1).seq fun _ =>
      observes_pure fun _ => h.owns i (by simp)
  · exact observes_pure fun hP => (hv hP).owns

/-- The only part of an expression that gets a use of its own. -/
theorem one {e : Expr} (he : Evaluates symbols Occurs F e) :
    (F i).Observes P (one (ofExpr symbols e))
      fun o => (F i).Owns o ∧ IsValue symbols Occurs (F i).Leads e o :=
  ((he.value i).given.bind fun _ => h.single And.right).gave.mono (fun hP => hP)
    fun _ _ ho => ⟨ho.1, he.occurs, ho.2⟩

end Actions

section Reading

theorem keyClass (k : Operand) (ty : Ty) : (F i).Observes P (keyClass k ty)
    fun c => Gave (F i).Leads (Lower.keyClass k ty) c := by
  have hk : (F i).Observes P (Lower.keyClass k ty) fun _ => True := by
    refine observes_get_bind fun s => ?_
    split <;> exact observes_pure fun _ => trivial
  exact hk.gave.mono (fun hP => hP) fun _ _ hc => hc.2

theorem valueTag (o : Operand) (declared : TypeTag) : (F i).Observes P (valueTag o declared)
    fun tag => Gave (F i).Leads (Lower.valueTag o declared) tag := by
  have ht : (F i).Observes P (Lower.valueTag o declared) fun _ => True := by
    unfold Lower.valueTag
    split
    case h_8 =>
      refine observes_get_bind fun s => ?_
      split <;> exact observes_pure fun _ => trivial
    all_goals exact observes_pure fun _ => trivial
  exact ht.gave.mono (fun hP => hP) fun _ _ hc => hc.2

theorem symbol (id : SymbolId) : (F i).Observes P (Lower.symbol symbols id) fun _ => True := by
  unfold Lower.symbol
  split
  · exact observes_pure fun _ => trivial
  · exact observes_throw

theorem lookupLocal (id : SymbolId) : (F i).Observes P (lookupLocal id) fun _ => True :=
  observes_get_bind fun _ => observes_pure fun _ => trivial

end Reading

/-- Only a move of an integer to a float converts. -/
theorem isPlain_moveOpcode {dest src : TypeTag} (hne : ¬ (dest = .number ∧ src = .integer)) :
    (moveOpcode dest src).isPlain = true := by
  cases dest <;> cases src <;> first | rfl | exact absurd ⟨rfl, rfl⟩ hne

section Moves

variable {src dest : Operand} {tag : TypeTag}

include h

theorem movePlain (hd : P → (F i).Owns dest ∧ dest.Takes (copyKind (destTag dest)))
    (hs : P → IsSource symbols Occurs (F i).Leads src tag)
    (ht : P → ¬ (destTag dest = .number ∧ tag = .integer)) :
    (F i).Observes P (move src tag dest) fun _ => True := by
  obtain ⟨d, hsig, hcov⟩ := signature_moveOpcode (destTag dest) tag
  unfold move
  split
  · exact observes_pure fun _ => trivial
  · exact h.emitTo (fun hP => (hd hP).1) fun hP =>
      .writes (isPlain_moveOpcode (ht hP)) hsig (.cons (.source (hs hP) hcov) .nil) (hd hP).2

/-- What is moved to a generic temporary is not converted. -/
theorem moveTemp {r : Nat} (hd : P → (F i).Owns (.tempAny r))
    (hs : P → IsSource symbols Occurs (F i).Leads src tag) :
    (F i).Observes P (move src tag (.tempAny r)) fun _ => True :=
  h.movePlain (fun hP => ⟨hd hP, .inl ⟨r, rfl⟩⟩) hs fun _ => by simp [destTag]

theorem moveEntry (hd : P → (F i).Owns dest ∧ dest.Takes (copyKind (destTag dest)))
    (hs : P → IsEntry symbols Occurs (F i).Leads src tag) :
    (F i).Observes P (move src tag dest) fun _ => True := by
  by_cases ht : destTag dest = .number ∧ tag = .integer
  · obtain ⟨hnum, rfl⟩ := ht
    unfold move
    split
    · exact observes_pure fun _ => trivial
    · rw [hnum]
      refine h.emitTo (fun hP => (hd hP).1) fun hP => .convert (hs hP) ?_
      have ht := (hd hP).2
      rwa [hnum] at ht
  · exact h.movePlain hd (fun hP => .entry (hs hP)) fun _ => ht

end Moves

section Forms

variable {ty : Ty} {e lhs rhs object key func : Expr} {args : List Expr}

include h

theorem loadGlobal (name : String) : (F i).Observes P (loadGlobal name)
    fun r => (F i).Owns r.1 ∧ r.1.Takes .any ∧ (F i).Emitted r.2 := by
  refine (h.intern _).bind fun k => h.newTemp fun r => ?_
  refine (h.emitId (fun hP => List.forall_mem_singleton.mpr hP.2) ?_).bind fun _ =>
    observes_pure fun hP => ⟨hP.1.2, .inl ⟨r, rfl⟩, hP.2⟩
  exact fun hP => .writes rfl rfl (.cons (.nothing _) (.cons (.name hP.1.2.2) .nil)) (.inl ⟨r, rfl⟩)

/-- A variable is a destination, and so is where a global was loaded to. -/
theorem readSymbol (id : SymbolId) : (F i).Observes P (readSymbol symbols id)
    fun o => (F i).Owns o ∧ o.Takes (copyKind (destTag o)) := by
  refine (symbol id).seq fun s => ?_
  split
  · refine (lookupLocal id).seq fun reg => ?_
    split
    · exact observes_pure fun _ => ⟨h.owns i (by simp), .inr rfl⟩
    · exact observes_invalid
  · exact observes_pure fun _ => ⟨h.owns i (by simp), .inr rfl⟩
  · refine (h.loadGlobal _).bind fun _ => observes_pure fun hP => ⟨hP.2.1, ?_⟩
    obtain ⟨r, ho⟩ | hvar := hP.2.2.1
    · exact .inl ⟨r, by rw [ho]; rfl⟩
    · exact .inr hvar

theorem index (he : Occurs ⟨ty, .index object key⟩) (ho : Evaluates symbols Occurs F object)
    (hk : Evaluates symbols Occurs F key) :
    (F i).Observes P (index (ofExpr symbols object) (ofExpr symbols key)) (F i).Owns := by
  simp only [Lower.index, ofExpr_ty]
  refine (h.one ho).bind fun container => (h.one hk).bind fun k => (keyClass k key.ty).bind fun c => ?_
  refine (h.free i fun hP => hP.1.2.1).seq fun _ => (h.free i fun hP => hP.1.1.2.1).seq fun _ =>
    h.newTemp fun r => ?_
  exact (h.emitTo And.right fun hP => .load he hP.1.1.1.2.2 hP.1.1.2.2 hP.1.2 r).seq fun _ =>
    observes_pure And.right

theorem unary (op : UnaryOp) (he : Evaluates symbols Occurs F e) :
    (F i).Observes P (unary op (ofExpr symbols e)) (F i).Owns := by
  simp only [Lower.unary, ofExpr_ty]
  exact (h.one he).bind fun _ => (h.free i fun hP => hP.2.1).seq fun _ => h.newTemp fun r =>
    (h.emitTo And.right fun hP => .unary hP.1.2.2 r).seq fun _ => observes_pure And.right

theorem logical (op : BinaryOp) (hl : Evaluates symbols Occurs F lhs)
    (hr : Evaluates symbols Occurs F rhs) :
    (F i).Observes P (logical op (ofExpr symbols lhs) (ofExpr symbols rhs)) (F i).Owns := by
  refine (h.one hl).bind fun left => (h.free i fun hP => hP.2.1).seq fun _ =>
    h.newTemp fun r => (h.moveTemp And.right fun hP => .generic hP.1.2.2).seq fun _ =>
    (h.newBlock i).given.seq fun rhsBlock => (h.newBlock i).given.seq fun endBlock => ?_
  split
  all_goals
    exact (h.emitCbr fun _ => .entry (.tempAny r)).seq fun _ => h.startBlock.seq fun _ =>
      (h.one hr).bind fun right => (h.free i fun hP => hP.2.1).seq fun _ =>
      (h.moveTemp (fun hP => hP.1.2) fun hP => .generic hP.2.2).seq fun _ =>
      h.startBlock.seq fun _ => observes_pure fun hP => hP.1.2

theorem arithmetic (op : BinaryOp) (hl : Evaluates symbols Occurs F lhs)
    (hr : Evaluates symbols Occurs F rhs) :
    (F i).Observes P (arithmetic op (ofExpr symbols lhs) (ofExpr symbols rhs)) (F i).Owns := by
  simp only [Lower.arithmetic, ofExpr_ty]
  refine (h.one hl).bind fun a => (h.one hr).bind fun b => ?_
  generalize Canonical.of op (.of lhs.ty) (.of rhs.ty) = form
  generalize hq : (if form.swap = true then (b, a, OperandClass.of rhs.ty, OperandClass.of lhs.ty)
    else (a, b, OperandClass.of lhs.ty, OperandClass.of rhs.ty)) = q
  obtain ⟨x, y, classX, classY⟩ := q
  -- the operands of the instruction are those of the operator, in this or the other order
  have horigin : ∀ {sel} (r : Nat), Selection.binary? form.op classX classY = some sel →
      (P ∧ (F i).Owns a ∧ IsValue symbols Occurs (F i).Leads lhs a) ∧
        (F i).Owns b ∧ IsValue symbols Occurs (F i).Leads rhs b →
      Origin symbols Occurs (F i).Leads (F i).Child sel.opcode [x, y] [.temp sel.result r] := by
    rintro sel r hs ⟨⟨-, -, ha⟩, -, hb⟩
    split at hq
    · obtain ⟨rfl, rfl, rfl, rfl⟩ := by simpa only [Prod.mk.injEq] using hq
      exact .operator hb ha hs r
    · obtain ⟨rfl, rfl, rfl, rfl⟩ := by simpa only [Prod.mk.injEq] using hq
      exact .operator ha hb hs r
  dsimp only
  split
  · exact observes_invalid
  · rename_i sel hs
    refine (h.free i fun hP => hP.2.1).seq fun _ => (h.free i fun hP => hP.1.2.1).seq fun _ =>
      h.newTemp fun r => (h.emitTo And.right fun hP => horigin r hs hP.1).seq fun _ => ?_
    split
    · refine (h.free i And.right).seq fun _ => h.newTemp fun r' =>
        (h.emitTo And.right fun _ => .writes rfl rfl (.cons ?_ .nil) (.inl ⟨r', rfl⟩)).seq fun _ =>
        observes_pure And.right
      -- a temporary of any kind has a value
      cases sel.result with
      | int => exact IsSource.value (.entry (.temp .integer r))
      | float => exact IsSource.value (.entry (.temp .number r))
      | any => exact IsSource.value (.entry (.tempAny r))
    · exact observes_pure And.right

theorem binary (op : BinaryOp) (hl : Evaluates symbols Occurs F lhs)
    (hr : Evaluates symbols Occurs F rhs) :
    (F i).Observes P (binary op (ofExpr symbols lhs) (ofExpr symbols rhs)) (F i).Owns := by
  unfold Lower.binary
  split
  · exact h.logical op hl hr
  · exact h.arithmetic op hl hr

omit h in
/-- A value that is passed on as it is: all results of a call, or one value. -/
theorem passed_of_delivers {v : Value} (he : Occurs e) (hv : (F i).Delivers v)
    (hg : Gave (F i).Leads (ofExpr symbols e).value v) :
    ArePassed symbols Occurs (F i).Leads [v.operand] := by
  cases hc : v.call with
  | some call =>
    obtain ⟨-, base, ho⟩ := hv.call call hc
    rw [ho]
    exact .all base
  | none => exact .cons (.generic ⟨he, hg.one (by simp [hc])⟩) .nil

theorem arguments (ha : ∀ e ∈ args, Evaluates symbols Occurs F e) :
    (F i).Observes P (arguments (args.map (ofExpr symbols))) fun as => (args = [] → as = []) ∧
      ArePassed symbols Occurs (F i).Leads (as.map (·.operand)) ∧
      ∀ o ∈ as.map (·.owned), (F i).Owns o := by
  induction args generalizing P with
  | nil => exact observes_pure fun _ => ⟨fun _ => rfl, .nil, by simp⟩
  | cons e rest ih =>
    obtain ⟨he, hrest⟩ := List.forall_mem_cons.mp ha
    refine (he.value i).given.gave.bind fun v => ?_
    have tail (o : Operand) (ho : (F i).Delivers v → Gave (F i).Leads (ofExpr symbols e).value v →
        ∀ os, (rest = [] → os = []) → ArePassed symbols Occurs (F i).Leads os →
        ArePassed symbols Occurs (F i).Leads (o :: os)) :
        (F i).Observes (P ∧ (F i).Delivers v ∧ Gave (F i).Leads (ofExpr symbols e).value v)
        (do let as ← Lower.arguments (rest.map (ofExpr symbols)); pure (⟨o, v.operand⟩ :: as))
        fun as => (e :: rest = [] → as = []) ∧
          ArePassed symbols Occurs (F i).Leads (as.map (·.operand)) ∧
          ∀ o ∈ as.map (·.owned), (F i).Owns o := by
      refine (ih hrest).bind fun as => observes_pure ?_
      rintro ⟨⟨-, hv, hg⟩, hnil, hpass, has⟩
      refine ⟨by simp, ho hv hg _ (fun hr => by simp [hnil hr]) hpass, ?_⟩
      exact List.forall_mem_cons.mpr ⟨hv.owns, has⟩
    split
    · rename_i call base count hc ho
      split
      · rename_i hlast
        refine tail _ fun hv hg os hos _ => ?_
        rw [hos (by simpa using hlast)]
        exact passed_of_delivers he.occurs hv hg
      · exact (h.setExpected 1 fun hP => (hP.2.1.call call hc).1).seq fun _ =>
          tail _ fun _ _ _ _ hpass => .first base hpass
    · rename_i hne
      exact tail _ fun _ hg _ _ hpass => .cons (.generic ⟨he.occurs, hg.one hne⟩) hpass

theorem callee (hf : Evaluates symbols Occurs F func) :
    (F i).Observes P (callee (ofExpr symbols func)) (F i).Owns := by
  refine (h.one hf).bind fun value => ?_
  split
  · exact observes_pure fun hP => hP.2.1
  · exact (h.free i fun hP => hP.2.1).seq fun _ => h.newTemp fun r =>
      (h.moveTemp And.right fun hP => .generic hP.1.2.2).seq fun _ => observes_pure And.right

theorem member (name : String) (ho : Evaluates symbols Occurs F object) :
    (F i).Observes P (member (ofExpr symbols object) name)
      fun r => (F i).Owns r.1 ∧ (F i).Owns r.2 ∧ ∃ reg, r.2 = .tempAny reg := by
  simp only [Lower.member, ofExpr_ty]
  refine (h.one ho).bind fun value => (h.free i fun hP => hP.2.1).seq fun _ =>
    h.newTemp fun r => h.newTemp fun r' =>
    (h.moveTemp And.right fun hP => .declared hP.1.1.2.2).seq fun _ => (h.intern _).bind fun key => ?_
  have hsig : (if object.ty = .table then .tableGetSK else .getSK : Opcode).signature =
      some ⟨[.value, .stringKey], some .any⟩ := by
    split <;> rfl
  refine (h.emitTo (fun hP => hP.1.1.2) fun hP => .writes ?_ hsig (.cons
    (IsSource.value (.entry (.tempAny r'))) (.cons (.name hP.2.2) .nil)) (.inl ⟨r, rfl⟩)).seq
    fun _ => observes_pure fun hP => ⟨hP.1.1.2, hP.1.2, r', rfl⟩
  split <;> rfl

theorem callWith {function : Operand} {held : List Operand}
    (hh : P → ∀ o ∈ held, (F i).Owns o ∧ ∃ r, o = .tempAny r)
    (ha : ∀ e ∈ args, Evaluates symbols Occurs F e) :
    (F i).Observes P (callWith function held (args.map (ofExpr symbols))) (F i).Delivers := by
  unfold Lower.callWith
  split
  · rename_i base
    refine (h.arguments ha).bind fun as => (h.intern _).bind fun expected => ?_
    have hr : (F i).Owns (.range base (-1)) := h.owns i (by simp)
    refine (h.emitId (fun hP => ?_) fun hP => .call base ?_ hP.2.2).bind fun call =>
      (h.freeAll fun hP => ?_).seq fun _ => observes_pure fun hP => ⟨hr, ?_⟩
    · exact List.forall_mem_cons.mpr ⟨hr, List.forall_mem_singleton.mpr hP.2.1⟩
    · obtain ⟨⟨hP, -, hpass, -⟩, -⟩ := hP
      have hheld := hh hP
      clear hh
      induction held with
      | nil => exact hpass
      | cons o held ih =>
        obtain ⟨⟨-, r, rfl⟩, hrest⟩ := List.forall_mem_cons.mp hheld
        exact .cons (.entry (.tempAny r)) (ih hrest)
    · exact List.forall_mem_append.mpr ⟨fun o ho => (hh hP.1.1.1 o ho).1, hP.1.1.2.2.2⟩
    · rintro _ ⟨⟩
      exact ⟨hP.2, base, rfl⟩
  · exact observes_invalid

theorem call (hf : Evaluates symbols Occurs F func)
    (ha : ∀ e ∈ args, Evaluates symbols Occurs F e) :
    (F i).Observes P (call (ofExpr symbols func) (args.map (ofExpr symbols))) (F i).Delivers :=
  (h.callee hf).seq fun _ => h.callWith (by simp) ha

theorem methodCall (name : String) (ho : Evaluates symbols Occurs F object)
    (ha : ∀ e ∈ args, Evaluates symbols Occurs F e) :
    (F i).Observes P (methodCall (ofExpr symbols object) name (args.map (ofExpr symbols)))
      (F i).Delivers :=
  (h.member name ho).bind fun _ =>
    h.callWith (fun hP => List.forall_mem_singleton.mpr hP.2.2) ha

theorem closure {child : Lower Nat} (hc : (F i).Observes True child (F i).Child) :
    (F i).Observes P (closure child) fun o => (F i).Owns o ∧ ∃ r, o = .tempAny r :=
  hc.given.bind fun _ => h.newTemp fun r => (h.emitTo And.right fun hP => .closure hP.1.2 r).seq
    fun _ => observes_pure fun hP => ⟨hP.2, r, rfl⟩

theorem storeItem {table k v : Operand} {opcode : Opcode} (hk : P → (F i).Owns k)
    (hv : P → (F i).Owns v)
    (ho : P → Origin symbols Occurs (F i).Leads (F i).Child opcode [table, k, v] []) :
    (F i).Observes P (storeItem table opcode k v) fun _ => True :=
  (h.emit (by simp) ho).seq fun _ => (h.free i hv).seq fun _ => h.free i hk

/-- Any of the items of a constructor, stored in order. -/
theorem items {contents rest : List TableItem} (r : Nat) (position : Int64)
    (he : Occurs ⟨ty, .table contents⟩) (hsub : rest ⊆ contents)
    (hev : ∀ item ∈ rest, ∀ e ∈ item.exprs, Evaluates symbols Occurs F e) :
    (F i).Observes P (items (Shape.of ty) (.tempAny r) position (rest.map (ofItem symbols)))
      fun _ => True := by
  induction rest generalizing position P with
  | nil => exact observes_pure fun _ => trivial
  | cons item rest ih =>
    obtain ⟨hitem, hrest⟩ := List.forall_mem_cons.mp hev
    obtain ⟨hmem, hsub'⟩ := List.cons_subset.mp hsub
    cases item with
    | positional value =>
      have hv := List.forall_mem_singleton.mp hitem
      refine (h.intern _).bind fun k => (h.one hv).bind fun v => ?_
      exact (h.storeItem (fun hP => hP.1.2.1) (fun hP => hP.2.1) fun hP =>
        .positional _ r hP.1.2.2 hP.2.2).seq fun _ => ih (position + 1) hsub' hrest
    | named name value =>
      have hv := List.forall_mem_singleton.mp hitem
      have tail : (F i).Observes P (do
          let k ← stringConstant name
          let v ← Lower.one (ofExpr symbols value)
          Lower.storeItem (.tempAny r) .tableSetSK k v
          Lower.items (Shape.of ty) (.tempAny r) position (rest.map (ofItem symbols)))
          fun _ => True := by
        refine (h.intern _).bind fun k => (h.one hv).bind fun v => ?_
        refine (h.storeItem (fun hP => hP.1.2.1) (fun hP => hP.2.1) fun hP =>
          .effects rfl rfl ?_).seq fun _ => ih position hsub' hrest
        exact .cons (IsSource.value (.entry (.tempAny r))) (.cons (.name hP.1.2.2)
          (.cons (IsSource.value (.generic hP.2.2)) .nil))
      simp only [List.map_cons, ofItem, Lower.items]
      split
      · exact tail
      · exact (observes_invalid (Q := fun _ => True)).seq fun _ => tail
    | keyed key value =>
      obtain ⟨hk, hv⟩ : Evaluates symbols Occurs F key ∧ Evaluates symbols Occurs F value := by
        simpa [TableItem.exprs] using hitem
      simp only [List.map_cons, ofItem, Lower.items, ofExpr_ty]
      refine (h.one hk).bind fun k => (keyClass k key.ty).bind fun c => (h.one hv).bind fun v => ?_
      exact (h.storeItem (fun hP => hP.1.1.2.1) (fun hP => hP.2.1) fun hP =>
        .keyed r he hmem hP.1.1.2.2 hP.1.2 hP.2.2).seq fun _ => ih position hsub' hrest

theorem construct {contents : List TableItem} (he : Occurs ⟨ty, .table contents⟩)
    (hev : ∀ item ∈ contents, ∀ e ∈ item.exprs, Evaluates symbols Occurs F e) :
    (F i).Observes P (construct ty (contents.map (ofItem symbols))) (F i).Owns := by
  have hsig : (Shape.of ty).opcode.signature = some ⟨[], some .any⟩ := by
    cases Shape.of ty <;> rfl
  refine h.newTemp fun r => (h.emitTo And.right fun _ => .writes ?_ hsig .nil (.inl ⟨r, rfl⟩)).seq
    fun _ => (h.items r 1 he (List.Subset.refl _) hev).seq fun _ => observes_pure And.right
  cases Shape.of ty <;> rfl

end Forms

end Lawful

end Policy

end ScriptC
