import ScriptC.Proofs.Integers.Holding
import ScriptC.Proofs.Regularity.Trees

/-! # Code of typed trees

Every instruction that a typed tree lowers to is admitted where it stands. Its origin tells what its
operands are, and by the types of the tree they are what its opcode asks for.
-/

namespace ScriptC

open Lower

section Typing

mutual

/-- The parts of what is typed are typed. -/
theorem Expr.isTyped_parts : ∀ e : Expr, e.isTyped = true → ∀ x ∈ e.occurrences, x.isTyped = true
  | ⟨ty, kind⟩, h => List.forall_mem_cons.mpr ⟨h, ExprKind.isTyped_parts ty kind h⟩

theorem ExprKind.isTyped_parts (ty : Ty) : ∀ kind : ExprKind, kind.isTyped ty = true →
    ∀ x ∈ kind.occurrences, x.isTyped = true
  | .index object key, h => by
    simp only [ExprKind.isTyped, Bool.and_eq_true] at h
    exact List.forall_mem_append.mpr ⟨object.isTyped_parts h.1.2, key.isTyped_parts h.2⟩
  | .call callee args, h => by
    simp only [ExprKind.isTyped, Bool.and_eq_true] at h
    exact List.forall_mem_append.mpr ⟨callee.isTyped_parts h.1, Expr.areTyped_parts args h.2⟩
  | .methodCall object _ args, h => by
    simp only [ExprKind.isTyped, Bool.and_eq_true] at h
    exact List.forall_mem_append.mpr ⟨object.isTyped_parts h.1, Expr.areTyped_parts args h.2⟩
  | .unary _ operand, h => by
    simp only [ExprKind.isTyped, Bool.and_eq_true] at h
    exact operand.isTyped_parts h.2
  | .binary _ lhs rhs, h => by
    simp only [ExprKind.isTyped, Bool.and_eq_true] at h
    exact List.forall_mem_append.mpr ⟨lhs.isTyped_parts h.1.2, rhs.isTyped_parts h.2⟩
  | .function func, h => func.isTyped_parts h
  | .table items, h => TableItem.areTyped_parts ty items h
  | .nil, _ | .true, _ | .false, _ | .integer _, _ | .number _, _ | .string _, _ | .vararg, _
  | .symbol _, _ => by simp [ExprKind.occurrences]

theorem Expr.areTyped_parts : ∀ es : List Expr, Expr.areTyped es = true →
    ∀ x ∈ Expr.occurrencesOf es, x.isTyped = true
  | [], _ => by simp [Expr.occurrencesOf]
  | e :: es, h => by
    simp only [Expr.areTyped, Bool.and_eq_true] at h
    exact List.forall_mem_append.mpr ⟨e.isTyped_parts h.1, Expr.areTyped_parts es h.2⟩

theorem TableItem.areTyped_parts (ty : Ty) : ∀ items : List TableItem,
    TableItem.areTyped ty items = true → ∀ x ∈ TableItem.occurrencesOf items, x.isTyped = true
  | [], _ => by simp [TableItem.occurrencesOf]
  | .positional value :: rest, h | .named _ value :: rest, h => by
    simp only [TableItem.areTyped, Bool.and_eq_true] at h
    exact List.forall_mem_append.mpr ⟨value.isTyped_parts h.1, TableItem.areTyped_parts ty rest h.2⟩
  | .keyed key value :: rest, h => by
    simp only [TableItem.areTyped, Bool.and_eq_true] at h
    simp only [TableItem.occurrencesOf, List.forall_mem_append]
    exact ⟨⟨key.isTyped_parts h.1.1.2, value.isTyped_parts h.1.2⟩,
      TableItem.areTyped_parts ty rest h.2⟩

theorem Stmt.isTyped_parts : ∀ s : Stmt, s.isTyped = true → ∀ x ∈ s.occurrences, x.isTyped = true
  | .declare _ exprs, h | .ret exprs, h => Expr.areTyped_parts exprs h
  | .declareFunction _ func, h => func.isTyped_parts h
  | .assign targets exprs, h => by
    simp only [Stmt.isTyped, Bool.and_eq_true] at h
    exact List.forall_mem_append.mpr
      ⟨Expr.areTyped_parts targets h.1, Expr.areTyped_parts exprs h.2⟩
  | .eval expr, h => expr.isTyped_parts h
  | .block body, h => Stmt.areTyped_parts body h
  | .branch clauses none, h => by
    simp only [Stmt.isTyped, Bool.and_eq_true] at h
    exact Clause.areTyped_parts clauses h.1
  | .branch clauses (some body), h => by
    simp only [Stmt.isTyped, Bool.and_eq_true] at h
    exact List.forall_mem_append.mpr
      ⟨Clause.areTyped_parts clauses h.1, Stmt.areTyped_parts body h.2⟩
  | .whileLoop cond body, h => by
    simp only [Stmt.isTyped, Bool.and_eq_true] at h
    exact List.forall_mem_append.mpr ⟨cond.isTyped_parts h.1, Stmt.areTyped_parts body h.2⟩
  | .repeatLoop body cond, h => by
    simp only [Stmt.isTyped, Bool.and_eq_true] at h
    exact List.forall_mem_append.mpr ⟨cond.isTyped_parts h.2, Stmt.areTyped_parts body h.1⟩
  | .numericFor _ start limit none body, h => by
    simp only [Stmt.isTyped, Bool.and_eq_true] at h
    simp only [Stmt.occurrences, List.forall_mem_append]
    exact ⟨⟨start.isTyped_parts h.1.1.1, limit.isTyped_parts h.1.1.2⟩, Stmt.areTyped_parts body h.2⟩
  | .numericFor _ start limit (some step) body, h => by
    simp only [Stmt.isTyped, Bool.and_eq_true] at h
    simp only [Stmt.occurrences, List.forall_mem_append]
    exact ⟨⟨⟨start.isTyped_parts h.1.1.1, limit.isTyped_parts h.1.1.2⟩, step.isTyped_parts h.1.2⟩,
      Stmt.areTyped_parts body h.2⟩
  | .genericFor _ exprs body, h => by
    simp only [Stmt.isTyped, Bool.and_eq_true] at h
    exact List.forall_mem_append.mpr ⟨Expr.areTyped_parts exprs h.1, Stmt.areTyped_parts body h.2⟩
  | .leave, _ | .jump _, _ | .label _, _ => by simp [Stmt.occurrences]

theorem Stmt.areTyped_parts : ∀ ss : List Stmt, Stmt.areTyped ss = true →
    ∀ x ∈ Stmt.occurrencesOf ss, x.isTyped = true
  | [], _ => by simp [Stmt.occurrencesOf]
  | s :: ss, h => by
    simp only [Stmt.areTyped, Bool.and_eq_true] at h
    exact List.forall_mem_append.mpr ⟨s.isTyped_parts h.1, Stmt.areTyped_parts ss h.2⟩

theorem Clause.areTyped_parts : ∀ cs : List Clause, Clause.areTyped cs = true →
    ∀ x ∈ Clause.occurrencesOf cs, x.isTyped = true
  | [], _ => by simp [Clause.occurrencesOf]
  | ⟨cond, body⟩ :: rest, h => by
    simp only [Clause.areTyped, Bool.and_eq_true] at h
    simp only [Clause.occurrencesOf, List.forall_mem_append]
    exact ⟨⟨cond.isTyped_parts h.1.1, Stmt.areTyped_parts body h.1.2⟩, Clause.areTyped_parts rest h.2⟩

theorem Function.isTyped_parts : ∀ f : Function, f.isTyped = true →
    ∀ x ∈ f.occurrences, x.isTyped = true
  | ⟨_, _, _, _, _, body⟩, h => Stmt.areTyped_parts body h

end

/-- The keys of an array are integers. -/
theorem TableItem.key_of_areTyped {ty : Ty} {items : List TableItem} {key value : Expr}
    (h : areTyped ty items = true) (hi : .keyed key value ∈ items) (ha : ty.isArray = true) :
    key.ty = .integer := by
  induction items with
  | nil => cases hi
  | cons item rest ih =>
    rcases List.mem_cons.mp hi with rfl | hi
    · simp only [areTyped, ha, Bool.not_true, Bool.false_or, Bool.and_eq_true,
        decide_eq_true_eq] at h
      exact h.1.1.1
    · refine ih ?_ hi
      cases item <;> simp only [areTyped, Bool.and_eq_true] at h <;> exact h.2

/-- A typed expression has a value of its type. -/
theorem Expr.suits_of_isTyped {e : Expr} (symbols : SymbolTable) (h : e.isTyped = true) :
    (e.form symbols).suits e.ty = true := by
  obtain ⟨ty, kind⟩ := e
  have hform {kind : TempKind} (hk : kind.agrees ty = true) : kind.form.suits ty = true := by
    cases kind <;> exact hk
  cases kind with
  | index | binary =>
    simp only [Expr.isTyped, ExprKind.isTyped, Bool.and_eq_true] at h
    exact hform h.1.1
  | unary =>
    simp only [Expr.isTyped, ExprKind.isTyped, Bool.and_eq_true] at h
    exact hform h.1
  | nil | true | false | integer | number | string => exact h
  | _ => rfl

end Typing

section Operands

variable {symbols : SymbolTable} {Occurs : Expr → Prop} {f : Site} {func : Function}

theorem Proc.form?_of_isSlot {p : Proc} {o : Operand} (h : o.isSlot = true)
    (hf : o.Fits symbols func p) : p.form? o = some .slot := by
  unfold Operand.isSlot at h
  split at h
  · exact if_pos hf
  · rfl
  · exact if_pos hf
  · exact if_pos hf
  · cases h

theorem Proc.form?_temp {p : Proc} {kind : TempKind} {r : Nat}
    (hf : (Operand.temp kind r).Fits symbols func p) :
    p.form? (.temp kind r) = some kind.form := by
  cases kind with
  | int | float => rfl
  | any => exact if_pos hf

theorem Proc.gives_of_constant? {p : Proc} {o : Operand} {c : Constant} {d : Demand}
    (h : p.constant? o = some c) (hd : c.form.meets d = true) : p.Gives d o :=
  .of_form? (form?_of_constant? h) hd

theorem Proc.accepts_of_takes {p : Proc} {kind : TempKind} {t : Operand} (h : t.Takes kind)
    (hf : t.Fits symbols func p) : p.Accepts kind t := by
  rcases h with ⟨r, rfl⟩ | hvar
  · cases kind with
    | int | float => exact .inr ⟨by decide, r, rfl⟩
    | any => exact .inl (form?_temp hf)
  · refine .inl (form?_of_isSlot ?_ hf)
    unfold Operand.isVariable at hvar
    split at hvar <;> first | rfl | cases hvar

/-- A value keeps what it was declared as, or is a constant that has the tag. -/
theorem Lower.Gave.gives_valueTag {p : Proc} {o : Operand} {declared tag : TypeTag}
    (h : Gave (LoweringState.LeadsTo p) (valueTag o declared) tag)
    (ho : p.Gives declared.demand o) : p.Gives tag.demand o := by
  obtain ⟨s, s', hrun, hleads⟩ := h
  have hends : Ends (valueTag o declared) s (fun tag s' => s'.fn.proc.Becomes p →
      p.Gives tag.demand o) fun _ _ => True := by
    have hv : p.Gives .value o := ho.of_tag
    unfold valueTag
    split
    · exact fun _ => .of_form? rfl rfl
    · exact fun _ => .of_form? rfl rfl
    case h_8 =>
      simp only [ends_bind, ends_get]
      split <;> rename_i hk
      · exact fun hp => Proc.gives_of_constant? (hp.constant? hk) rfl
      · exact fun hp => Proc.gives_of_constant? (hp.constant? hk) rfl
      · exact fun _ => hv
      · exact fun _ => ho
    case h_9 => exact fun _ => ho
    all_goals exact fun _ => hv
  exact hends.of_ok hrun hleads

theorem Lower.Gave.gives_keyClass {p : Proc} {k : Operand} {ty : Ty} {c : KeyClass}
    (h : Gave (LoweringState.LeadsTo p) (keyClass k ty) c) (hk : p.Carries ty k) :
    p.Gives c.demand k := by
  obtain ⟨s, s', hrun, hleads⟩ := h
  have hends : Ends (keyClass k ty) s (fun c s' => s'.fn.proc.Becomes p → p.Gives c.demand k)
      fun _ _ => True := by
    simp only [keyClass, ends_bind, ends_get]
    split
    · rename_i hconst
      exact fun hp => Proc.gives_of_constant? (hp.constant? hconst) rfl
    · rename_i hconst
      exact fun hp => Proc.gives_of_constant? (hp.constant? hconst) rfl
    · split
      · rename_i hi
        cases Ty.eq_integer_of_isInteger hi
        exact fun _ => hk.gives_class
      · exact fun _ => hk.value
  exact hends.of_ok hrun hleads

namespace Origin

variable (ht : ∀ e, Occurs e → e.isTyped = true) {o : Operand} {tag : TypeTag}

include ht

theorem IsValue.carries {e : Expr} (h : IsValue symbols Occurs (LoweringState.Approaches f) e o)
    (hf : o.Fits symbols func f.proc) : f.proc.Carries e.ty o := by
  refine ⟨e.form symbols, ?_, Expr.suits_of_isTyped symbols (ht e h.occurs)⟩
  rcases (Expr.LowersTo.foretells h.gave.leadsTo).form with hform | ⟨hslot, hs⟩
  · exact hform
  · rw [hslot]
    exact Proc.form?_of_isSlot hs hf

theorem IsEntry.gives (h : IsEntry symbols Occurs (LoweringState.Approaches f) o tag)
    (hf : o.Fits symbols func f.proc) : f.proc.Gives tag.demand o := by
  cases h with
  | value h htag => exact htag.leadsTo.gives_valueTag (h.carries ht hf).gives_tag
  | result base n => exact .of_form? (Proc.form?_of_isSlot rfl hf) rfl
  | temp tag r => exact .of_form? (Proc.form?_temp hf) (by cases tag <;> rfl)
  | nil => exact .of_form? rfl rfl

theorem IsSource.gives (h : IsSource symbols Occurs (LoweringState.Approaches f) o tag)
    (hf : o.Fits symbols func f.proc) : f.proc.Gives tag.demand o := by
  cases h with
  | entry h => exact h.gives ht hf
  | declared h => exact (h.carries ht hf).gives_tag
  | generic h => exact (h.carries ht hf).value
  | «variable» h =>
    refine .of_form? (Proc.form?_of_isSlot ?_ hf) rfl
    unfold Operand.isVariable at h
    split at h <;> first | rfl | cases h
  | @constant c k h => exact Proc.gives_of_constant? h.leadsTo.constant? (by cases c <;> rfl)

theorem Answers.gives {d : Demand} (h : Answers symbols Occurs (LoweringState.Approaches f) d o)
    (hf : o.Fits symbols func f.proc) : f.proc.Gives d o := by
  cases h with
  | nothing => exact .inl rfl
  | name h => exact Proc.gives_of_constant? h.leadsTo.constant? rfl
  | source h hd => exact (h.gives ht hf).of_covers hd

theorem Answers.gives_all {ds : List Demand} {os : List Operand}
    (h : List.Forall₂ (Answers symbols Occurs (LoweringState.Approaches f)) ds os)
    (hf : ∀ o ∈ os, o.Fits symbols func f.proc) : List.Forall₂ f.proc.Gives ds os := by
  induction h with
  | nil => exact .nil
  | cons ho _ ih =>
    obtain ⟨hfo, hfs⟩ := List.forall_mem_cons.mp hf
    exact .cons (ho.gives ht hfo) (ih hfs)

theorem ArePassed.lists {os : List Operand}
    (h : ArePassed symbols Occurs (LoweringState.Approaches f) os)
    (hf : ∀ o ∈ os, o.Fits symbols func f.proc) : f.proc.Lists os := by
  induction h with
  | nil => exact Proc.lists_nil
  | all base => exact Proc.lists_range (hf _ List.mem_cons_self)
  | first base h ih =>
    obtain ⟨hfo, hfs⟩ := List.forall_mem_cons.mp hf
    exact .cons (.of_form? (if_pos hfo) rfl) (ih hfs)
  | @cons o tag os ho h ih =>
    obtain ⟨hfo, hfs⟩ := List.forall_mem_cons.mp hf
    obtain ⟨φ, hφ, hm⟩ := (ho.gives ht hfo).of_tag.resolve_left (by simp)
    refine .cons ?_ (ih hfs)
    unfold CodeContext.narrowed
    split
    · cases hφ
    · exact .of_form? hφ hm

end Origin

end Operands

section Instructions

variable {symbols : SymbolTable} {Occurs : Expr → Prop} {f : Site} {func : Function}
  {opcode : Opcode} {operands targets : List Operand}

theorem Lower.Shape.signature_positional (shape : Shape) :
    shape.positional.signature = some ⟨[.value, .int, .value], none⟩ := by
  cases shape <;> rfl

theorem Lower.Shape.signature_keyed (shape : Shape) (c : KeyClass) :
    (shape.keyed c).signature =
      some ⟨[.value, if shape = .table then c.demand else .int, .value], none⟩ := by
  cases shape <;> cases c <;> rfl

/-- The instruction is admitted if its target is a register of the proc. If it can turn into a store
it is so by what it reads. -/
def Site.AdmitsAt (f : Site) (fits : Operand → Prop) (opcode : Opcode)
    (operands targets : List Operand) : Prop :=
  ((∀ t ∈ targets.head?, fits t) → f.Admits opcode operands targets) ∧
    (opcode.storeCounterpart? = none ∨
      ∃ sig, opcode.signature = some sig ∧ List.Forall₂ f.proc.Gives sig.reads operands)

theorem Site.AdmitsAt.of_reads {fits : Operand → Prop} {reads : List Demand}
    {writes : Option TempKind} (hs : opcode.signature = some ⟨reads, writes⟩)
    (hr : List.Forall₂ f.proc.Gives reads operands)
    (hw : ∀ kind ∈ writes, ∃ t, targets = [t] ∧ (fits t → f.proc.Accepts kind t)) :
    f.AdmitsAt fits opcode operands targets := by
  refine ⟨fun ht => .plain hs hr fun kind hk => ?_, .inr ⟨_, hs, hr⟩⟩
  obtain ⟨t, rfl, ha⟩ := hw kind hk
  exact ⟨t, rfl, ha (ht t rfl)⟩

theorem Site.AdmitsAt.of_result {reads : List Demand} {kind : TempKind} {r : Nat}
    (hs : opcode.signature = some ⟨reads, some kind⟩)
    (hr : List.Forall₂ f.proc.Gives reads operands) :
    f.AdmitsAt (·.Fits symbols func f.proc) opcode operands [.temp kind r] := by
  refine .of_reads hs hr ?_
  rintro _ ⟨⟩
  exact ⟨_, rfl, Proc.accepts_of_takes (.inl ⟨r, rfl⟩)⟩

/-- What has an origin in a typed tree is admitted. -/
theorem Origin.admitsAt (ht : ∀ e, Occurs e → e.isTyped = true)
    (h : Origin symbols Occurs (LoweringState.Approaches f) f.HasChild opcode operands targets)
    (hf : ∀ o ∈ operands, o.Fits symbols func f.proc) :
    f.AdmitsAt (·.Fits symbols func f.proc) opcode operands targets := by
  induction h with
  | plain _ hs hr hw =>
    refine .of_reads hs (Answers.gives_all ht hr hf) fun kind hk => ?_
    obtain ⟨t, rfl, htakes⟩ := hw kind hk
    exact ⟨t, rfl, Proc.accepts_of_takes htakes⟩
  | @unary op e o h r =>
    obtain ⟨d, hsig, hd⟩ := Selection.signature_unary op e.ty
    exact .of_result hsig (.cons (hd _ _ (h.carries ht (hf _ List.mem_cons_self))) .nil)
  | load _ ho hk hc r =>
    obtain ⟨hfc, hfk⟩ := List.forall_mem_cons.mp hf
    have hkey := hk.carries ht (List.forall_mem_singleton.mp hfk)
    exact .of_result (Selection.signature_load _ _) (.cons (ho.carries ht hfc).value
      (.cons (hc.leadsTo.gives_keyClass hkey) .nil))
  | store h hs hv ih =>
    obtain ⟨hfs, hfv⟩ := List.forall_mem_append.mp hf
    obtain ⟨-, hnone | ⟨sig, hsig, hr⟩⟩ := ih hfs
    · rw [hnone] at hs
      cases hs
    · have hvalue := (hv.gives ht (List.forall_mem_singleton.mp hfv)).of_tag
      exact .of_reads (Opcode.signature_of_storeCounterpart? hs hsig)
        (List.rel_append hr (.cons hvalue .nil)) (by simp)
  | positional shape r hk hv =>
    simp only [List.forall_mem_cons] at hf
    exact .of_reads shape.signature_positional (.cons (.of_form? (if_pos hf.1) rfl)
      (.cons (Proc.gives_of_constant? hk.leadsTo.constant? rfl)
        (.cons (hv.carries ht hf.2.2.1).value .nil))) (by simp)
  | @keyed ty items key value k v c r he hi hk hc hv =>
    simp only [List.forall_mem_cons] at hf
    have hkey := hk.carries ht hf.2.1
    refine .of_reads ((Shape.of ty).signature_keyed c) (.cons (.of_form? (if_pos hf.1) rfl)
      (.cons ?_ (.cons (hv.carries ht hf.2.2.1).value .nil))) (by simp)
    split
    · exact hc.leadsTo.gives_keyClass hkey
    · rename_i hshape
      have ha : ty.isArray = true := by cases ty <;> first | rfl | exact absurd rfl hshape
      have hint := hkey.gives_class
      rwa [TableItem.key_of_areTyped (ht _ he) hi ha] at hint
  | operator hx hy hs r =>
    simp only [List.forall_mem_cons] at hf
    obtain ⟨d, e, hsig, hd, he⟩ := Selection.signature_binary? hs
    exact .of_result hsig (.cons ((hx.carries ht hf.1).gives_class.of_covers hd)
      (.cons ((hy.carries ht hf.2.1).gives_class.of_covers he) .nil))
  | convert h hd =>
    have hint := h.gives ht (hf _ List.mem_cons_self)
    have hs : Opcode.movIF.signature = some ⟨[.float], some .float⟩ := rfl
    refine .of_reads hs
      (.cons (hint.of_covers rfl) .nil) ?_
    rintro _ ⟨⟩
    exact ⟨_, rfl, Proc.accepts_of_takes hd⟩
  | ret b h => exact ⟨fun _ => .ret (h.lists ht hf), .inl rfl⟩
  | call base h hk =>
    obtain ⟨hbase, hargs⟩ := List.forall_mem_cons.mp hf
    exact ⟨fun _ => .call hbase (h.lists ht hargs) hk.leadsTo.constant?, .inl rfl⟩
  | @ask opcode operands targets n k h hk ih =>
    obtain ⟨hadmits, hreads⟩ := ih hf
    refine ⟨fun hhead => (hadmits ?_).setExpected hk.leadsTo.constant?, hreads⟩
    cases targets <;> exact hhead
  | closure h r =>
    refine ⟨fun hhead => .closure h ?_, .inl rfl⟩
    exact Proc.accepts_of_takes (.inl ⟨r, rfl⟩) (hhead _ rfl)

end Instructions

/-- Every instruction of a typed tree is admitted in the proc it stands in. -/
theorem Tree.lower_admits {t : Tree} {stats : Stats} {m : Module} (ht : t.isTyped = true)
    (h : (t.lower stats).2 = .ok m) :
    ∀ p ∈ m.procs, ∀ i ∈ p.instrs, Site.Admits ⟨p, m⟩ i.opcode i.operands i.targets := by
  intro p hp i hi
  obtain ⟨placements, hpop⟩ := populated_of_lower h
  obtain ⟨k, hk⟩ := Array.mem_iff_getElem?.mp hp
  have hlt : k < placements.length :=
    hpop.assigned.length_eq ▸ (Array.getElem?_eq_some_iff.mp hk).1
  have hcode := (hpop.finished k p _ hk (List.getElem?_eq_getElem hlt)).code i hi
  have hadmits := (origin_of_lower h p hp i hi).admitsAt (t.main.isTyped_parts ht)
    fun o ho => hcode o (List.mem_append_left _ ho)
  exact hadmits.1 fun o ho => hcode o (List.mem_append_right _ (List.mem_of_mem_head? ho))

end ScriptC
