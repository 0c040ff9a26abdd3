import ScriptC.Proofs.Control.Statements

/-! # Walks through functions

In a lowered function that belongs to the skeleton of a program, a walk from the entry takes the
course of the body. It ends at a return, or at a test that has no answer.
-/

namespace ScriptC

variable (symbols : SymbolTable)

section Lists

theorem Expr.areDirect_iff {es : List Expr} :
    Expr.areDirect symbols es = true ↔ ∀ e ∈ es, e.isDirect symbols = true := by
  induction es with
  | nil => simp [areDirect]
  | cons e es ih => simp [areDirect, ih]

theorem Expr.listActions_eq (es : List Expr) :
    Expr.listActions symbols es = (es.map (·.actions symbols)).flatten := by
  induction es with
  | nil => rfl
  | cons e es ih => rw [listActions, ih, List.map_cons, List.flatten_cons]

theorem TableItem.areDirect_iff {items : List TableItem} : TableItem.areDirect symbols items = true ↔
    ∀ i ∈ items, ∀ e ∈ i.exprs, e.isDirect symbols = true := by
  induction items with
  | nil => simp [areDirect]
  | cons i items ih => cases i <;> simp [areDirect, exprs, ih, and_assoc]

theorem TableItem.actions_eq (items : List TableItem) : TableItem.actions symbols items =
    (items.map fun i => Expr.listActions symbols i.exprs).flatten := by
  induction items with
  | nil => rfl
  | cons i items ih => cases i <;> simp [actions, exprs, Expr.listActions, ih]

theorem Stmt.areSkeletons_iff {ss : List Stmt} :
    Stmt.areSkeletons symbols ss = true ↔ ∀ s ∈ ss, s.isSkeleton symbols = true := by
  induction ss with
  | nil => simp [areSkeletons]
  | cons s ss ih => simp [areSkeletons, ih]

theorem Clause.areSkeletons_iff {cs : List Clause} : Clause.areSkeletons symbols cs = true ↔
    ∀ c ∈ cs, c.cond.isLocal symbols = true ∧ Stmt.areSkeletons symbols c.body = true := by
  induction cs with
  | nil => simp [areSkeletons]
  | cons c cs ih =>
    obtain ⟨cond, body⟩ := c
    simp [areSkeletons, ih]

theorem Stmt.courses_eq_foldr (ss : List Stmt) : Stmt.courses symbols ss =
    ss.foldr (fun s rest answers => (s.course symbols answers).andThen rest) (⟨[], .done, ·⟩) := by
  induction ss with
  | nil => rw [courses, List.foldr_nil]
  | cons s ss ih => rw [courses, ih, List.foldr_cons]

theorem Clause.course_eq_decide (otherwise : List Bool → Course) (cs : List Clause) :
    Clause.course symbols otherwise cs = Course.decide otherwise
      (cs.map fun c => (c.cond.variableName symbols, Stmt.courses symbols c.body)) := by
  induction cs with
  | nil => rw [course, List.map_nil, Course.decide]
  | cons c cs ih =>
    obtain ⟨cond, body⟩ := c
    rw [course, ih, List.map_cons, Course.decide]

end Lists

theorem Expr.variableName_symbol {ty : Ty} {id : SymbolId} {sym : Symbol}
    (h : symbols.get? id = some sym) : Expr.variableName symbols ⟨ty, .symbol id⟩ = sym.name := by
  simp only [variableName, SymbolTable.nameOf, h]

namespace Lower

theorem isVariable_of_isLocal {cond : Expr} (h : cond.isLocal symbols = true) :
    Part.IsVariable (ofExpr symbols cond) (cond.variableName symbols) := by
  unfold Expr.isLocal at h
  split at h
  · obtain ⟨sym, hs, hk⟩ := (Option.any_eq_true _ _).mp h
    intro s
    rw [Expr.variableName_symbol symbols hs]
    simp only [ofExpr, ofKind, one, plain, readSymbol, symbol, hs, ends_bind, ends_pure]
    cases hkind : sym.kind with
    | localOf f =>
      simp only [lookupLocal, ends_bind, ends_get, ends_pure]
      split
      · exact ⟨rfl, _, rfl, rfl⟩
      · trivial
    | upvalue target index => simp [hkind, SymbolKind.isLocal] at hk
    | global => simp [hkind, SymbolKind.isLocal] at hk
  · simp at h

theorem isGlobal_ofExpr {callee : Expr} (h : callee.isGlobal symbols = true) :
    Part.IsGlobal (ofExpr symbols callee) (callee.variableName symbols) := by
  unfold Expr.isGlobal at h
  split at h
  · obtain ⟨sym, hs, hk⟩ := (Option.any_eq_true _ _).mp h
    rw [Expr.variableName_symbol symbols hs, ofExpr, ofKind]
    exact isGlobal_symbol symbols hs (of_decide_eq_true hk)
  · simp at h

theorem actions_of_isGlobal {callee : Expr} (h : callee.isGlobal symbols = true) :
    callee.actions symbols = [] := by
  unfold Expr.isGlobal at h
  split at h
  · rw [Expr.actions, ExprKind.actions]
    all_goals simp
  · simp at h

theorem forall₂_acts {es : List Expr}
    (h : ∀ e ∈ es, Part.Acts (ofExpr symbols e) (e.actions symbols)) :
    List.Forall₂ Part.Acts (ofExprs symbols es) (es.map (·.actions symbols)) := by
  rw [ofExprs_eq_map]
  exact List.forall₂_map_left_iff.mpr (List.forall₂_map_right_iff.mpr (List.forall₂_same.mpr h))

theorem acts_ofItem {item : TableItem}
    (h : ∀ e ∈ item.exprs, Part.Acts (ofExpr symbols e) (e.actions symbols)) :
    Item.Acts (ofItem symbols item) (Expr.listActions symbols item.exprs) := by
  rw [Expr.listActions_eq]
  cases item with
  | positional value => simpa [TableItem.exprs] using .positional (h value (by simp [TableItem.exprs]))
  | named name value => simpa [TableItem.exprs] using .named (h value (by simp [TableItem.exprs]))
  | keyed key value =>
    simpa [TableItem.exprs] using
      .keyed (h key (by simp [TableItem.exprs])) (h value (by simp [TableItem.exprs]))

theorem ends_ofFunction_fn (f : Function) (s : LoweringState) :
    Ends (ofFunction symbols f) s (fun _ s' => s'.fn = s.fn) fun _ _ => True := by
  obtain ⟨id, name, params, isVararg, upvalues, body⟩ := f
  rw [ofFunction, ends_bind, ends_get]
  exact ends_function_fn symbols _ _ _ s

theorem enacts_ofBlock {body : List Stmt}
    (h : ∀ s ∈ body, Enacts (ofStmt symbols s) (s.course symbols)) :
    Enacts (ofBlock symbols body) (Stmt.courses symbols body) := by
  have hs : ∀ x ∈ body.map fun s => (ofStmt symbols s, s.course symbols), Enacts x.1 x.2 := by
    simpa using h
  have hseq := enacts_sequence hs
  rw [List.map_map, List.foldr_map] at hseq
  rw [ofBlock, ofStmts_eq_map, Stmt.courses_eq_foldr]
  exact hseq

/-- Expressions without conditions make their calls, and statements of the skeleton take their
course. -/
theorem treeCases_enacts : TreeCases
    (fun e => e.isDirect symbols = true → Part.Acts (ofExpr symbols e) (e.actions symbols))
    (fun s => s.isSkeleton symbols = true → Enacts (ofStmt symbols s) (s.course symbols))
    fun _ => True where
  nil _ _ := acts_plain (uses_pure rfl)
  true _ _ := acts_plain (uses_pure rfl)
  false _ _ := acts_plain (uses_pure rfl)
  integer _ _ _ := acts_plain (uses_constant _)
  number _ _ _ := acts_plain (uses_constant _)
  string _ _ _ := acts_plain (uses_constant _)
  vararg _ _ := fun _ _ _ _ _ _ _ => trivial
  symbol _ id _ := acts_plain (uses_readSymbol symbols id)
  index _ _ _ ho hk hd := by
    simp only [Expr.isDirect, ExprKind.isDirect, Bool.and_eq_true] at hd
    exact acts_plain (uses_index (ho hd.1) (hk hd.2))
  call ty callee args _ ha hd := by
    simp only [Expr.isDirect, ExprKind.isDirect, Bool.and_eq_true, Expr.areDirect_iff] at hd
    have hargs := forall₂_acts symbols fun e he => ha e he (hd.2 e he)
    have hlen : (ofExprs symbols args).length = args.length := by simp
    rw [Expr.actions, ExprKind.actions, actions_of_isGlobal symbols hd.1, List.nil_append,
      Expr.listActions_eq, ← hlen, ofExpr, ofKind]
    exact acts_call (isGlobal_ofExpr symbols hd.1) hargs
  methodCall _ _ _ _ _ _ hd := by simp [Expr.isDirect, ExprKind.isDirect] at hd
  unary _ op _ h hd := by
    simp only [Expr.isDirect, ExprKind.isDirect] at hd
    exact acts_plain (uses_unary op (h hd))
  binary _ op _ _ hl hr hd := by
    simp only [Expr.isDirect, ExprKind.isDirect, Bool.and_eq_true, Bool.not_eq_true'] at hd
    exact acts_plain (uses_binary hd.1.1 (hl hd.1.2) (hr hd.2))
  function _ func _ _ := acts_plain (uses_closure ((treeCases_follows symbols).func func).keeps
    (ends_ofFunction_fn symbols func))
  table ty items h hd := by
    simp only [Expr.isDirect, ExprKind.isDirect, TableItem.areDirect_iff] at hd
    have hitems : List.Forall₂ Item.Acts (ofItems symbols items)
        (items.map fun i => Expr.listActions symbols i.exprs) := by
      rw [ofItems_eq_map]
      exact List.forall₂_map_left_iff.mpr (List.forall₂_map_right_iff.mpr (List.forall₂_same.mpr
        fun i hi => acts_ofItem symbols fun e he => h i hi e he (hd i hi e he)))
    rw [Expr.actions, ExprKind.actions, TableItem.actions_eq, ofExpr, ofKind]
    exact acts_plain (uses_construct ty hitems)
  declare _ _ _ hs := by simp [Stmt.isSkeleton] at hs
  declareFunction _ _ _ hs := by simp [Stmt.isSkeleton] at hs
  assign _ _ _ _ hs := by simp [Stmt.isSkeleton] at hs
  eval expr h hs := by
    rw [Stmt.isSkeleton] at hs
    rw [ofStmt, Stmt.course]
    exact enacts_eval (h hs)
  ret exprs h hs := by
    rw [Stmt.isSkeleton, Expr.areDirect_iff] at hs
    rw [ofStmt, Stmt.course, Expr.listActions_eq]
    exact enacts_ret (forall₂_acts symbols fun e he => h e he (hs e he))
  block body h hs := by
    rw [Stmt.isSkeleton, Stmt.areSkeletons_iff] at hs
    rw [ofStmt, Stmt.course]
    exact enacts_inScope (enacts_ofBlock symbols fun s hmem => h s hmem (hs s hmem))
  branch clauses otherwise hc ho hs := by
    simp only [Stmt.isSkeleton, Bool.and_eq_true, Bool.not_eq_true', Clause.areSkeletons_iff,
      Stmt.areSkeletons_iff] at hs
    obtain ⟨⟨hne, hcs⟩, hother⟩ := hs
    rw [ofStmt, Stmt.course, Clause.course_eq_decide, ofClauses_eq_map, ofOtherwise_eq_map]
    refine enacts_branch ?_ ?_ ?_ ?_
    · refine List.forall₂_map_left_iff.mpr (List.forall₂_map_right_iff.mpr
        (List.forall₂_same.mpr fun c hmem => ⟨isVariable_of_isLocal symbols (hcs c hmem).1, ?_⟩))
      exact enacts_ofBlock symbols fun s hs => (hc c hmem).2 s hs ((hcs c hmem).2 s hs)
    · simpa using hne
    · intro hnone
      rw [Option.map_eq_none_iff.mp hnone, Stmt.otherwiseCourse]
    · intro x hx
      obtain ⟨body, rfl, rfl⟩ := Option.map_eq_some_iff.mp hx
      rw [Stmt.otherwiseIsSkeleton, Stmt.areSkeletons_iff] at hother
      rw [Stmt.otherwiseCourse]
      exact enacts_ofBlock symbols fun s hs => ho body rfl s hs (hother s hs)
  whileLoop cond body _ hb hs := by
    simp only [Stmt.isSkeleton, Bool.and_eq_true, Stmt.areSkeletons_iff] at hs
    rw [ofStmt, Stmt.course]
    exact enacts_whileLoop (isVariable_of_isLocal symbols hs.1)
      (enacts_ofBlock symbols fun s hmem => hb s hmem (hs.2 s hmem)) (Stmt.shrinks_courses symbols body)
  repeatLoop body cond hb _ hs := by
    simp only [Stmt.isSkeleton, Bool.and_eq_true, Stmt.areSkeletons_iff] at hs
    rw [ofStmt, Stmt.course]
    exact enacts_repeatLoop (enacts_ofBlock symbols fun s hmem => hb s hmem (hs.2 s hmem))
      (isVariable_of_isLocal symbols hs.1) (Stmt.shrinks_courses symbols body)
  numericFor _ _ _ _ _ _ _ _ _ hs := by simp [Stmt.isSkeleton] at hs
  genericFor _ _ _ hs := by simp [Stmt.isSkeleton] at hs
  leave _ := by
    rw [ofStmt, Stmt.course]
    exact enacts_leave
  jump _ hs := by simp [Stmt.isSkeleton] at hs
  label _ hs := by simp [Stmt.isSkeleton] at hs
  body _ _ := trivial

end Lower

/-- The instruction at which a function stops. A break does not get out of it. -/
def Ending.final? : Ending → Option Opcode
  | done | returned => some .ret
  | waiting => some .cbr
  | left => none

/-- For all answers, a walk from the entry takes the course `play` and can go no further. -/
def Proc.Follows (p : Proc) (play : List Bool → Course) : Prop :=
  ∀ held answers, ∃ w final, Reaches p.walk ⟨entryBlock, 0, held, answers⟩ (play answers).actions w ∧
    p.walk w = none ∧ w.answers = (play answers).rest ∧
    (play answers).ending.final? = some final ∧ p.opcodeAt? w = some final

namespace Proc

variable {p : Proc} {w : Walker}

theorem walk_eq_none_of_ret (h : p.opcodeAt? w = some .ret) : p.walk w = none := by
  obtain ⟨i, hi, ho⟩ := Option.map_eq_some_iff.mp h
  simp [walk, hi, Walker.follow, ho]

theorem walk_eq_none_of_cbr (h : p.opcodeAt? w = some .cbr) (ha : w.answers = []) :
    p.walk w = none := by
  obtain ⟨i, hi, ho⟩ := Option.map_eq_some_iff.mp h
  simp [walk, hi, Walker.follow, ho, ha]

/-- Where control leaves the body, the function returns. -/
theorem Follows.of_takes {play : List Bool → Course} {next : Nat → Nat → Prop}
    (h : ∀ held answers, p.Takes next (fun _ _ => False) ⟨entryBlock, 0, held, answers⟩ (play answers))
    (hn : ∀ w : Walker, next w.block w.position → p.opcodeAt? w = some .ret) : p.Follows play := by
  intro held answers
  obtain ⟨w, hr, ha, he⟩ := h held answers
  cases hc : (play answers).ending with
  | done =>
    rw [hc] at he
    exact ⟨w, .ret, hr, walk_eq_none_of_ret (hn w he), ha, rfl, hn w he⟩
  | left =>
    rw [hc] at he
    exact he.elim
  | returned =>
    rw [hc] at he
    exact ⟨w, .ret, hr, walk_eq_none_of_ret he, ha, rfl, he⟩
  | waiting =>
    rw [hc] at he
    exact ⟨w, .cbr, hr, walk_eq_none_of_cbr he.1 (ha.trans he.2), ha, rfl, he.1⟩

end Proc

namespace Lower

theorem uses_declareLocal (id : SymbolId) :
    Uses [] (declareLocal symbols id) (fun _ => []) [] := by
  refine (uses_symbol symbols id).finish fun sym => ?_
  intro Γ k fn rs trace s h
  simp only [ends_bind, ends_onProc, ends_get]
  split
  · trivial
  · have hw := h.within.sameCode (q := s.fn.proc.allocLocal.1) rfl rfl rfl h.within.pools
    rw [List.append_nil]
    exact ⟨{ hw with }, h.isOpen, h.continues.replace rfl (fun _ => rfl) (.of_eq rfl rfl)
      h.continues.stacked h.continues.stack⟩

theorem ends_declareLocal_symbol (id : SymbolId) (s : LoweringState) :
    Ends (declareLocal symbols id) s (fun o _ => ∃ ref, o = .symbol ref) fun _ _ => True := by
  simp only [declareLocal, ends_bind]
  refine (ends_anything _ s).imp fun sym s₁ _ => ?_
  simp only [ends_onProc, ends_get]
  split
  · trivial
  · exact ⟨_, rfl⟩

/-- The guards of parameters stand at the start of the entry. -/
theorem uses_declareParams (params : List SymbolId) :
    Uses [] (declareParams symbols params) (fun _ => []) [] := by
  induction params with
  | nil => exact uses_pure rfl
  | cons id params ih =>
    change Uses [] (_ >>= fun _ => declareParams symbols params) _ _
    refine Uses.finish ?_ fun _ => ih
    intro Γ k fn rs trace s h
    rw [ends_bind]
    refine ((uses_declareLocal symbols id h).and (ends_declareLocal_symbol symbols id s)).mono ?_
      fun _ _ _ => trivial
    rintro _ s₁ ⟨h₁, ref, rfl⟩
    rw [List.append_nil] at h₁ ⊢
    split
    · rename_i guard hg
      rw [emit, ends_discard]
      exact ends_emitId_straight h₁ (guardOpcode?_isStraight hg) (by simp) (by simp)
    · exact h₁

theorem ends_returnAtEnd_ret {Γ : Setting} {s : LoweringState} (h : s.Within Γ) :
    Ends returnAtEnd s (fun _ s' => s.fn.proc.Grows s'.fn.proc ∧ ∀ p, s'.fn.proc.Grows p →
      ∀ w : Walker, s.fn.Front w.block w.position → p.opcodeAt? w = some .ret) fun _ _ => True := by
  simp only [returnAtEnd, ends_bind, ends_isTerminated]
  split <;> rename_i ht
  · exact ⟨.refl _, fun p _ w hw => absurd hw (FunctionState.not_front ht _ _)⟩
  · have ho := h.laid.isOpen_of_not_terminated ht
    have hr : Instr.TargetsWithin s.fn.proc.blocks.size
        ⟨.ret, [], [.block exitBlock], s.fn.block⟩ := rfl
    rw [emit, ends_discard]
    refine (ends_emitId_of_open h ho hr).imp ?_
    rintro i s' ⟨-, -, hp, -⟩
    refine ⟨hp ▸ .appended h.laid.current_lt, ?_⟩
    rintro p hg ⟨b, k, held, answers⟩ ⟨-, rfl, rfl⟩
    have hi : s'.fn.proc.instrAt? s.fn.block (s.fn.proc.ids s.fn.block).length =
        some ⟨.ret, [], [.block exitBlock], s.fn.block⟩ := by
      rw [hp, Proc.instrAt?_appended h.laid.current_lt]
    obtain ⟨j, hj, ha⟩ := hg.instrAt? hi
    simp only [Proc.opcodeAt?, hj, Option.map_some, ha.opcode]

theorem ends_functionCode_follows (params : List SymbolId) {body : Lower Unit}
    {play : List Bool → Course} (hb : Enacts body play) {procs : Array Proc} {n : Nat}
    {s : LoweringState} (h : s.Within (functionSetting procs n true))
    (hk : s.fn.proc.anys.IsStack 0) (hentry : s.fn.block = entryBlock)
    (hids : s.fn.proc.ids s.fn.block = []) :
    Ends (functionCode symbols params body) s (fun _ s' => s'.fn.proc.Follows play)
      fun _ _ => True := by
  simp only [functionCode, openScope, ends_bind, ends_modifyFn]
  have hscope : LoweringState.Within (functionSetting procs n true)
      { s with fn := { s.fn with scopes := [] :: s.fn.scopes } } := { h with }
  refine (uses_declareParams symbols params (poised_start hscope rfl hk)).imp ?_
  rintro _ s₁ h₁
  refine (hb h₁.within rfl h₁.continues.stack).imp ?_
  rintro _ s₂ ⟨h₂, he₂⟩
  refine ((ends_returnAtEnd h₂).and (ends_returnAtEnd_ret h₂)).mono ?_ fun _ _ _ => trivial
  rintro _ s₃ ⟨-, hg₃, hret₃⟩
  refine (ends_closeScope s₃).mono ?_ fun _ _ _ => trivial
  rintro _ s₄ hlocals
  have hcode₄ := (sameCode_of_sameButLocals hlocals).1
  refine .of_takes (fun held answers => ?_) (hret₃ _ hcode₄.grows)
  have hg₂ := hg₃.trans hcode₄.grows
  obtain ⟨held', hr, -⟩ := h₁.continues.walks _ (he₂.grows.trans hg₂) held answers
  have hstart : FunctionState.here { s.fn with scopes := [] :: s.fn.scopes } held answers =
      ⟨entryBlock, 0, held, answers⟩ := FunctionState.here_of_empty hids hentry held answers
  rw [hstart] at hr
  refine .of_reaches hr ((he₂.takes _ hg₂ held' answers).mono (fun _ _ => id) ?_)
  rintro b k ⟨hexit, -⟩
  cases hexit

theorem ends_function_follows (f : Function) (parent : Option Nat) {body : Lower Unit}
    {play : List Bool → Course} {u : Usage Unit} (hf : Fits body u) (hb : Enacts body play)
    (s : LoweringState) :
    Ends (function symbols f parent body) s
      (fun id s' => id = s.module.procs.size ∧
        ∃ p, s'.module.procs[id]? = some p ∧ p.Follows play) fun _ _ => True := by
  rw [function, ends_bind]
  refine (ends_resolveUpvalues symbols f parent s).imp ?_
  rintro resolved s₁ rfl
  simp only [newProc, Module.newProc, ends_bind, ends_get]
  split <;> rename_i hnew
  · split at hnew
    · cases hnew
      simp only [ends_bind, ends_modify, ends_pure, ends_modifyFn]
      have hstart := within_functionSetting
        { s₁ with module := ⟨s₁.module.procs.push { id := s₁.module.procs.size, parent }⟩ }
        { id := s₁.module.procs.size, parent, name := f.name, upvalues := resolved.map (·.1),
          isVararg := f.isVararg, params := f.params.length }
        f.id (resolved.map (·.2)) rfl rfl fun kind => by cases kind <;> rfl
      have hfollows := ends_functionCode_follows symbols f.params hb hstart Registers.isStack_empty
        rfl (Proc.ids_fresh rfl _)
      refine (Ends.and (records_functionCode symbols f.params hf hstart) hfollows).mono ?_
        fun _ _ _ => trivial
      rintro _ s' ⟨⟨-, -, hw, -⟩, hp⟩
      have hsize : s₁.module.procs.size + 1 ≤ s'.module.procs.size := by
        simpa [functionSetting] using hw.procs_le
      exact ⟨trivial, s'.fn.proc, Array.getElem?_setIfInBounds_self_of_lt hsize, hp⟩
    · cases hnew
  · trivial

theorem enacts_body {body : List Stmt} (h : Stmt.areSkeletons symbols body = true) :
    Enacts (ofBlock symbols body) (Stmt.courses symbols body) :=
  enacts_ofBlock symbols fun s hs =>
    (treeCases_enacts symbols).stmt s ((Stmt.areSkeletons_iff symbols).mp h s hs)

end Lower

/-- Whenever a function whose body belongs to the skeleton of a program is lowered, its proc follows
the course of the body; so does the first proc of a tree with such a main function. -/
theorem Function.lowered_follows_course (symbols : SymbolTable) (f : Function)
    (h : Stmt.areSkeletons symbols f.body = true) :
    (∀ parent s id s', Lower.function symbols f parent (Lower.ofBlock symbols f.body) s = .ok id s' →
      ∃ p, s'.module.procs[id]? = some p ∧ p.Follows (Stmt.courses symbols f.body)) ∧
    ∀ stats m, (Tree.lower ⟨symbols, f⟩ stats).2 = .ok m →
      ∃ p, m.procs[0]? = some p ∧ p.Follows (Stmt.courses symbols f.body) := by
  have hrun := fun parent => Lower.ends_function_follows symbols f parent
    (Lower.fits_ofBlock symbols f.body) (Lower.enacts_body symbols h)
  constructor
  · intro parent s id s' hok
    exact ((hrun parent s).of_ok hok).2
  · intro stats m hm
    unfold Tree.lower at hm
    split at hm
    · rename_i id s hok
      cases hm
      obtain ⟨rfl, hp⟩ := (hrun none _).of_ok hok
      exact hp
    · cases hm

/-- With `c` and `d` as parameters:
`while c do if d then f() break elseif c then g() end end repeat h() until d`. -/
def Tree.nestedLoops : Tree where
  symbols := ⟨#[⟨"c", .any, .localOf 0⟩, ⟨"d", .any, .localOf 0⟩, ⟨"f", .any, .global⟩,
    ⟨"g", .any, .global⟩, ⟨"h", .any, .global⟩]⟩
  main :=
    { id := 0, name := none, params := [0, 1], isVararg := false, upvalues := []
      body := [
        .whileLoop ⟨.any, .symbol 0⟩ [.branch [
          ⟨⟨.any, .symbol 1⟩, [.eval ⟨.any, .call ⟨.any, .symbol 2⟩ []⟩, .leave]⟩,
          ⟨⟨.any, .symbol 0⟩, [.eval ⟨.any, .call ⟨.any, .symbol 3⟩ []⟩]⟩] none],
        .repeatLoop [.eval ⟨.any, .call ⟨.any, .symbol 4⟩ []⟩] ⟨.any, .symbol 1⟩] }

theorem Tree.nestedLoops_follows_course :
    Stmt.areSkeletons nestedLoops.symbols nestedLoops.main.body = true ∧
      ∃ m p, (nestedLoops.lower {}).2 = .ok m ∧ m.procs[0]? = some p ∧
        p.Follows (Stmt.courses nestedLoops.symbols nestedLoops.main.body) := by
  have hskeleton : Stmt.areSkeletons nestedLoops.symbols nestedLoops.main.body = true := by
    decide +kernel
  have hok : (nestedLoops.lower {}).2.toOption.isSome = true := by decide +kernel
  cases hl : (nestedLoops.lower {}).2 with
  | error e => simp [hl, Except.toOption] at hok
  | ok m =>
    obtain ⟨p, hp, hf⟩ := (Function.lowered_follows_course _ _ hskeleton).2 {} m hl
    exact ⟨hskeleton, m, p, rfl, hp, hf⟩

example : Stmt.courses Tree.nestedLoops.symbols Tree.nestedLoops.main.body
    [true, false, true, true, true, true] =
      ⟨[.test "c", .test "d", .test "c", .call "g" 0, .test "c", .test "d", .call "f" 0,
        .call "h" 0, .test "d"], .done, []⟩ := by
  decide +kernel

end ScriptC
