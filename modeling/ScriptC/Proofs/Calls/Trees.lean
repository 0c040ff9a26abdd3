import ScriptC.Compilation
import ScriptC.Proofs.Calls.Stack
import ScriptC.Proofs.Calls.Statements

/-! # Calls of trees

The calls that lowering emits are those of the use of temporaries that the tree describes.
-/

namespace ScriptC.Lower

variable (symbols : SymbolTable)

theorem forall₂_follows {es : List Expr}
    (h : ∀ e ∈ es, (ofExpr symbols e).Follows (e.described symbols)) :
    List.Forall₂ Part.Follows (ofExprs symbols es) (valueUsages symbols es) := by
  rw [ofExprs_eq_map, valueUsages_eq_map]
  exact List.forall₂_map_left_iff.mpr (List.forall₂_map_right_iff.mpr (List.forall₂_same.mpr h))

theorem lays_ofBlock {body : List Stmt}
    (h : ∀ s ∈ body, Lays s.ends (ofStmt symbols s) (s.usage symbols)) :
    Lays (Stmt.anyEnds body) (ofBlock symbols body) (blockUsage symbols body) := by
  have hs : ∀ p ∈ body.map fun s => (s.ends, ofStmt symbols s, s.usage symbols),
      Lays p.1 p.2.1 p.2.2 := by simpa using h
  have hl := lays_sequence hs
  rw [List.map_map, List.map_map, List.any_map] at hl
  rw [ofBlock, ofStmts_eq_map, blockUsage, stmtUsages_eq_map, Stmt.anyEnds_eq_any]
  exact hl

theorem follows_ofItem {item : TableItem}
    (h : ∀ e ∈ item.exprs, (ofExpr symbols e).Follows (e.described symbols)) :
    Item.Follows (ofItem symbols item) (item.usage symbols) := by
  cases item with
  | positional value => exact .positional (h value (by simp [TableItem.exprs]))
  | named name value => exact .named (h value (by simp [TableItem.exprs]))
  | keyed key value =>
    exact .keyed (h key (by simp [TableItem.exprs])) (h value (by simp [TableItem.exprs]))

theorem tracks_ofTarget (t : Expr) (h : ∀ ty object key, t = ⟨ty, .index object key⟩ →
    (ofExpr symbols object).Follows (object.described symbols) ∧
      (ofExpr symbols key).Follows (key.described symbols)) :
    Tracks (ofTarget symbols t) (t.targetUsage symbols) fun t regs _ => t.Holds regs := by
  unfold ofTarget
  split
  · exact tracks_symbolTarget symbols _
  · rename_i ty object key
    obtain ⟨ho, hk⟩ := h ty object key rfl
    have ht := tracks_indexTarget ho hk
    rw [ofExpr_ty] at ht
    exact ht
  · exact fun _ => tracks_invalid

theorem lays_ofNumericFor (var : SymbolId) (start limit : Expr) (step : Option Expr)
    (body : List Stmt) (hs : (ofExpr symbols start).Follows (start.described symbols))
    (hl : (ofExpr symbols limit).Follows (limit.described symbols))
    (hp : ∀ e ∈ step, (ofExpr symbols e).Follows (e.described symbols))
    (hb : ∀ s ∈ body, Lays s.ends (ofStmt symbols s) (s.usage symbols)) :
    Lays false (ofStmt symbols (.numericFor var start limit step body))
      ((Stmt.numericFor var start limit step body).usage symbols) := by
  have hstep : Option.Rel Part.Follows (step.map (ofExpr symbols))
      (step.map (·.described symbols)) := by
    cases step with
    | none => exact .none
    | some e => exact .some (hp e rfl)
  have h := lays_numericFor symbols var (constantStep? step) hs hl hstep (lays_ofBlock symbols hb).fits
  rw [ofExpr_ty, ofExpr_ty] at h
  rw [ofStmt, ofStep_eq_map, Stmt.usage, stepUsage_eq]
  exact h

/-- Every form of tree follows its use of temporaries and keeps the block discipline. -/
theorem treeCases_follows : TreeCases
    (fun e => (ofExpr symbols e).Follows (e.described symbols))
    (fun s => Lays s.ends (ofStmt symbols s) (s.usage symbols))
    fun f => Tracks (ofFunction symbols f) (f.usage symbols) fun _ _ _ => True where
  nil ty := follows_sentinel ty ⟨rfl, rfl⟩ rfl rfl fun _ => rfl
  true ty := follows_sentinel ty ⟨rfl, rfl⟩ rfl rfl fun _ => rfl
  false ty := follows_sentinel ty ⟨rfl, rfl⟩ rfl rfl fun _ => rfl
  integer ty n := follows_constant ty _
  number ty x := follows_constant ty _
  string ty s := follows_constant ty _
  vararg _ := fun _ => tracks_throw
  symbol ty id := follows_symbol symbols ty id
  index ty object key ho hk := by
    have h := tracks_index ho hk
    rw [ofExpr_ty] at h
    exact follows_temp ty h
  call ty callee args hc ha := by
    have h := follows_call ty hc (forall₂_follows symbols ha)
    rw [map_use_valueUsages] at h
    exact h
  methodCall ty object name args ho ha := by
    have h := follows_methodCall ty name ho (forall₂_follows symbols ha)
    rw [map_use_valueUsages] at h
    exact h
  unary ty op operand h := by
    have h := tracks_unary op h
    rw [ofExpr_ty] at h
    exact follows_temp ty h
  binary ty op lhs rhs hl hr := by
    have h := tracks_binary op hl hr
    rw [ofExpr_ty, ofExpr_ty] at h
    exact follows_temp ty h
  function ty _ h := follows_temp ty (tracks_closure h)
  table ty items h := by
    have hi : List.Forall₂ Item.Follows (ofItems symbols items) (itemUsages symbols items) := by
      rw [ofItems_eq_map, itemUsages_eq_map]
      exact List.forall₂_map_left_iff.mpr (List.forall₂_map_right_iff.mpr
        (List.forall₂_same.mpr fun i hi => follows_ofItem symbols (h i hi)))
    exact follows_temp ty (tracks_construct ty hi)
  declare vars _ h := (tracks_declare symbols vars (forall₂_follows symbols h)).lays
  declareFunction var _ h := (tracks_declareFunction symbols var h).lays
  assign targets exprs ht he := by
    refine (tracks_assign ?_ (forall₂_follows symbols he)).lays
    rw [ofTargets_eq_map, targetUsages_eq_map]
    exact List.forall₂_map_left_iff.mpr (List.forall₂_map_right_iff.mpr
      (List.forall₂_same.mpr fun t hmem => tracks_ofTarget symbols t (ht t hmem)))
  eval _ h := (tracks_eval h).lays
  ret _ h := by
    have hr := lays_ret (forall₂_follows symbols h)
    rw [map_use_valueUsages] at hr
    exact hr
  block _ h := lays_inScope (lays_ofBlock symbols h)
  branch clauses otherwise hc ho := by
    have hb : List.Forall₂ ClauseFollows (ofClauses symbols clauses)
        (clauseUsages symbols clauses) := by
      rw [ofClauses_eq_map, clauseUsages_eq_map]
      exact List.forall₂_map_left_iff.mpr (List.forall₂_map_right_iff.mpr
        (List.forall₂_same.mpr fun c hmem =>
          ⟨_, _, (hc c hmem).1, (lays_ofBlock symbols (hc c hmem).2).fits, rfl⟩))
    rw [ofStmt, Stmt.usage, otherwiseUsages_eq]
    refine lays_branch hb ?_
    rw [ofOtherwise_eq_map]
    cases otherwise with
    | none => exact .none
    | some body => exact .some (lays_ofBlock symbols (ho body rfl)).fits
  whileLoop _ _ hc hb := lays_whileLoop hc (lays_ofBlock symbols hb).fits
  repeatLoop _ _ hb hc := lays_repeatLoop (lays_ofBlock symbols hb).fits hc
  numericFor := lays_ofNumericFor symbols
  genericFor _ _ _ := fun _ _ _ _ => records_failure
  leave := lays_leave
  jump _ := fun _ _ _ _ => records_failure
  label _ := fun _ _ _ _ => records_failure
  body f h := by
    obtain ⟨id, name, params, isVararg, upvalues, body⟩ := f
    rw [ofFunction]
    intro s
    rw [TracksFrom, Records, ends_bind, ends_get]
    exact tracks_function symbols _ _ (lays_ofBlock symbols h).fits s

theorem fits_ofBlock (body : List Stmt) :
    Fits (ofBlock symbols body) (blockUsage symbols body) :=
  (lays_ofBlock symbols ((treeCases_follows symbols).stmts body)).fits

end ScriptC.Lower

namespace ScriptC

/-- What is live and takes no part in the call lies below the callee. -/
def CallSite.Clear (c : CallSite) : Prop :=
  ∃ r rest, c.operands = .tempAny r :: rest ∧ ∀ q, c.pool.IsLive q → q ≠ r →
    q ∉ rest.filterMap Operand.stackRegister? → q < r

theorem CallSite.clear_iff_view (c : CallSite) : c.Clear ↔ c.view.Clear := by
  constructor
  · rintro ⟨r, rest, ho, h⟩
    simp only [view, ho]
    exact ⟨r, rfl, h⟩
  · rintro ⟨r, hr, h⟩
    simp only [view] at hr h
    split at hr
    · rename_i rest ho
      cases hr
      rw [ho] at h
      exact ⟨r, rest, ho, h⟩
    · cases hr

namespace Tree

variable (t : Tree) (stats : Stats)

/-- The calls that lowering emits, as far as it gets. -/
def emittedCalls : List CallSite :=
  match t.lowering stats with
  | .ok _ s => s.calls
  | .error _ s => s.calls

/-- All numeric loops of the tree are plain. -/
def plainLoops : Bool := t.main.plainLoops t.symbols

/-- The calls that are emitted are the first of those that the tree describes, and all of them if
lowering succeeds. -/
theorem views_emittedCalls :
    ∃ l, l <+: t.callViews ∧ (t.emittedCalls stats).map CallSite.view = l.reverse ∧
      ((∃ m, (t.lower stats).2 = .ok m) → l = t.callViews) := by
  have htracks := Lower.tracks_function t.symbols t.main none
    (Lower.fits_ofBlock t.symbols t.main.body)
    { stats, module := {}, fn := { proc := { id := 0, parent := none }, function := t.main.id } }
  have hviews : t.callViews = (blockUsage t.symbols t.main.body {}).2.2 := by
    rw [callViews]
    obtain ⟨symbols, ⟨id, name, params, isVararg, upvalues, body⟩⟩ := t
    rfl
  unfold emittedCalls lower
  cases hrun : t.lowering stats with
  | ok id s =>
    have h := Lower.Ends.of_ok htracks hrun
    refine ⟨t.callViews, List.prefix_refl _, ?_, fun _ => rfl⟩
    simpa [LoweringState.views, Usage.nested, hviews] using h.2.1
  | error e s =>
    obtain ⟨l, hl, hv⟩ := Lower.Ends.of_error htracks hrun
    refine ⟨l, hviews ▸ hl, ?_, fun ⟨m, hm⟩ => by cases hm⟩
    simpa [LoweringState.views] using hv

theorem emittedCalls_clear_of_callsClear (h : t.CallsClear) :
    ∀ c ∈ t.emittedCalls stats, c.Clear := by
  obtain ⟨l, hl, hv, -⟩ := t.views_emittedCalls stats
  intro c hc
  have hmem : c.view ∈ l.reverse := hv ▸ List.mem_map_of_mem hc
  exact c.clear_iff_view.mpr (h c.view (hl.mem (List.mem_reverse.mp hmem)))

theorem callsClear_of_emittedCalls_clear (hok : ∃ m, (t.lower stats).2 = .ok m)
    (h : ∀ c ∈ t.emittedCalls stats, c.Clear) : t.CallsClear := by
  obtain ⟨l, -, hv, hall⟩ := t.views_emittedCalls stats
  obtain rfl := hall hok
  intro v hmem
  rw [← List.mem_reverse, ← hv] at hmem
  obtain ⟨c, hc, rfl⟩ := List.mem_map.mp hmem
  exact c.clear_iff_view.mp (h c hc)

theorem callsClear_of_plainLoops (h : t.plainLoops = true) : t.CallsClear :=
  ((treeCases_piles t.symbols fun _ h => h).func t.main (.inl h) Registers.isStack_empty).1

/-- At every call that is emitted, what is live and takes no part in it lies below the callee, as
long as no numeric loop holds a bound in a generic temporary. Whether it does so for other trees is
decided by their use of temporaries. -/
theorem emittedCalls_clear :
    (t.plainLoops = true → ∀ c ∈ t.emittedCalls stats, c.Clear) ∧
      (t.CallsClear → ∀ c ∈ t.emittedCalls stats, c.Clear) ∧
      ((∃ m, (t.lower stats).2 = .ok m) → (∀ c ∈ t.emittedCalls stats, c.Clear) →
        t.CallsClear) :=
  ⟨fun h => t.emittedCalls_clear_of_callsClear stats (t.callsClear_of_plainLoops h),
    t.emittedCalls_clear_of_callsClear stats, t.callsClear_of_emittedCalls_clear stats⟩

/-- A loop that starts at a global and calls another with its index. -/
def countFromGlobal : Tree where
  symbols := ⟨#[⟨"i", .any, .localOf 0⟩, ⟨"g", .any, .global⟩, ⟨"f", .any, .global⟩]⟩
  main :=
    { id := 0, name := none, params := [], isVararg := false, upvalues := []
      body := [.numericFor 0 ⟨.any, .symbol 1⟩ ⟨.integer, .integer 10⟩ none
        [.eval ⟨.any, .call ⟨.any, .symbol 2⟩ [⟨.any, .symbol 0⟩]⟩]] }

/-- The call takes the register of the first bound, and the loop still needs those above it. -/
theorem countFromGlobal_not_clear : (∃ m, (countFromGlobal.lower {}).2 = .ok m) ∧
    ¬ ∀ c ∈ countFromGlobal.emittedCalls {}, c.Clear := by
  have hok : ∃ m, (countFromGlobal.lower {}).2 = .ok m := by
    have h : (countFromGlobal.lower {}).2.toOption.isSome = true := by decide +kernel
    cases hl : (countFromGlobal.lower {}).2 with
    | ok m => exact ⟨m, rfl⟩
    | error e => simp [hl, Except.toOption] at h
  have hclear : ¬ countFromGlobal.CallsClear := by decide
  exact ⟨hok, fun h => hclear (callsClear_of_emittedCalls_clear _ _ hok h)⟩

end Tree

end ScriptC
