import ScriptC.Proofs.Regularity.Branches

/-! # Regularity of trees

Every function of a tree is lowered to a proc that agrees with a certificate and stays within what it
declares, and its upvalues reach what they capture.
-/

namespace ScriptC

open Lower LoweringState

/-- The locals of an enclosing scope stay in scope. -/
theorem Stmt.scopeAfter_append (locals outer : List SymbolId) (body : List Stmt) :
    scopeAfter (locals ++ outer) body = scopeAfter locals body ++ outer := by
  induction body generalizing locals with
  | nil => rfl
  | cons s body ih =>
    rw [scopeAfter, scopeAfter, ← List.append_assoc, ih]
    split <;> rfl

namespace Lower

section Functions

variable {Λ : Locale} {K : Outlook} {L : List (List SymbolId)} {s : LoweringState}

/-- The upvalue is found in a register, or among the upvalues of the function at hand. -/
theorem leads_resolveUpvalue (id : SymbolId) (h : s.Regular Λ K) :
    Leads (· = s) (resolveUpvalue Λ.symbols id) fun r s' =>
      (Λ.isWatched = true → Λ.symbols.target? id = some r.2 ∧ Λ.symbols.Names id r.1 ∧
        ∀ inner : Placement, inner.locals = K.locals.flatten →
          Λ.current.here.Reaches Λ.symbols inner r.2 r.1) ∧ s' = s := by
  refine leads_symbol_bind Λ.symbols id fun sym hsym => ?_
  obtain ⟨name, ty, kind⟩ := sym
  cases kind with
  | localOf f => exact leads_invalid rfl
  | global => exact leads_invalid rfl
  | upvalue target k =>
    have htarget : Λ.symbols.target? id = some target := by simp [SymbolTable.target?, hsym]
    refine leads_symbol_bind Λ.symbols target fun captured hcaptured s' hs => ?_
    subst hs
    obtain ⟨name', ty', kind'⟩ := captured
    rw [ends_bind, ends_get, ends_ite]
    refine ⟨fun hk => ?_, fun hk => ?_⟩
    · simp only [lookupLocal, ends_bind, ends_get, ends_pure]
      split
      · rename_i reg hreg
        refine ⟨fun hw => ⟨htarget, ⟨_, hsym, rfl, rfl⟩, fun inner hinner => ?_⟩, rfl⟩
        obtain rfl : kind' = .localOf s'.fn.function := hk
        rw [(h.proper hw).situated.function_eq] at hcaptured
        rw [(h.proper hw).situated.numbered_eq, lookup_numbered] at hreg
        exact ⟨⟨name', ty', hcaptured⟩, hinner ▸ hreg⟩
      · exact leads_invalid (P := fun _ => True) rfl s' trivial
    · split
      · rename_i index hindex
        obtain ⟨hlt, hget, -⟩ := List.findIdx?_eq_some_iff_getElem.mp hindex
        refine ⟨fun hw => ⟨htarget, ⟨_, hsym, rfl, rfl⟩, fun inner _ => ?_⟩, rfl⟩
        rw [Placement.Reaches, ← (h.proper hw).situated.captures_eq]
        exact List.getElem?_eq_some_iff.mpr ⟨hlt, eq_of_beq hget⟩
      · exact leads_invalid (P := fun _ => True) rfl s' trivial

/-- Every upvalue of a function is resolved where the function is written. -/
theorem leads_resolveUpvalues (ids : List SymbolId) (h : s.Regular Λ K) :
    Leads (· = s) (ids.mapM (resolveUpvalue Λ.symbols)) fun rs s' =>
      (Λ.isWatched = true → ids.map Λ.symbols.target? = (rs.map Prod.snd).map some ∧
        List.Forall₂ Λ.symbols.Names ids (rs.map Prod.fst) ∧
        ∀ inner : Placement, inner.locals = K.locals.flatten →
          List.Forall₂ (Λ.current.here.Reaches Λ.symbols inner) (rs.map Prod.snd) (rs.map Prod.fst)) ∧
      s' = s := by
  induction ids with
  | nil => exact meets_pure fun _ hs => ⟨fun _ => ⟨rfl, .nil, fun _ _ => .nil⟩, hs⟩
  | cons id ids ih =>
    rw [List.mapM_cons]
    refine (leads_resolveUpvalue id h).bind fun r => Meets.of_and fun hr => ih.bind fun rs =>
      Meets.of_and fun hrs => meets_pure fun _ hs =>
        ⟨fun hw => ⟨?_, .cons (hr hw).2.1 (hrs hw).2.1, fun inner hinner => ?_⟩, hs⟩
    · rw [List.map_cons, (hr hw).1, (hrs hw).1]
      rfl
    · exact .cons ((hr hw).2.2 inner hinner) ((hrs hw).2.2 inner hinner)

theorem leads_declareParams (params : List SymbolId) {scope : List SymbolId}
    (hK : K.Rests [scope]) (hp : Λ.function.params.reverse = params.reverse ++ scope) :
    Leads (Regular Λ K) (declareParams Λ.symbols params) fun _ =>
      Regular Λ (K.within [params.reverse ++ scope]) := by
  induction params generalizing K scope with
  | nil => exact meets_pure fun s hs => hs.weaken { Outlook.Covers.refl _ with
      locals_eq := hK.locals_eq.symm }
  | cons id params ih =>
    rw [List.reverse_cons, List.append_assoc] at hp
    have hrests (name : String) (reg : Nat) (tag : TypeTag) : Outlook.Rests { K with
        locals := [id :: scope]
        known := .symbol (.localVar name reg tag) :: K.known } [id :: scope] :=
      { hK with locals_eq := rfl }
    refine Meets.bind (leads_declareLocal_bind id hK.locals_eq ?_ fun name reg tag => ?_) fun _ =>
      (ih (hK.within [id :: scope]) hp).post fun _ s hs => hs.weaken { Outlook.Covers.refl _ with
          locals_eq := by simp }
    · rw [List.flatten_singleton]
      exact .inr (hp ▸ List.suffix_append _ _)
    have hlearnt {s : LoweringState} (hs : Regular Λ { K with
        locals := [id :: scope]
        known := .symbol (.localVar name reg tag) :: K.known } s) :
        Regular Λ (K.within [id :: scope]) s :=
      hs.weaken { Outlook.Covers.refl _ with known := fun _ => List.mem_cons_of_mem _ }
    split
    · rename_i guard hg
      refine (leads_emit (guardOpcode?_isStraight hg) (hrests name reg tag).ready.toActive ?_ ?_).post
        fun _ s hs => hlearnt hs
      · exact List.forall_mem_singleton.mpr ⟨List.mem_cons_self, Operand.IsPlain.usable ⟨rfl, rfl, rfl⟩ _⟩
      · exact List.forall_mem_singleton.mpr ⟨List.mem_cons_self, nofun⟩
    · exact meets_pure fun s hs => hlearnt hs

theorem leads_returnAtEnd (hK : K.open? = none) :
    Leads (Regular Λ K) returnAtEnd fun _ =>
      Regular Λ { K with grants := .nothing, isOpen? := some false } := by
  intro s h
  simp only [returnAtEnd, ends_bind, ends_isTerminated]
  split
  · rename_i ht
    exact (h.phased (b := false) ht).weaken { Outlook.Covers.refl _ with
        grants := Grants.nothing_le _ }
  · refine (leads_ret (allows_of_none hK (List.forall_mem_nil _)) s h).imp fun _ s' h' => ?_
    exact h'.weaken { Outlook.Covers.refl _ with open?_eq := hK }

/-- A function starts with its parameters in scope and ends with none. -/
theorem leads_functionCode {params : List SymbolId} {body : Lower Unit} {scope' : List SymbolId}
    {ends : Bool} (hp : Λ.function.params = params)
    (hb : Conducts Λ params.reverse [] (scope' ++ params.reverse) ends body) :
    Leads (Regular Λ .start) (functionCode Λ.symbols params body) fun _ s =>
      (Λ.isWatched = true → numbered params.reverse ∈ s.fn.history) ∧
        Regular Λ { Outlook.start with isOpen? := some false } s := by
  have hstart : Outlook.start.Rests [] := ⟨rfl, rfl, rfl, rfl, rfl⟩
  refine leads_openScope.bind fun _ => (leads_declareParams params (hstart.within [[]])
    (by rw [hp, List.append_nil])).bind fun _ => Meets.bind (hb _ ?_) fun _ =>
    (leads_returnAtEnd rfl).bind fun _ s hs => ?_
  · rw [List.append_nil]
    exact hstart.within [params.reverse]
  · refine ((leads_closeScope rfl s hs).and (ends_closeScope s)).mono (fun _ s' h => ⟨fun hw => ?_, h.1⟩)
      fun _ _ h => h.1
    obtain ⟨-, _, _, _, hsuffix, rfl⟩ := h
    refine hsuffix.mem ((hs.proper hw).situated.chronicle.mem _ ?_)
    simp

/-- A function in the body of the one at hand becomes a proc of its own. -/
theorem sustains_function {f : Function} {body : Lower Unit}
    (hf : (Use.function f, L.flatten) ∈ Λ.function.uses)
    (hb : ∀ Λ' : Locale, Λ'.symbols = Λ.symbols → Λ'.function = f →
      ∃ scope' ends, Conducts Λ' f.params.reverse [] (scope' ++ f.params.reverse) ends body) :
    Sustains Λ L (do
      let parent := (← get).fn.proc.id
      function Λ.symbols f (some parent) body) := by
  intro K hK s h
  rw [ends_bind, ends_get]
  refine (leads_resolveUpvalues f.upvalues h).bind (fun rs s' hs => ?_) s rfl
  obtain ⟨hresolved, rfl⟩ := hs
  rw [hK.locals_eq] at hresolved
  have hall : (some s'.fn.proc.id).all (· ≤ s'.module.procs.size) = true :=
    decide_eq_true h.sound.id_le
  let inner : Placement := ⟨f, L.flatten, rs.map Prod.snd⟩
  obtain ⟨scope', ends, hbody⟩ :=
    hb (Λ.nested s'.module.procs.size inner (rs.map Prod.fst)) rfl rfl
  simp only [newProc, Module.newProc, hall, ends_bind, ends_get, ends_modify, ends_pure, if_true,
    ends_modifyFn, ends_modifyStats]
  refine (leads_functionCode rfl hbody _ ?_).imp fun _ s₁ h₁ => h.of_sound
    (fun _ _ hs => ?_) fun hw => ?_
  · refine ⟨.fresh rfl ?_ rfl rfl (fun kind => by cases kind <;> rfl) rfl rfl rfl, by rintro _ ⟨⟩,
      by rintro _ ⟨⟩, by rintro _ ⟨⟩, fun hw => (h.proper hw).begin ⟨hf, (hresolved hw).1⟩⟩
    rw [Array.size_push]
    exact Nat.le_succ _
  · -- The function at hand is as it was, and there are more procs.
    have hsize : s'.module.procs.size ≤
        (s₁.module.procs.setIfInBounds s'.module.procs.size s₁.fn.proc).size := by
      rw [Array.size_setIfInBounds]
      exact h₁.2.sound.procs_le
    exact { hs with
      procs_le := Nat.le_trans hs.procs_le hsize
      id_le := Nat.le_trans hs.id_le hsize }
  · exact (h.proper hw).resume ⟨(hresolved hw).2.1, (hresolved hw).2.2 inner rfl⟩ (h₁.2.proper hw)
      rfl h₁.2.sound.temps rfl (h₁.1 hw) _

end Functions

section Cases

variable (symbols : SymbolTable)

/-- The expression is regular wherever its function refers to what it refers to. -/
def ExprIsRegular (e : Expr) : Prop :=
  ∀ (Λ : Locale) (L : List (List SymbolId)), Λ.symbols = symbols →
    (∀ u ∈ e.uses, (u, L.flatten) ∈ Λ.function.uses) → (ofExpr symbols e).IsRegular Λ L

def StmtIsRegular (st : Stmt) : Prop :=
  ∀ (Λ : Locale) (scope : List SymbolId) (rest : List (List SymbolId)), Λ.symbols = symbols →
    Λ.function.params.reverse <:+ scope ++ rest.flatten →
    (∀ u ∈ st.uses (scope ++ rest.flatten), u ∈ Λ.function.uses) →
      Conducts Λ scope rest (st.declared ++ scope) st.ends (ofStmt symbols st)

def FunctionIsRegular (f : Function) : Prop :=
  ∀ (Λ : Locale) (L : List (List SymbolId)), Λ.symbols = symbols →
    (Use.function f, L.flatten) ∈ Λ.function.uses → Sustains Λ L (ofFunction symbols f)

variable {symbols} {Λ : Locale} {L : List (List SymbolId)}

theorem exprs_isRegular {es : List Expr} (h : ∀ e ∈ es, ExprIsRegular symbols e)
    (hs : Λ.symbols = symbols)
    (hu : ∀ u ∈ Expr.usesOf es, (u, L.flatten) ∈ Λ.function.uses) :
    ∀ e ∈ es, (ofExpr symbols e).IsRegular Λ L := by
  intro e he
  refine h e he Λ L hs fun u hu' => hu u ?_
  rw [Expr.usesOf_eq_flatMap]
  exact List.mem_flatMap_of_mem he hu'

theorem conducts_ofBlock {body : List Stmt} (h : ∀ st ∈ body, StmtIsRegular symbols st)
    (hs : Λ.symbols = symbols) {scope : List SymbolId} {rest : List (List SymbolId)}
    (hp : Λ.function.params.reverse <:+ scope ++ rest.flatten)
    (hu : ∀ u ∈ Stmt.usesOf (scope ++ rest.flatten) body, u ∈ Λ.function.uses) :
    Conducts Λ scope rest (Stmt.scopeAfter scope body) (Stmt.anyEnds body)
      (ofBlock symbols body) := by
  induction body generalizing scope with
  | nil => exact conducts_of_kept fun K _ => meets_pure fun s hs => hs
  | cons st body ih =>
    obtain ⟨hst, hbody⟩ := List.forall_mem_cons.mp h
    obtain ⟨hu₁, hu₂⟩ := List.forall_mem_append.mp hu
    rw [← List.append_assoc] at hu₂
    refine conducts_sequence_cons (hst Λ scope rest hs hp hu₁) (ih hbody ?_ hu₂)
    rw [List.append_assoc]
    exact hp.trans (List.suffix_append _ _)

/-- The body of a function begins with its parameters in scope. -/
theorem conducts_ofBody {f : Function} (h : ∀ st ∈ f.body, StmtIsRegular symbols st)
    (hs : Λ.symbols = symbols) (hf : Λ.function = f) :
    Conducts Λ f.params.reverse [] (Stmt.scopeAfter [] f.body ++ f.params.reverse)
      (Stmt.anyEnds f.body) (ofBlock symbols f.body) := by
  subst hf
  rw [← Stmt.scopeAfter_append, List.nil_append]
  refine conducts_ofBlock h hs ?_ ?_
  · simp
  · rw [List.flatten_nil, List.append_nil]
    exact fun u hu => hu

theorem aiming_ofTarget {t : Expr} (h : ∀ ty object key, t = ⟨ty, .index object key⟩ →
      ExprIsRegular symbols object ∧ ExprIsRegular symbols key) (hs : Λ.symbols = symbols)
    (hu : ∀ u ∈ t.uses, (u, L.flatten) ∈ Λ.function.uses) : Aiming Λ L (ofTarget symbols t) := by
  subst hs
  unfold ofTarget
  split
  · exact aiming_symbolTarget _ (hu _ List.mem_cons_self)
  · rename_i ty object key
    obtain ⟨ho, hk⟩ := h ty object key rfl
    obtain ⟨hu₁, hu₂⟩ := List.forall_mem_append.mp hu
    exact aiming_indexTarget (ho Λ L rfl hu₁) (hk Λ L rfl hu₂)
  · exact fun _ _ => leads_invalid rfl

theorem parts_ofItem (i : TableItem) : (ofItem symbols i).parts = i.exprs.map (ofExpr symbols) := by
  cases i <;> rfl

/-- Every form of tree is regular if its parts are. -/
theorem treeCases_isRegular :
    TreeCases (ExprIsRegular symbols) (StmtIsRegular symbols) (FunctionIsRegular symbols) where
  nil ty Λ L _ _ := (forms_pure (o := .nil) ⟨rfl, rfl, rfl⟩ rfl fun _ => ⟨trivial, trivial⟩).isRegular ty
  true ty Λ L _ _ := (forms_pure (o := .true) ⟨rfl, rfl, rfl⟩ rfl fun _ => ⟨trivial, trivial⟩).isRegular ty
  false ty Λ L _ _ := (forms_pure (o := .false) ⟨rfl, rfl, rfl⟩ rfl fun _ => ⟨trivial, trivial⟩).isRegular ty
  integer ty _ Λ L _ _ := (forms_constant _).isRegular ty
  number ty _ Λ L _ _ := (forms_constant _).isRegular ty
  string ty _ Λ L _ _ := (forms_constant _).isRegular ty
  vararg _ Λ L _ _ := fun _ _ => leads_refuse
  symbol ty id := by
    rintro Λ L rfl hu
    exact (forms_readSymbol id (hu _ List.mem_cons_self)).isRegular ty
  index ty object key ho hk := by
    rintro Λ L rfl hu
    obtain ⟨hu₁, hu₂⟩ := List.forall_mem_append.mp hu
    exact (forms_index (ho Λ L rfl hu₁) (hk Λ L rfl hu₂)).isRegular ty
  call ty callee args hc ha := by
    rintro Λ L rfl hu
    obtain ⟨hu₁, hu₂⟩ := List.forall_mem_append.mp hu
    exact isRegular_call ty (hc Λ L rfl hu₁) (parts_isRegular (exprs_isRegular ha rfl hu₂))
  methodCall ty object name args ho ha := by
    rintro Λ L rfl hu
    obtain ⟨hu₁, hu₂⟩ := List.forall_mem_append.mp hu
    exact isRegular_methodCall ty name (ho Λ L rfl hu₁) (parts_isRegular (exprs_isRegular ha rfl hu₂))
  unary ty op operand h := by
    rintro Λ L rfl hu
    exact (forms_unary op (h Λ L rfl hu)).isRegular ty
  binary ty op lhs rhs hl hr := by
    rintro Λ L rfl hu
    obtain ⟨hu₁, hu₂⟩ := List.forall_mem_append.mp hu
    exact (forms_binary op (hl Λ L rfl hu₁) (hr Λ L rfl hu₂)).isRegular ty
  function ty func h := by
    rintro Λ L rfl hu
    exact (forms_closure (h Λ L rfl (hu _ List.mem_cons_self))).isRegular ty
  table ty items h := by
    rintro Λ L rfl hu
    refine (forms_construct ty ?_).isRegular ty
    rw [ofItems_eq_map, List.forall_mem_map]
    intro i hi
    rw [parts_ofItem, List.forall_mem_map]
    refine fun e he => h i hi e he Λ L rfl fun u hu' => hu u ?_
    change u ∈ TableItem.usesOf items
    rw [TableItem.usesOf_eq_flatMap]
    exact List.mem_flatMap_of_mem hi (List.mem_flatMap_of_mem he hu')
  declare vars exprs h := by
    rintro Λ scope rest rfl hp hu
    exact conducts_declare vars hp (parts_isRegular (exprs_isRegular h rfl (List.forall_mem_map.mp hu)))
  declareFunction var func h := by
    rintro Λ scope rest rfl hp hu
    exact conducts_declareFunction var hp (h Λ ((var :: scope) :: rest) rfl (hu _ List.mem_cons_self))
  assign targets exprs ht he := by
    rintro Λ scope rest rfl hp hu
    obtain ⟨hu₁, hu₂⟩ := List.forall_mem_append.mp (List.forall_mem_map.mp hu)
    refine conducts_assign (fun t hmem => ?_) (exprs_isRegular he rfl hu₂)
    refine aiming_ofTarget (ht t hmem) rfl fun u hu' => hu₁ u ?_
    rw [Expr.usesOf_eq_flatMap]
    exact List.mem_flatMap_of_mem hmem hu'
  eval expr h := by
    rintro Λ scope rest rfl hp hu
    exact conducts_eval (h Λ (scope :: rest) rfl (List.forall_mem_map.mp hu))
  ret exprs h := by
    rintro Λ scope rest rfl hp hu
    exact conducts_ret (parts_isRegular (exprs_isRegular h rfl (List.forall_mem_map.mp hu)))
  block body h := by
    rintro Λ scope rest rfl hp hu
    exact conducts_inScope (conducts_ofBlock h rfl hp hu)
  branch clauses otherwise hc ho := by
    rintro Λ scope rest rfl hp hu
    obtain ⟨hu₁, hu₂⟩ := List.forall_mem_append.mp hu
    rw [Clause.usesOf_eq_flatMap] at hu₁
    refine conducts_branch ?_ ?_
    · rw [ofClauses_eq_map, List.forall_mem_map]
      intro c hmem
      obtain ⟨hcond, hbody⟩ := List.forall_mem_append.mp fun u hu' =>
        hu₁ u (List.mem_flatMap_of_mem hmem hu')
      exact ⟨(hc c hmem).1 Λ (scope :: rest) rfl (List.forall_mem_map.mp hcond), _, _,
        conducts_ofBlock (hc c hmem).2 rfl hp hbody⟩
    · rw [ofOtherwise_eq_map]
      intro x hx
      obtain ⟨body, hb, rfl⟩ := Option.map_eq_some_iff.mp hx
      cases hb
      exact ⟨_, _, conducts_ofBlock (ho body rfl) rfl hp hu₂⟩
  whileLoop cond body hc hb := by
    rintro Λ scope rest rfl hp hu
    obtain ⟨hu₁, hu₂⟩ := List.forall_mem_append.mp hu
    exact conducts_whileLoop (hc Λ (scope :: rest) rfl (List.forall_mem_map.mp hu₁))
      (conducts_ofBlock hb rfl hp hu₂)
  repeatLoop body cond hb hc := by
    rintro Λ scope rest rfl hp hu
    obtain ⟨hu₁, hu₂⟩ := List.forall_mem_append.mp hu
    refine conducts_repeatLoop (conducts_ofBlock hb rfl hp hu₁) (hc Λ _ rfl fun u hu' => ?_)
    have hcond := List.forall_mem_map.mp hu₂ u hu'
    rwa [← List.nil_append (scope ++ rest.flatten), Stmt.scopeAfter_append] at hcond
  numericFor var start limit step body hs hl hstep' hb := by
    rintro Λ scope rest rfl hp hu
    obtain ⟨hu₁, hu₂⟩ := List.forall_mem_append.mp hu
    obtain ⟨hu₁, hstep⟩ := List.forall_mem_append.mp (List.forall_mem_map.mp hu₁)
    obtain ⟨hstart, hlimit⟩ := List.forall_mem_append.mp hu₁
    have hvar := hp.trans (List.suffix_cons var _)
    refine conducts_numericFor (hs Λ (scope :: rest) rfl hstart) (hl Λ (scope :: rest) rfl hlimit) ?_ _
      ⟨.inl hvar, conducts_ofBlock hb rfl hvar hu₂⟩
    rw [ofStep_eq_map]
    intro part hpart
    obtain ⟨e, he, rfl⟩ := Option.map_eq_some_iff.mp hpart
    refine exprs_isRegular (fun e he => hstep' e ?_) rfl hstep e ?_
    · exact Option.mem_toList.mp he
    · exact Option.mem_toList.mpr he
  genericFor _ _ _ Λ _ _ _ _ _ := fun _ _ => leads_refuse
  leave Λ _ _ _ _ _ := conducts_leave
  jump _ Λ _ _ _ _ _ := fun _ _ => leads_refuse
  label _ Λ _ _ _ _ _ := fun _ _ => leads_refuse
  body f h := by
    rintro Λ L rfl hu
    obtain ⟨id, name, params, isVararg, upvalues, body⟩ := f
    refine sustains_function hu fun Λ' hs hf => ⟨_, _, conducts_ofBody h hs hf⟩

end Cases

end Lower

/-- The main function, before anything else is met. -/
def Locale.root (symbols : SymbolTable) (main : Function) : Locale where
  symbols := symbols
  main := main
  current := ⟨0, none, .root main⟩
  enclosing := []
  upvalues := []

namespace Tree

variable {t : Tree} {stats : Stats}

/-- Lowering a tree ends with every proc being the code of a function, or fails in an admissible
way. -/
theorem ends_lowering (t : Tree) (stats : Stats) :
    Ends (function t.symbols t.main none (ofBlock t.symbols t.main.body))
      { stats, module := {}, fn := { proc := { id := 0, parent := none }, function := t.main.id } }
      (fun _ s => ∃ placements, s.module.Populated t.symbols t.main [] placements ∧
        s.module.Recorded s.histories t.symbols [] placements) Admissible := by
  have hbody := conducts_ofBody (Λ := .root t.symbols t.main)
    (treeCases_isRegular.stmts t.main.body) rfl rfl
  have hempty : Module.Recorded {} [] t.symbols [] [] := by simp [Module.Recorded]
  have hrec : Module.Recorded ⟨#[{ id := 0, parent := none }]⟩ [] t.symbols
      [⟨0, none, .root t.main⟩] [.root t.main] := hempty.push rfl none
  have hstart : Regular (.root t.symbols t.main) .start
      { stats, module := ⟨#[{ id := 0, parent := none }]⟩
        fn := (Placement.root t.main).begun 0 none [] } :=
    ⟨.fresh rfl (Nat.zero_le _) rfl rfl (fun kind => by cases kind <;> rfl) rfl rfl rfl, nofun, nofun,
      nofun, fun _ => .begun rfl nofun ⟨_, .start t.main, hrec⟩⟩
  simp only [function, resolveUpvalues, newProc, Module.newProc, ends_bind, ends_get, ends_modify,
    ends_pure, Option.all_none, if_true, ends_modifyFn, ends_modifyStats]
  refine Ends.imp (leads_functionCode rfl hbody _ hstart) ?_
  rintro _ s' ⟨hparams, h⟩
  have h' := h.proper rfl
  obtain ⟨placements, hpop, hrec⟩ := h'.situated.populated
  have hparent : s'.fn.proc.parent = none := h'.situated.parent_eq
  refine ⟨placements, hpop.finish h'.situated.enclosing_lt h'.situated.id_eq hparent h'.situated.heads
    (fun _ => h'.situated.upvalues_eq) (fun k outer hk => ?_) (h'.finished rfl h.sound.temps rfl),
    hrec.finish (hpop.placed _ List.mem_cons_self) (h'.numbers (hparams rfl))⟩
  simp [hparent] at hk

theorem populated_of_lower {m : Module} (h : (t.lower stats).2 = .ok m) :
    ∃ placements, m.Populated t.symbols t.main [] placements := by
  unfold lower lowering at h
  split at h
  · rename_i r s hl
    cases h
    obtain ⟨placements, hpop, -⟩ := (t.ends_lowering stats).of_ok hl
    exact ⟨placements, hpop⟩
  · cases h

end Tree

end ScriptC
