import ScriptC.Proofs.Regularity.Actions

/-! # Regular expressions

An expression is evaluated to an operand that is no result of a call, or to a call whose number of
results is open. What was known before is known afterwards.
-/

namespace ScriptC

open Lower LoweringState

/-- The outlook after a call whose number of results is open. -/
abbrev Outlook.await (K : Outlook) (call base : Nat) : Outlook :=
  { K with
    held := (.any, base) :: K.held
    known := .range base (-1) :: K.known
    open? := some ⟨call, base, -1⟩ }

/-- A value was delivered: an operand that is no result of a call, or all results of the call just
made. -/
def LoweringState.Delivers (Λ : Locale) (K : Outlook) (v : Value) (s : LoweringState) : Prop :=
  match v.call with
  | none => v.operand.IsPlain ∧ s.Regular Λ (K.gain [v.operand] v.operand.temps K.grants)
  | some call => ∃ base, v.operand = .range base (-1) ∧ K.grants base = none ∧ s.Roofed base [] ∧
      s.Regular Λ (K.await call base)

/-- Where the locals `L` are in scope, evaluation delivers a value. -/
def Part.IsRegular (Λ : Locale) (L : List (List SymbolId)) (part : Part) : Prop :=
  ∀ K, K.Ready L → Leads (Regular Λ K) part.value (LoweringState.Delivers Λ K)

theorem register?_lt {locals : List SymbolId} {id : SymbolId} {r : Nat}
    (h : register? locals id = some r) : r < locals.length := by
  induction locals with
  | nil => cases h
  | cons x locals ih =>
    unfold register? at h
    split at h
    · cases h
      exact Nat.lt_succ_self _
    · exact Nat.lt_succ_of_lt (ih h)

/-- Evaluation keeps what was known before. -/
theorem Outlook.Covers.gain {K K' : Outlook} (h : K'.Covers K) (os : List Operand)
    (temps : List (TempKind × Nat)) :
    (K'.gain os temps K'.grants).Covers (K.gain os temps K.grants) where
  __ := h
  held := h.held.append_left temps
  known o ho := by
    rcases List.mem_append.mp ho with ho | ho
    · exact List.mem_append_left _ ho
    · exact List.mem_append_right _ (h.known o ho)

namespace Lower

variable {α : Type} {Λ : Locale} {K : Outlook} {L : List (List SymbolId)}
  {Q : α → LoweringState → Prop} {part lhs rhs object key func : Part}

/-- The action gives an operand that is no result of a call. -/
def Forms (Λ : Locale) (L : List (List SymbolId)) (x : Lower Operand) : Prop :=
  ∀ K, K.Ready L → Leads (Regular Λ K) x fun o s =>
    o.IsPlain ∧ Regular Λ (K.gain [o] o.temps K.grants) s

/-- The action keeps what is known. -/
def Sustains (Λ : Locale) (L : List (List SymbolId)) (x : Lower α) : Prop :=
  ∀ K, K.Ready L → Leads (Regular Λ K) x fun _ => Regular Λ K

theorem Forms.isRegular (ty : Ty) {x : Lower Operand} (h : Forms Λ L x) :
    Part.IsRegular Λ L ⟨ty, plain x⟩ :=
  fun K hK => (h K hK).bind fun _ => meets_pure fun _ hs => hs

section Values

theorem forms_pure {o : Operand} (ho : o.IsPlain) (ht : o.temps = [])
    (hf : ∀ fn, o.Suits Λ.symbols Λ.function fn) : Forms Λ L (pure o) := by
  refine fun K hK => meets_pure fun s h => ⟨ho, ?_⟩
  rw [ht]
  exact h.learn fun _ => hf _

theorem forms_constant (c : Constant) : Forms Λ L (constant c) := by
  intro K hK
  refine (leads_constant c).post fun o s hs => ?_
  obtain ⟨k, rfl, -, h⟩ := hs
  exact ⟨⟨rfl, rfl, rfl⟩, h⟩

/-- The first `n` results of a call are at hand from now on. -/
theorem gained_settled {base : Nat} (call n : Nat) {os : List Operand}
    {temps : List (TempKind × Nat)} (hbase : K.grants base = none)
    (hos : ∀ o ∈ os, o.isOpenRange = false ∧ ∃ k < n, o.result? = some (base, k))
    (ht : (.any, base) ∈ temps) :
    K.Gained os temps (Function.update K.grants base (some (call, n))) where
  le := Grants.le_update hbase _
  usable o ho := by
    obtain ⟨hclosed, k, hk, hresult⟩ := hos o ho
    refine ⟨hclosed, fun r k' hr => ?_⟩
    cases hresult.symm.trans hr
    exact ⟨call, n, Function.update_self _ _ _, hk⟩
  anchored r hr := by
    by_cases he : r = base
    · exact Or.inr (he ▸ ht)
    · rw [Function.update_of_ne he] at hr
      exact Or.inl hr

/-- The results of a call are narrowed to the first. -/
theorem leads_narrow (call : Nat) {base : Nat} {o : Operand} (hK : K.open? = none)
    (hbase : K.grants base = none)
    (hclosed : o.isOpenRange = false) (hresult : o.result? = some (base, 0))
    (hfits : ∀ fn : FunctionState, base < fn.proc.maxTemps .any →
      o.Suits Λ.symbols Λ.function fn) :
    Leads (Regular Λ (K.await call base)) (setExpected call 1) fun _ s =>
      ∃ G, K.Gained [o] [(.any, base)] G ∧ Regular Λ (K.gain [o] [(.any, base)] G) s := by
  refine (leads_settle rfl List.mem_cons_self (Nat.le_refl 1)).post fun _ s h => ?_
  refine ⟨_, gained_settled call 1 hbase ?_ (List.mem_singleton_self _), ?_⟩
  · exact List.forall_mem_singleton.mpr ⟨hclosed, 0, Nat.one_pos, hresult⟩
  · refine (h.learn fun hw => hfits _ ((h.proper hw).known (.range base (-1)) List.mem_cons_self).1).weaken
      { Outlook.Covers.refl _ with known := fun o' ho' => ?_, open?_eq := hK }
    rcases List.mem_cons.mp ho' with rfl | ho'
    · exact List.mem_cons_self
    · exact List.mem_cons_of_mem _ (List.mem_cons_of_mem _ ho')

theorem leads_single_bind {v : Value} (hK : K.open? = none) {f : Operand → Lower α}
    (h : ∀ o G, K.Gained [o] o.temps G → Leads (Regular Λ (K.gain [o] o.temps G)) (f o) Q) :
    Leads (LoweringState.Delivers Λ K v) (single v >>= f) Q := by
  obtain ⟨o, call⟩ := v
  intro s hs
  cases call with
  | none => exact h o K.grants (.plain hs.1 _) s hs.2
  | some call =>
    obtain ⟨base, rfl, hbase, -, hr⟩ := hs
    have hsingle : single ⟨.range base (-1), some call⟩ = (do
        setExpected call 1
        return .select base 0) := rfl
    rw [hsingle, bind_assoc]
    refine Meets.bind (leads_narrow (o := .select base 0) call hK hbase rfl rfl
      fun _ hp => ⟨hp, trivial⟩)
      (fun _ s hs => ?_) s hr
    obtain ⟨G, hG, hr⟩ := hs
    exact h (.select base 0) G hG s hr

theorem leads_one_bind (hp : part.IsRegular Λ L) (hK : K.Ready L) {f : Operand → Lower α}
    (h : ∀ o G, K.Gained [o] o.temps G → Leads (Regular Λ (K.gain [o] o.temps G)) (f o) Q) :
    Leads (Regular Λ K) (one part >>= f) Q := by
  rw [one, bind_assoc]
  exact (hp K hK).bind fun _ => leads_single_bind hK.open?_eq h

end Values

section Variables

/-- A global is loaded into a new temporary. -/
theorem leads_loadGlobal (name : String) (hK : K.Active) :
    Leads (Regular Λ K) (loadGlobal name) fun v s => ∃ r k, v.1 = .tempAny r ∧
      s.fn.proc.Reads v.2 [.symbol (.globalVar name), .constant k] ∧ Regular Λ
        (K.gain [.symbol (.globalVar name), .tempAny r, .constant k] [(.any, r)] K.grants) s := by
  refine leads_constant_bind _ fun k => leads_allocTemp_bind .any fun r => ?_
  refine Meets.pre (P := Regular Λ
    (K.gain [.symbol (.globalVar name), .tempAny r, .constant k] [(.any, r)] K.grants)) ?_
    fun s h => h.learn fun _ => ⟨trivial, trivial⟩
  refine Meets.bind (leads_emitId (by decide) (hK.of_eq rfl rfl) ?_ ?_) fun load =>
    meets_pure fun s h => ⟨r, k, rfl, h.1, h.2⟩
  · refine List.forall_mem_cons.mpr ⟨⟨by simp, Operand.IsPlain.usable ⟨rfl, rfl, rfl⟩ _⟩, ?_⟩
    exact List.forall_mem_singleton.mpr ⟨by simp, Operand.IsPlain.usable ⟨rfl, rfl, rfl⟩ _⟩
  · exact List.forall_mem_singleton.mpr ⟨by simp [Operand.temp], Operand.isData_temp .any r⟩

/-- A local or an upvalue is read where it is. -/
theorem leads_readVariable {id : SymbolId} {sym : Symbol} (hsym : Λ.symbols.get? id = some sym)
    (hkind : sym.kind ≠ .global)
    (hu : (Use.variable id, L.flatten) ∈ Λ.function.uses) :
    Leads (Regular Λ K) (readSymbol Λ.symbols id) fun o s => o.IsPlain ∧ o.IsData ∧ o.temps = [] ∧
      Regular Λ (K.gain [o] [] K.grants) s := by
  refine leads_symbol_bind Λ.symbols id fun sym' hsym' => ?_
  cases hsym.symm.trans hsym'
  obtain ⟨name, ty, kind⟩ := sym
  cases kind with
  | localOf f =>
    refine leads_lookupLocal_bind id fun reg? hreg => ?_
    cases reg? with
    | none => exact leads_invalid rfl
    | some r =>
      refine meets_pure fun s h => ⟨⟨rfl, rfl, rfl⟩, nofun, rfl, h.learn fun hw => ⟨?_, ?_⟩⟩
      · exact Nat.lt_of_lt_of_le (register?_lt (hreg hw).symm) (h.proper hw).situated.length_le
      · have hvisible := (h.proper hw).situated.chronicle.mem _ (List.suffix_refl _)
        exact ⟨id, _, hsym, rfl, rfl, _, hvisible, (lookup_numbered _ id).trans (hreg hw).symm⟩
  | upvalue target k =>
    refine meets_pure fun s h => ⟨⟨rfl, rfl, rfl⟩, nofun, rfl, h.learn fun _ => ?_⟩
    exact ⟨⟨id, L.flatten, ty, target, k, hu, hsym, rfl, rfl⟩, trivial⟩
  | global => exact absurd rfl hkind

theorem forms_readSymbol (id : SymbolId) (hu : (Use.variable id, L.flatten) ∈ Λ.function.uses) :
    Forms Λ L (readSymbol Λ.symbols id) := by
  intro K hK
  by_cases hv : ∃ sym, Λ.symbols.get? id = some sym ∧ sym.kind ≠ .global
  · obtain ⟨sym, hsym, hkind⟩ := hv
    refine (leads_readVariable hsym hkind hu).post fun o s hs => ⟨hs.1, ?_⟩
    rw [hs.2.2.1]
    exact hs.2.2.2
  · refine leads_symbol_bind Λ.symbols id fun sym hsym => ?_
    obtain hkind : sym.kind = .global := by
      by_contra hne
      exact hv ⟨sym, hsym, hne⟩
    rw [hkind]
    refine (leads_loadGlobal sym.name hK.toActive).bind fun v => meets_pure fun s hs => ?_
    obtain ⟨r, k, hv, -, h⟩ := hs
    rw [hv]
    refine ⟨⟨rfl, rfl, rfl⟩, h.weaken { Outlook.Covers.refl _ with known := fun o ho => ?_ }⟩
    rcases List.mem_cons.mp ho with rfl | ho
    · simp
    · exact List.mem_append_right _ ho

end Variables

section Operators

/-- An instruction on known operands, with its result in a new temporary. -/
theorem leads_result (kind : TempKind) {opcode : Opcode} {operands : List Operand} {K' : Outlook}
    (ho : opcode.IsStraight) (hK : K'.Active)
    (hops : ∀ o ∈ operands, o ∈ K'.known ∧ o.Usable K'.grants) (hc : K'.Covers K) :
    Leads (Regular Λ K') (do
      let target ← allocTemp kind
      emit opcode operands [target]
      return target) fun o s => o.IsPlain ∧ Regular Λ (K.gain [o] o.temps K.grants) s := by
  refine leads_allocTemp_bind kind fun r => Meets.bind (leads_emit ho (hK.of_eq rfl rfl) ?_ ?_)
    fun _ => meets_pure fun s h => ⟨Operand.isPlain_temp kind r, h.weaken (hc.gain _ _)⟩
  · exact fun o ho' => ⟨List.mem_cons_of_mem _ (hops o ho').1, (hops o ho').2⟩
  · exact List.forall_mem_singleton.mpr ⟨List.mem_cons_self, Operand.isData_temp kind r⟩

theorem forms_index (ho : object.IsRegular Λ L) (hk : key.IsRegular Λ L) :
    Forms Λ L (index object key) := by
  intro K hK
  refine leads_one_bind ho hK fun container G₁ h₁ => leads_one_bind hk (hK.gain h₁) fun k G₂ h₂ =>
    (leads_keyClass k key.ty).bind fun c => (leads_free k rfl).bind fun _ =>
    (leads_free container rfl).bind fun _ => ?_
  have hall := h₁.trans h₂
  have hmem : ∀ o ∈ [container, k], o ∈ [k] ++ [container] := by simp [or_comm]
  exact leads_result _ (Selection.load_isStraight _ _) (hK.of_eq rfl rfl)
    (fun o ho => hall.mem (hmem o ho))
    { Outlook.Covers.refl _ with
      known := fun _ => List.mem_append_right ([k] ++ [container]), grants := hall.le }

theorem forms_unary (op : UnaryOp) (h : part.IsRegular Λ L) : Forms Λ L (unary op part) := by
  intro K hK
  refine leads_one_bind h hK fun value G hG => (leads_free value rfl).bind fun _ => ?_
  exact leads_result _ (Selection.unary_isStraight _ _) (hK.of_eq rfl rfl) (fun _ => hG.mem)
    { Outlook.Covers.refl _ with known := fun _ => List.mem_append_right [value], grants := hG.le }

theorem forms_arithmetic (op : BinaryOp) (hl : lhs.IsRegular Λ L) (hr : rhs.IsRegular Λ L) :
    Forms Λ L (arithmetic op lhs rhs) := by
  intro K hK
  refine leads_one_bind hl hK fun a G₁ h₁ => leads_one_bind hr (hK.gain h₁) fun b G₂ h₂ => ?_
  have hall := h₁.trans h₂
  extract_lets classA classB form
  split
  rename_i x y classX classY hxy
  have hmem : ∀ o ∈ [x, y], o ∈ [b] ++ [a] := by
    split at hxy <;> cases hxy <;> simp [or_comm]
  split
  · exact leads_invalid rfl
  · rename_i sel hsel
    have hstraight := Selection.binary?_isStraight hsel
    refine (leads_free b rfl).bind fun _ => (leads_free a rfl).bind fun _ =>
      leads_allocTemp_bind _ fun r => Meets.bind (leads_emit hstraight (hK.of_eq rfl rfl) ?_ ?_)
      fun _ => Meets.ite (fun _ => (leads_free _ rfl).bind fun _ => ?_) fun _ =>
      meets_pure fun s h => ⟨Operand.isPlain_temp _ r, h.weaken ?_⟩
    · exact fun o ho => ⟨List.mem_cons_of_mem _ (hall.mem (hmem o ho)).1, (hall.mem (hmem o ho)).2⟩
    · exact List.forall_mem_singleton.mpr ⟨List.mem_cons_self, Operand.isData_temp _ r⟩
    · refine leads_result _ (by decide) (hK.of_eq rfl rfl) ?_ { Outlook.Covers.refl _ with
          known := fun _ ho => ?_, grants := hall.le }
      · exact List.forall_mem_singleton.mpr
          ⟨List.mem_cons_self, (Operand.isPlain_temp _ r).usable _⟩
      · exact List.mem_cons_of_mem _ (List.mem_append_right ([b] ++ [a]) ho)
    · refine Outlook.Covers.gain ?_ _ _
      exact { Outlook.Covers.refl _ with
          known := fun _ => List.mem_append_right ([b] ++ [a]), grants := hall.le }

/-- The results at hand before the operator are at hand in both of its blocks. -/
theorem forms_logical (op : BinaryOp) (hl : lhs.IsRegular Λ L) (hr : rhs.IsRegular Λ L) :
    Forms Λ L (logical op lhs rhs) := by
  intro K hK
  refine leads_one_bind hl hK fun left G hG => (leads_free left rfl).bind fun _ =>
    leads_allocTemp_bind .any fun r => Meets.bind (leads_move .any (hK.of_eq rfl rfl) ?_ ?_ ?_ ?_)
    fun _ => Meets.pre (P := Regular Λ (K.gain [.tempAny r] [(.any, r)] K.grants)) ?_ ?_
  · simp
  · exact hG.usable left (List.mem_singleton_self left)
  · simp
  · exact Operand.isData_temp .any r
  · have hplain : Operand.IsPlain (.tempAny r) := ⟨rfl, rfl, rfl⟩
    have hready := hK.gain (Outlook.Gained.plain hplain [(.any, r)])
    refine leads_newBlock_bind (.refl _) fun rhsBlock => leads_newBlock_bind (.refl _)
      fun endBlock => ?_
    extract_lets rest
    have hrest : ∀ x, Leads (Regular Λ { K.gain [.tempAny r] [(.any, r)] .nothing with
        isOpen? := some false
        pending := endBlock :: rhsBlock :: K.pending
        joins := (endBlock, K.grants) :: (rhsBlock, K.grants) :: K.joins }) (rest x) fun o s =>
          o.IsPlain ∧ Regular Λ (K.gain [o] o.temps K.grants) s := by
      intro x
      refine Meets.bind (leads_startBlock (G := K.grants) hK.open?_eq (List.Perm.swap _ _ _) (by simp)
        (Or.inl rfl)) fun _ => ?_
      refine leads_one_bind hr ?_ fun right G' hG' => ?_
      · exact { hready with phase := fun b hb => (Option.some.inj hb).symm }
      · have hK' : K.open? = none := hK.open?_eq
        refine (leads_free right rfl).bind fun _ => Meets.bind (leads_move .any ⟨hK', ?_⟩ ?_ ?_ ?_ ?_)
          fun _ => Meets.bind (leads_startBlock (G := K.grants) hK' (.refl _) ?_ (Or.inr hG'.le))
          fun _ => meets_pure fun s h => ⟨hplain, h.weaken ?_⟩
        · exact fun b hb => (Option.some.inj hb).symm
        · simp
        · exact hG'.usable right (List.mem_singleton_self right)
        · simp [Operand.temp]
        · exact Operand.isData_temp .any r
        · simp
        · exact
            { Outlook.Covers.refl _ with
              known := fun _ => List.mem_append_right [right]
              phase := fun b hb => congrArg some (hK.phase b hb).symm
              joins := fun _ hj => by simp [hj] }
    have hend : Outlook.MayReach { K.gain [.tempAny r] [(.any, r)] K.grants with
        pending := endBlock :: rhsBlock :: K.pending
        joins := (endBlock, K.grants) :: (rhsBlock, K.grants) :: K.joins } endBlock :=
      ⟨K.grants, by simp, .refl _⟩
    have hrhs : Outlook.MayReach { K.gain [.tempAny r] [(.any, r)] K.grants with
        pending := endBlock :: rhsBlock :: K.pending
        joins := (endBlock, K.grants) :: (rhsBlock, K.grants) :: K.joins } rhsBlock :=
      ⟨K.grants, by simp, .refl _⟩
    have hmem := List.mem_cons_self (a := Operand.tempAny r) (l := K.known)
    split
    · exact Meets.bind (leads_cbr hK.open?_eq hmem (hplain.usable _) hrhs hend) hrest
    · exact Meets.bind (leads_cbr hK.open?_eq hmem (hplain.usable _) hend hrhs) hrest
  · refine fun s h => h.weaken (Outlook.Covers.gain ?_ _ _)
    exact { Outlook.Covers.refl _ with
      known := fun _ => List.mem_append_right [left], grants := hG.le }

theorem forms_binary (op : BinaryOp) (hl : lhs.IsRegular Λ L) (hr : rhs.IsRegular Λ L) :
    Forms Λ L (binary op lhs rhs) := by
  unfold binary
  split
  · exact forms_logical op hl hr
  · exact forms_arithmetic op hl hr

end Operators

section Calls

variable {args : List Part} {os owned : List Operand} {s : LoweringState}

/-- Operands that end with all results of the call just made, if their number is open. -/
def Passes (Λ : Locale) (K : Outlook) (os owned : List Operand) (s : LoweringState) : Prop :=
  ∃ init open? G, os = init ++ (open?.map fun o : OpenCall => Operand.range o.base (-1)).toList ∧
    (∀ o ∈ open?, o.count = -1) ∧ K.Gained init (tempsOf owned) G ∧
    Regular Λ { K with
      held := tempsOf owned ++ K.held, known := os ++ K.known, grants := G, open? } s

theorem passes_nil (hK : K.open? = none) (h : s.Regular Λ K) : Passes Λ K [] [] s :=
  ⟨[], none, K.grants, rfl, nofun, .nil K, h.weaken { Outlook.Covers.refl _ with
      open?_eq := hK.symm }⟩

theorem passes_open {call base : Nat} (h : s.Regular Λ (K.await call base)) :
    Passes Λ K [.range base (-1)] [.range base (-1)] s := by
  refine ⟨[], some ⟨call, base, -1⟩, K.grants, rfl, ?_, ⟨.refl _, nofun, fun _ => Or.inl⟩, h⟩
  rintro o ⟨⟩
  rfl

theorem Passes.cons {o w : Operand} {G : Grants} (hG : K.Gained [o] w.temps G)
    (h : Passes Λ (K.gain [o] w.temps G) os owned s) : Passes Λ K (o :: os) (w :: owned) s := by
  obtain ⟨init, open?, G', rfl, hcount, hG', hr⟩ := h
  have hall := hG.trans hG'
  refine ⟨o :: init, open?, G', rfl, hcount, ⟨hall.le, fun x hx => hall.usable x ?_, ?_⟩,
    hr.weaken { Outlook.Covers.refl _ with held := ?_, known := fun x hx => ?_ }⟩
  · simpa [or_comm] using hx
  · rw [tempsOf_cons]
    exact hall.anchored
  · simp [tempsOf_cons]
  · simp only [List.mem_append, List.mem_cons, List.not_mem_nil, or_false] at hx ⊢
    tauto

theorem leads_arguments (h : ∀ part ∈ args, part.IsRegular Λ L) (hK : K.Ready L) :
    Leads (Regular Λ K) (arguments args) fun as s => (∀ a ∈ as, a.IsWhole) ∧
      Passes Λ K (as.map (·.operand)) (as.map (·.owned)) s := by
  induction args generalizing K with
  | nil => exact meets_pure fun s hs => ⟨nofun, passes_nil hK.open?_eq hs⟩
  | cons part rest ih =>
    obtain ⟨hp, hr⟩ := List.forall_mem_cons.mp h
    refine (hp K hK).bind fun v s hs => ?_
    extract_lets next
    have hnext {o : Operand} {G : Grants} (hG : K.Gained [o] v.operand.temps G)
        (ho : o.stackRegister? = v.operand.generic?) :
        Leads (Regular Λ (K.gain [o] v.operand.temps G)) (next o) fun as s =>
          (∀ a ∈ as, a.IsWhole) ∧ Passes Λ K (as.map (·.operand)) (as.map (·.owned)) s :=
      (ih hr (hK.gain hG)).bind fun as => meets_pure fun s hs =>
        ⟨List.forall_mem_cons.mpr ⟨ho, hs.1⟩, hs.2.cons hG⟩
    obtain ⟨o, call⟩ := v
    cases call with
    | none => exact hnext (.plain hs.1 _) hs.1.whole s hs.2
    | some call =>
      obtain ⟨base, rfl, hbase, -, hr'⟩ := hs
      cases rest with
      | nil => exact ⟨List.forall_mem_singleton.mpr rfl, passes_open hr'⟩
      | cons next' rest =>
        refine Meets.bind (leads_narrow (o := .range base 1) call hK.open?_eq hbase rfl rfl
          fun _ hp => ⟨hp, trivial⟩) (fun _ s hs => ?_) s hr'
        obtain ⟨G, hG, hr'⟩ := hs
        exact hnext hG rfl s hr'

/-- The results at hand do not start at a temporary that was not held before. -/
theorem grants_eq_none {K' : Outlook} {r : Nat} (temps : List (TempKind × Nat)) (hK : K.Ready L)
    (h : s.Regular Λ K') (hh : K'.held = temps ++ K.held) (hr : (.any, r) ∈ temps) :
    K.grants r = none := by
  by_contra hg
  have hnodup := h.sound.temps.nodup
  rw [hh] at hnodup
  exact (List.nodup_append.mp hnodup).2.2 _ hr _ (hK.anchored r hg) rfl

/-- The callee is a generic temporary. No results at hand start there. -/
theorem leads_callee_bind (h : func.IsRegular Λ L) (hK : K.Ready L) {f : Operand → Lower α}
    (hf : ∀ r, K.grants r = none →
      Leads (Regular Λ (K.gain [.tempAny r] [(.any, r)] K.grants)) (f (.tempAny r)) Q) :
    Leads (Regular Λ K) (callee func >>= f) Q := by
  rw [callee, bind_assoc]
  refine leads_one_bind h hK fun value G hG => ?_
  have hfinal (r : Nat) : Leads (Regular Λ (K.gain [.tempAny r] [(.any, r)] K.grants)) (f (.tempAny r)) Q :=
    Leads.assume (fun s hs => grants_eq_none [(.any, r)] hK hs rfl (List.mem_singleton_self _)) (hf r)
  split
  · rename_i r
    exact (hfinal r).pre fun s hs => hs.weaken { Outlook.Covers.refl _ with grants := hG.le }
  · simp only [bind_assoc, pure_bind]
    refine (leads_free value rfl).bind fun _ => leads_allocTemp_bind .any fun r =>
      Meets.bind (leads_move .any (hK.of_eq rfl rfl) ?_ ?_ ?_ ?_) fun _ => (hfinal r).pre ?_
    · simp
    · exact hG.usable value (List.mem_singleton_self value)
    · simp
    · exact Operand.isData_temp .any r
    · refine fun s hs => hs.weaken (Outlook.Covers.gain ?_ _ _)
      exact { Outlook.Covers.refl _ with
        known := fun _ => List.mem_append_right [value], grants := hG.le }

/-- The callee and the receiver above it. -/
theorem leads_member_bind (name : String) (h : object.IsRegular Λ L) (hK : K.Ready L)
    {f : Operand × Operand → Lower α}
    (hf : ∀ r q, K.grants r = none → Leads (Regular Λ
      (K.gain [.tempAny q, .tempAny r] [(.any, q), (.any, r)] K.grants)) (f (.tempAny r, .tempAny q)) Q) :
    Leads (Regular Λ K) (member object name >>= f) Q := by
  rw [member, bind_assoc]
  refine leads_one_bind h hK fun value G hG => ?_
  simp only [bind_assoc, pure_bind]
  refine (leads_free value rfl).bind fun _ => leads_allocTemp_bind .any fun r =>
    leads_allocTemp_bind .any fun q => Meets.bind (leads_move _ (hK.of_eq rfl rfl) ?_ ?_ ?_ ?_)
    fun _ => leads_constant_bind _ fun k => Meets.bind (leads_emit ?_ (hK.of_eq rfl rfl) ?_ ?_) fun _ => ?_
  · simp
  · exact hG.usable value (List.mem_singleton_self value)
  · simp
  · exact Operand.isData_temp .any q
  · split <;> decide
  · refine List.forall_mem_cons.mpr ⟨⟨by simp, (Operand.isPlain_temp .any q).usable _⟩, ?_⟩
    exact List.forall_mem_singleton.mpr ⟨by simp, Operand.IsPlain.usable ⟨rfl, rfl, rfl⟩ _⟩
  · exact List.forall_mem_singleton.mpr ⟨by simp, Operand.isData_temp .any r⟩
  · refine Meets.pre (Leads.assume (fun s hs => ?_) (hf r q)) fun s hs => hs.weaken ?_
    · exact grants_eq_none [(.any, q), (.any, r)] hK hs rfl (by simp)
    · refine { Outlook.Covers.refl _ with known := fun o ho => ?_, grants := hG.le }
      simp only [List.mem_append, List.mem_cons, List.not_mem_nil, or_false] at ho ⊢
      rcases ho with (rfl | rfl) | ho
      · exact Or.inr (Or.inl rfl)
      · exact Or.inr (Or.inr (Or.inl rfl))
      · exact Or.inr (Or.inr (Or.inr (Or.inr ho)))

/-- A call with what is held for it and the arguments. -/
theorem leads_callWith {base : Nat} (os : List Operand) (hK : K.Ready L) (hbase : K.grants base = none)
    (hos : ∀ o ∈ os, o.IsPlain) (h : ∀ part ∈ args, part.IsRegular Λ L) :
    Leads (Regular Λ (K.gain (os ++ [.tempAny base]) (tempsOf os ++ [(.any, base)]) K.grants))
      (callWith (.tempAny base) os args) (LoweringState.Delivers Λ K) := by
  have hplain : K.Gained (os ++ [.tempAny base]) (tempsOf os ++ [(.any, base)]) K.grants := by
    refine ⟨.refl _, fun o ho => ?_, fun _ hr => Or.inl hr⟩
    rcases List.mem_append.mp ho with ho | ho
    · exact (hos o ho).usable _
    · rw [List.mem_singleton.mp ho]
      exact Operand.IsPlain.usable ⟨rfl, rfl, rfl⟩ _
  refine (leads_arguments h (hK.gain hplain)).bind fun as s hs => ?_
  obtain ⟨hwhole, init, open?, G, hinit, hcount, hG, hr⟩ := hs
  -- What the arguments own does not include the register of the callee.
  have hnone : G base = none := by
    by_contra hg
    rcases hG.anchored base hg with hb | hb
    · exact hb hbase
    · have hnodup := hr.sound.temps.nodup
      exact (List.nodup_append.mp hnodup).2.2 _ hb _ (by simp) rfl
  have hheld : tempsOf (as.map (·.owned)) ++ (tempsOf os ++ [(.any, base)] ++ K.held) =
      tempsOf (os ++ as.map (·.owned)) ++ ((.any, base) :: K.held) := by
    simp [tempsOf_append]
  have hpassed (q : Nat) (hq : q ∈ (os ++ as.map (·.operand)).filterMap Operand.stackRegister?) :
      (TempKind.any, q) ∈ tempsOf (os ++ as.map (·.owned)) := by
    obtain ⟨o, ho, hreg⟩ := List.mem_filterMap.mp hq
    rcases List.mem_append.mp ho with ho | ho
    · exact mem_tempsOf_of_generic? (List.mem_append_left _ ho) ((hos o ho).whole.symm.trans hreg)
    · obtain ⟨a, ha, rfl⟩ := List.mem_map.mp ho
      exact mem_tempsOf_of_generic? (List.mem_append_right _ (List.mem_map_of_mem ha))
        ((hwhole a ha).symm.trans hreg)
  refine (leads_constant (.integer (-1))).bind (fun _ s hs => ?_) s hr
  obtain ⟨k, rfl, hk, h⟩ := hs
  refine Meets.bind (leads_emitCall ⟨?_, ?_, fun o ho => ⟨hcount o ho, Or.inl rfl⟩⟩ hnone)
    (fun call => Meets.bind ((leads_freeAll_roofed _ hheld).pre fun s hs =>
      ⟨roofed_of_call hs.1 hpassed, hs.2⟩) fun _ => meets_pure fun s h =>
        ⟨base, rfl, hbase, h.1, ?_⟩) s ⟨hk, h⟩
  · intro o ho
    have ho' : o = .tempAny base ∨ o ∈ os ∨ o ∈ as.map (·.operand) :=
      (List.mem_cons.mp ho).imp_right List.mem_append.mp
    simp only [List.mem_append, List.mem_singleton]
    tauto
  · refine ⟨.tempAny base :: os ++ init, by simp [hinit], fun o ho => ?_⟩
    rcases List.mem_append.mp ho with ho | ho
    · refine (hplain.usable o ?_).mono hG.le
      simpa [or_comm] using ho
    · exact hG.usable o ho
  · refine (h.2.learn (o := .range base (-1)) fun hw =>
      (h.2.proper hw).known (.tempAny base) (by simp)).weaken
      { Outlook.Covers.refl _ with
        known := fun o ho => ?_
        grants := hG.le
        phase := fun b hb => congrArg some (hK.phase b hb).symm }
    simp only [List.mem_append, List.mem_cons, List.not_mem_nil, or_false] at ho ⊢
    tauto

theorem isRegular_call (ty : Ty) (hf : func.IsRegular Λ L) (h : ∀ part ∈ args, part.IsRegular Λ L) :
    Part.IsRegular Λ L ⟨ty, call func args⟩ := fun _ hK =>
  leads_callee_bind hf hK fun _ hr => leads_callWith [] hK hr nofun h

theorem isRegular_methodCall (ty : Ty) (name : String) (ho : object.IsRegular Λ L)
    (h : ∀ part ∈ args, part.IsRegular Λ L) :
    Part.IsRegular Λ L ⟨ty, methodCall object name args⟩ := fun _ hK =>
  leads_member_bind name ho hK fun _ q hr => leads_callWith [.tempAny q] hK hr
    (List.forall_mem_singleton.mpr ⟨rfl, rfl, rfl⟩) h

theorem forms_closure {child : Lower Nat} (h : Sustains Λ L child) : Forms Λ L (closure child) := by
  intro K hK
  refine (h K hK).bind fun id => ?_
  refine Meets.pre (P := Regular Λ { K with known := .proc id :: K.known }) ?_
    fun s hs => hs.learn fun _ => ⟨trivial, trivial⟩
  refine leads_result _ (by decide) (hK.of_eq rfl rfl) ?_ { Outlook.Covers.refl _ with
      known := fun _ => List.mem_cons_of_mem _ }
  exact List.forall_mem_singleton.mpr ⟨List.mem_cons_self, Operand.IsPlain.usable ⟨rfl, rfl, rfl⟩ _⟩

end Calls

section Constructors

/-- The parts of an item. -/
def Item.parts : Item → List Part
  | .positional value => [value]
  | .named _ value => [value]
  | .keyed key value => [key, value]

/-- Once an item is stored, its key and its value are forgotten. -/
theorem leads_storeItem {table k v : Operand} {opcode : Opcode} {G G' : Grants}
    (ho : opcode.IsStraight) (hK : K.Active) (ht : table.IsPlain) (hmem : table ∈ K.known)
    (hk : K.Gained [k] k.temps G) (hv : (K.gain [k] k.temps G).Gained [v] v.temps G') :
    Leads (Regular Λ ((K.gain [k] k.temps G).gain [v] v.temps G')) (storeItem table opcode k v)
      fun _ => Regular Λ K := by
  have hall := hk.trans hv
  refine Meets.bind (leads_emit ho (hK.of_eq rfl rfl) ?_ nofun) fun _ =>
    (leads_free v rfl).bind fun _ => (leads_free k rfl).post fun _ s h => h.weaken
      { Outlook.Covers.refl _ with
        known := fun _ => List.mem_append_right ([v] ++ [k]), grants := hall.le }
  refine List.forall_mem_cons.mpr ⟨⟨by simp [hmem], ht.usable _⟩, fun o ho => hall.mem ?_⟩
  simpa [or_comm] using ho

theorem leads_items (shape : Shape) {table : Operand} (ht : table.IsPlain) {contents : List Item}
    (h : ∀ i ∈ contents, ∀ part ∈ i.parts, part.IsRegular Λ L) (position : Int64) (hK : K.Ready L)
    (hmem : table ∈ K.known) :
    Leads (Regular Λ K) (items shape table position contents) fun _ => Regular Λ K := by
  induction contents generalizing position with
  | nil => exact meets_pure fun s hs => hs
  | cons item rest ih =>
    obtain ⟨hi, hr⟩ := List.forall_mem_cons.mp h
    -- A constant is a key that holds nothing.
    have hconstant (c : Constant) {opcode : Opcode} (ho : opcode.IsStraight) {value : Part}
        (hv : value.IsRegular Λ L) (position : Int64) : Leads (Regular Λ K) (do
          let k ← constant c
          let v ← one value
          storeItem table opcode k v
          items shape table position rest) fun _ => Regular Λ K := by
      refine leads_constant_bind c fun k => ?_
      have hk : K.Gained [.constant k] (Operand.constant k).temps K.grants := .plain ⟨rfl, rfl, rfl⟩ _
      exact leads_one_bind hv (hK.gain hk) fun v G hG =>
        (leads_storeItem ho hK.toActive ht hmem hk hG).bind fun _ => ih hr position
    cases item with
    | positional value =>
      exact hconstant _ shape.positional_isStraight (hi value (by simp [Item.parts])) _
    | named name value =>
      have hstore := hconstant (.string name) (show Opcode.IsStraight .tableSetSK by decide)
        (hi value (by simp [Item.parts])) position
      exact Meets.ite (fun _ => hstore) fun _ =>
        (leads_invalid (Q := fun _ => Regular Λ K) rfl).bind fun _ => hstore
    | keyed key value =>
      exact leads_one_bind (hi key (by simp [Item.parts])) hK fun k G hk =>
        (leads_keyClass k key.ty).bind fun c =>
        leads_one_bind (hi value (by simp [Item.parts])) (hK.gain hk) fun v G' hv =>
        (leads_storeItem (shape.keyed_isStraight c) hK.toActive ht hmem hk hv).bind fun _ =>
        ih hr position

theorem forms_construct (ty : Ty) {contents : List Item}
    (h : ∀ i ∈ contents, ∀ part ∈ i.parts, part.IsRegular Λ L) : Forms Λ L (construct ty contents) := by
  intro K hK
  refine leads_allocTemp_bind .any fun r => Meets.bind (leads_emit (Shape.opcode_isStraight _)
    (hK.of_eq rfl rfl) nofun ?_) fun _ => ?_
  · exact List.forall_mem_singleton.mpr ⟨List.mem_cons_self, Operand.isData_temp .any r⟩
  · have hplain := Operand.isPlain_temp .any r
    exact (leads_items _ hplain h 1 (hK.gain (.plain hplain _)) List.mem_cons_self).bind
      fun _ => meets_pure fun s hs => ⟨hplain, hs⟩

end Constructors

end Lower

end ScriptC
