import ScriptC.Proofs.Assignments.Conflicts
import ScriptC.Proofs.Regularity.Expressions

/-! # Regular statements

A statement begins in an open block where no results are at hand. It returns all temporaries that it
takes, leaves the locals in scope that it declares, and ends the block or leaves it open.
-/

namespace ScriptC

open Lower LoweringState

/-- A statement can begin. -/
structure Outlook.Rests (K : Outlook) (L : List (List SymbolId)) : Prop where
  locals_eq : K.locals = L
  open?_eq : K.open? = none
  isOpen?_eq : K.isOpen? = some true
  grants_eq : K.grants = .nothing
  loads_eq : K.loads = []

theorem Outlook.Rests.ready {K : Outlook} {L : List (List SymbolId)} (h : K.Rests L) :
    K.Ready L where
  open?_eq := h.open?_eq
  phase b hb := Option.some.inj (hb.symm.trans h.isOpen?_eq)
  locals_eq := h.locals_eq
  anchored r hr := by
    rw [h.grants_eq] at hr
    exact absurd rfl hr

/-- The outlook with other locals in scope. -/
abbrev Outlook.within (K : Outlook) (L : List (List SymbolId)) : Outlook := { K with locals := L }

theorem Outlook.Rests.within {K : Outlook} {L : List (List SymbolId)} (h : K.Rests L)
    (L' : List (List SymbolId)) : (K.within L').Rests L' :=
  { h with locals_eq := rfl }

namespace Lower

variable {α : Type} {Λ : Locale} {K : Outlook} {L : List (List SymbolId)}
  {Q : α → LoweringState → Prop} {part : Part} {parts : List Part}

section Values

/-- The values of a list can be used, and what it owns is held. -/
def Gathers (Λ : Locale) (K : Outlook) (l : ValueList) (s : LoweringState) : Prop :=
  ∃ G, K.Gained (l.values.map Prod.fst) (tempsOf l.owned) G ∧
    Regular Λ (K.gain (l.values.map Prod.fst) (tempsOf l.owned) G) s

theorem leads_spread {call base count : Nat} (hK : K.open? = none) (hbase : K.grants base = none)
    (hcount : 1 < count) :
    Leads (fun s => s.Roofed base [] ∧ Regular Λ (K.await call base) s) (spread call base count)
      (Gathers Λ K) := by
  have hask : Leads (fun s => s.Roofed base [] ∧ Regular Λ (K.await call base) s)
      (setExpected call (Int64.ofNat count)) fun _ s => s.Roofed base [] ∧
        Regular Λ { K.await call base with open? := some ⟨call, base, Int64.ofNat count⟩ } s :=
    fun s hs => ((leads_ask rfl _ s hs.2).and (records_setExpected call _)).mono
      (fun _ _ h => ⟨hs.1.of_eq h.2.1 h.2.2.1, h.1⟩) fun _ _ h => h.1
  refine hask.bind fun _ =>
    Meets.bind (leads_reserveAll base (count - 1) List.mem_cons_self) fun _ => meets_pure fun s h => ?_
  -- The last register is held, so all of them exist.
  have hlast : (TempKind.any, base + count - 1) ∈
      tempsOf ((List.range' (base + 1) (count - 1)).map .tempAny) := by
    refine mem_tempsOf_of_generic? (List.mem_map_of_mem (a := base + count - 1) ?_) rfl
    rw [List.mem_range'_1]
    omega
  have hlt : base + count - 1 < s.fn.proc.anys.next :=
    (h.sound.temps.live _ (List.mem_append_left _ hlast)).1
  have hroom : base + count ≤ s.fn.proc.anys.next := by omega
  have hr := regular_settle rfl h fun _ => hroom
  have hvalues : (((List.range count).map fun i => (Operand.select base i, TypeTag.any)).map Prod.fst) =
      (List.range count).map (Operand.select base) := by simp
  have howned : tempsOf (.range base (-1) :: (List.range' (base + 1) (count - 1)).map .tempAny) =
      tempsOf ((List.range' (base + 1) (count - 1)).map .tempAny) ++ [(.any, base)] := tempsOf_cons _ _
  unfold Gathers
  rw [hvalues, howned]
  refine ⟨_, gained_settled call count hbase ?_ (by simp), ?_⟩
  · intro o ho
    obtain ⟨i, hi, rfl⟩ := List.mem_map.mp ho
    exact ⟨rfl, i, List.mem_range.mp hi, rfl⟩
  · refine (hr.learnAll fun _ o (ho : o ∈ (List.range count).map (.select base)) => ?_).weaken
      { Outlook.Covers.refl _ with held := ?_, known := fun o ho => ?_, open?_eq := hK }
    · obtain ⟨i, -, rfl⟩ := List.mem_map.mp ho
      exact ⟨Nat.lt_of_le_of_lt (by omega) hlt, trivial⟩
    · simp
    · rcases List.mem_append.mp ho with ho | ho
      · exact List.mem_append_left _ ho
      · exact List.mem_append_right _ (List.mem_cons_of_mem _ ho)

theorem leads_contribution (wanted : Nat) (isLast : Bool) (declared : TypeTag) {v : Value}
    (hK : K.Ready L) :
    Leads (LoweringState.Delivers Λ K v) (contribution wanted isLast declared v)
      (Gathers Λ K) := by
  have hone {o : Operand} {G : Grants} (hG : K.Gained [o] o.temps G) :
      Leads (Regular Λ (K.gain [o] o.temps G)) (do
        return (⟨[(o, ← valueTag o declared)], [o]⟩ : ValueList)) (Gathers Λ K) := by
    refine (leads_valueTag o declared).bind fun _ => meets_pure fun s h => ⟨G, ?_⟩
    rw [tempsOf_singleton]
    exact ⟨hG, h⟩
  obtain ⟨o, call⟩ := v
  intro s hs
  cases call with
  | none =>
    obtain ⟨hplain, h⟩ := hs
    unfold contribution
    split
    · refine ⟨K.grants, ⟨.refl _, nofun, fun _ => Or.inl⟩, ?_⟩
      rw [tempsOf_singleton]
      exact h.weaken { Outlook.Covers.refl _ with known := fun _ => List.mem_cons_of_mem _ }
    · exact hone (.plain hplain _) s h
  | some call =>
    obtain ⟨base, rfl, hbase, hroof, h⟩ := hs
    unfold contribution
    split
    · refine Meets.bind (leads_settle rfl List.mem_cons_self (Nat.zero_le 1))
        (fun _ => meets_pure fun s h => ⟨_, gained_settled call 0 hbase nofun ?_, ?_⟩) s h
      · exact List.mem_singleton_self _
      · exact h.weaken { Outlook.Covers.refl _ with
            known := fun _ => List.mem_cons_of_mem _, open?_eq := hK.open?_eq }
    · refine Meets.ite (fun hc => leads_spread hK.open?_eq hbase hc.2) (fun _ s h => ?_) s ⟨hroof, h⟩
      exact leads_single_bind hK.open?_eq (fun o G hG => hone hG) s ⟨base, rfl, hbase, h⟩

theorem Gathers.append {s : LoweringState} {l l' : ValueList} {G : Grants}
    (hG : K.Gained (l.values.map Prod.fst) (tempsOf l.owned) G)
    (h : Gathers Λ (K.gain (l.values.map Prod.fst) (tempsOf l.owned) G) l' s) :
    Gathers Λ K (l ++ l') s := by
  obtain ⟨G', hG', hr⟩ := h
  have hall := hG.trans hG'
  have hvalues : (l ++ l').values.map Prod.fst =
      l.values.map Prod.fst ++ l'.values.map Prod.fst := List.map_append
  have howned : tempsOf (l ++ l').owned = tempsOf l'.owned ++ tempsOf l.owned := tempsOf_append _ _
  unfold Gathers
  rw [hvalues, howned]
  refine ⟨G', ⟨hall.le, fun o ho => hall.usable o ?_, hall.anchored⟩,
    hr.weaken { Outlook.Covers.refl _ with held := ?_, known := fun o ho => ?_ }⟩
  · simpa [or_comm] using ho
  · simp
  · simp only [List.mem_append] at ho ⊢
    tauto

/-- Only some of the values may be used. -/
theorem Gathers.subset {s : LoweringState} {l : ValueList} {vs : List (Operand × TypeTag)}
    (h : Gathers Λ K l s) (hv : ∀ v ∈ vs, v ∈ l.values) : Gathers Λ K ⟨vs, l.owned⟩ s := by
  obtain ⟨G, hG, hr⟩ := h
  have hmem : ∀ o ∈ vs.map Prod.fst, o ∈ l.values.map Prod.fst := fun o ho => by
    obtain ⟨v, hv', rfl⟩ := List.mem_map.mp ho
    exact List.mem_map_of_mem (hv v hv')
  refine ⟨G, ⟨hG.le, fun o ho => hG.usable o (hmem o ho), hG.anchored⟩, hr.weaken ?_⟩
  refine { Outlook.Covers.refl _ with known := fun o ho => ?_ }
  rcases List.mem_append.mp ho with ho | ho
  · exact List.mem_append_left _ (hmem o ho)
  · exact List.mem_append_right _ ho

theorem leads_values (h : ∀ part ∈ parts, part.IsRegular Λ L) (wanted : Nat) (hK : K.Ready L) :
    Leads (Regular Λ K) (values wanted parts) (Gathers Λ K) := by
  induction parts generalizing wanted K with
  | nil => exact meets_pure fun s hs => ⟨K.grants, .nil K, hs⟩
  | cons part rest ih =>
    obtain ⟨hp, hr⟩ := List.forall_mem_cons.mp h
    refine (hp K hK).bind fun v => (leads_contribution _ _ _ hK).bind fun head s hs => ?_
    obtain ⟨G, hG, hs⟩ := hs
    exact ((ih hr _ (hK.gain hG)).bind fun tail => meets_pure fun s hs => hs.append hG) s hs

end Values

section Simple

/-- From where a statement begins, with the locals of `scope` and of `rest` in scope, the action
leaves those of `scope'` in the innermost scope. It ends the block exactly if `ends`. -/
def Conducts (Λ : Locale) (scope : List SymbolId) (rest : List (List SymbolId))
    (scope' : List SymbolId) (ends : Bool) (x : Lower Unit) : Prop :=
  ∀ K, K.Rests (scope :: rest) → Leads (Regular Λ K) x fun _ =>
    Regular Λ { K with locals := scope' :: rest, isOpen? := some (!ends) }

variable {scope scope' : List SymbolId} {rest : List (List SymbolId)} {ends : Bool}

/-- An action that keeps what is known is a statement that declares nothing. -/
theorem conducts_of_kept {x : Lower Unit}
    (h : ∀ K, K.Rests (scope :: rest) → Leads (Regular Λ K) x fun _ => Regular Λ K) :
    Conducts Λ scope rest scope false x := fun K hK => (h K hK).post fun _ s hs => by
  rw [← hK.locals_eq]
  refine hs.weaken { Outlook.Covers.refl _ with phase := fun b hb => ?_ }
  rw [hK.isOpen?_eq]
  exact hb

theorem conducts_eval (h : part.IsRegular Λ (scope :: rest)) :
    Conducts Λ scope rest scope false (eval part) := by
  refine conducts_of_kept fun K hK => (h K hK.ready).bind fun v s hs => ?_
  obtain ⟨o, call⟩ := v
  cases call with
  | none =>
    refine (leads_free o rfl).post (fun _ s h => ?_) s hs.2
    exact h.weaken { Outlook.Covers.refl _ with known := fun _ => List.mem_cons_of_mem _ }
  | some call =>
    obtain ⟨base, rfl, hbase, -, hr⟩ := hs
    refine Meets.bind (leads_settle rfl List.mem_cons_self (Nat.zero_le 1))
      (fun _ => (leads_free (.range base (-1)) rfl).post fun _ s h => h.weaken ?_) s hr
    exact
      { Outlook.Covers.refl _ with
        known := fun _ => List.mem_cons_of_mem _
        grants := Grants.le_update hbase _
        open?_eq := hK.open?_eq }

theorem leads_results (h : ∀ part ∈ parts, part.IsRegular Λ L) (hK : K.Ready L) :
    Leads (Regular Λ K) (results parts) fun os => Passes Λ K os os := by
  induction parts generalizing K with
  | nil => exact meets_pure fun s hs => passes_nil hK.open?_eq hs
  | cons part rest ih =>
    obtain ⟨hp, hr⟩ := List.forall_mem_cons.mp h
    cases rest with
    | nil =>
      refine (hp K hK).bind fun v => meets_pure fun s hs => ?_
      obtain ⟨o, call⟩ := v
      cases call with
      | none => exact .cons (.plain hs.1 _) (passes_nil (hK.open?_eq :) hs.2)
      | some call =>
        obtain ⟨base, rfl, -, -, hr⟩ := hs
        exact passes_open hr
    | cons next rest =>
      exact leads_one_bind hp hK fun o G hG => (ih hr (hK.gain hG)).bind fun os =>
        meets_pure fun s hs => hs.cons hG

theorem conducts_ret (h : ∀ part ∈ parts, part.IsRegular Λ (scope :: rest)) :
    Conducts Λ scope rest scope true (ret parts) := by
  intro K hK
  refine (leads_results h hK.ready).bind fun os s hs => ?_
  obtain ⟨init, open?, G, hinit, hcount, hG, hr⟩ := hs
  refine Meets.bind (leads_ret ⟨fun o ho => List.mem_append_left _ ho, ⟨init, hinit, hG.usable⟩,
    fun o ho => ⟨hcount o ho, Or.inr rfl⟩⟩)
    (fun _ => (leads_freeAll os rfl).post fun _ s h => h.weaken ?_) s hr
  exact
    { Outlook.Covers.refl _ with
      known := fun _ => List.mem_append_right _
      grants := hK.grants_eq ▸ .refl _
      open?_eq := hK.open?_eq
      locals_eq := hK.locals_eq.symm }

theorem conducts_leave : Conducts Λ scope rest scope true leave := by
  intro K hK s h
  simp only [leave, ends_bind, ends_get]
  split
  · rename_i exit exits he
    refine (ends_br h hK.open?_eq fun _ => Or.inl (by simp [he])).imp fun _ s h => h.weaken ?_
    exact
      { Outlook.Covers.refl _ with
        grants := hK.grants_eq ▸ .refl _
        locals_eq := hK.locals_eq.symm }
  · exact leads_invalid (P := fun _ => True) rfl s trivial

end Simple

section Scopes

variable {scope scope' : List SymbolId} {rest : List (List SymbolId)} {ends : Bool} {x : Lower Unit}

/-- A scope drops the locals that were declared in it. -/
theorem leads_scope {K' : Outlook} (hK : K.locals = L) (hK' : K'.locals = L)
    (h : Leads (Regular Λ (K.within ([] :: L))) x fun _ => Regular Λ (K'.within (scope' :: L))) :
    Leads (Regular Λ K) (inScope x) fun _ => Regular Λ K' := by
  subst hK
  refine leads_openScope.bind fun _ => h.bind fun _ => (leads_closeScope rfl).post fun _ s hs =>
    hs.weaken ?_
  exact { Outlook.Covers.refl _ with locals_eq := hK' }

theorem leads_inScope (h : Conducts Λ [] L scope' ends x) (hK : K.Rests L) :
    Leads (Regular Λ K) (inScope x) fun _ => Regular Λ { K with isOpen? := some (!ends) } :=
  leads_scope hK.locals_eq hK.locals_eq (h _ (hK.within _))

theorem conducts_inScope (h : Conducts Λ [] (scope :: rest) scope' ends x) :
    Conducts Λ scope rest scope ends (inScope x) := fun _ hK =>
  (leads_inScope h hK).post fun _ _ hs => hs.weaken { Outlook.Covers.refl _ with
      locals_eq := hK.locals_eq.symm }

theorem leads_withExit {K' : Outlook} {exit : Nat} (hb : (exit, .nothing) ∈ K.joins)
    (h : Leads (Regular Λ K) x fun _ => Regular Λ K') :
    Leads (Regular Λ K) (withExit exit x) fun _ => Regular Λ K' := by
  have hpush : Leads (Regular Λ K) (modifyFn fun fn => { fn with exits := exit :: fn.exits })
      fun _ => Regular Λ K := fun s hs =>
    hs.of_sound (fun _ _ h' => { h' with }) fun hw => (hs.proper hw).pushExit hb
  exact hpush.bind fun _ => h.bind fun _ s hs =>
    hs.of_sound (fun _ _ h' => { h' with }) fun hw => (hs.proper hw).popExit

/-- The locals are declared in the innermost scope, each in a register of its own. -/
theorem leads_declareLocals_bind (vars : List SymbolId) (hK : K.locals = scope :: rest)
    (hp : Λ.function.params.reverse <:+ scope ++ rest.flatten) {f : List Operand → Lower α}
    (h : ∀ dests, (∀ o ∈ dests, o.IsData) → Leads (Regular Λ { K with
        locals := (vars.reverse ++ scope) :: rest, known := dests ++ K.known }) (f dests) Q) :
    Leads (Regular Λ K) (vars.mapM (declareLocal Λ.symbols) >>= f) Q := by
  induction vars generalizing K scope f with
  | nil =>
    rw [List.mapM_nil, pure_bind]
    refine (h [] nofun).pre fun s hs => hs.weaken { Outlook.Covers.refl _ with
        locals_eq := hK.symm }
  | cons id vars ih =>
    simp only [List.mapM_cons, bind_assoc, pure_bind]
    have hp' : Λ.function.params.reverse <:+ id :: scope ++ rest.flatten :=
      hp.trans (List.suffix_cons _ _)
    refine leads_declareLocal_bind id hK (.inl hp') fun name reg tag => ?_
    have hdest : Operand.IsData (.symbol (.localVar name reg tag)) := nofun
    refine ih rfl hp' fun dests hd => (h _ (List.forall_mem_cons.mpr ⟨hdest, hd⟩)).pre fun s hs => ?_
    refine hs.weaken { Outlook.Covers.refl _ with known := fun o ho => ?_, locals_eq := by simp }
    simp only [List.mem_append, List.mem_cons] at ho ⊢
    tauto

end Scopes

section Declarations

variable {scope : List SymbolId} {rest : List (List SymbolId)}

theorem leads_defaultValue (dest : Operand) :
    Leads (Regular Λ K) (defaultValue dest) fun v s =>
      v.1.IsPlain ∧ Regular Λ { K with known := v.1 :: K.known } s := by
  have hconstant (c : Constant) (tag : TypeTag) : Leads (Regular Λ K) (do
      return (← constant c, tag)) fun v s =>
        v.1.IsPlain ∧ Regular Λ { K with known := v.1 :: K.known } s :=
    leads_constant_bind c fun k => meets_pure fun s hs => ⟨⟨rfl, rfl, rfl⟩, hs⟩
  unfold defaultValue
  split
  · exact hconstant _ _
  · exact hconstant _ _
  · exact meets_pure fun s hs => ⟨⟨rfl, rfl, rfl⟩, hs.learn fun _ => ⟨trivial, trivial⟩⟩

theorem leads_initialise {dests : List Operand} {vs : List (Operand × TypeTag)} (hK : K.Active)
    (hd : ∀ o ∈ dests, o ∈ K.known ∧ o.IsData)
    (hv : ∀ v ∈ vs, v.1 ∈ K.known ∧ v.1.Usable K.grants) :
    Leads (Regular Λ K) (initialise dests vs) fun _ => Regular Λ K := by
  induction dests generalizing vs with
  | nil => exact meets_pure fun s hs => hs
  | cons dest dests ih =>
    obtain ⟨hdest, hd⟩ := List.forall_mem_cons.mp hd
    rcases vs with _ | ⟨⟨value, tag⟩, vs⟩
    · refine (leads_defaultValue dest).bind fun v => Meets.of_and fun hplain =>
        Meets.bind (leads_move v.2 (hK.of_eq rfl rfl) List.mem_cons_self (hplain.usable _) ?_ hdest.2)
        fun _ => (ih hd (List.forall_mem_nil _)).pre fun s hs => hs.weaken ?_
      · exact List.mem_cons_of_mem _ hdest.1
      · exact { Outlook.Covers.refl _ with known := fun _ => List.mem_cons_of_mem _ }
    · obtain ⟨hvalue, hv⟩ := List.forall_mem_cons.mp hv
      exact (leads_move tag hK hvalue.1 hvalue.2 hdest.1 hdest.2).bind fun _ => ih hd hv

theorem conducts_declare (vars : List SymbolId)
    (hp : Λ.function.params.reverse <:+ scope ++ rest.flatten)
    (h : ∀ part ∈ parts, part.IsRegular Λ (scope :: rest)) :
    Conducts Λ scope rest (vars.reverse ++ scope) false (declare Λ.symbols vars parts) := by
  intro K hK
  refine (leads_values h _ hK.ready).bind fun list s hs => ?_
  obtain ⟨G, hG, hs⟩ := hs
  refine leads_declareLocals_bind (K := K.gain _ _ G) vars hK.locals_eq hp (fun dests hd => ?_) s hs
  refine Meets.bind (leads_initialise (hK.ready.of_eq rfl rfl) ?_ ?_) fun _ =>
    (leads_freeAll list.owned rfl).post fun _ s hs => hs.weaken ?_
  · exact fun o ho => ⟨List.mem_append_left _ ho, hd o ho⟩
  · intro v hv
    have hmem := hG.mem (List.mem_map_of_mem (f := Prod.fst) hv)
    exact ⟨List.mem_append_right _ hmem.1, hmem.2⟩
  · exact
      { Outlook.Covers.refl _ with
        known := fun o ho => List.mem_append_right _ (List.mem_append_right _ ho)
        grants := hG.le
        phase := fun b hb => hK.isOpen?_eq.trans hb }

/-- The function is lowered with its own name in scope. -/
theorem conducts_declareFunction (var : SymbolId) {func : Lower Nat}
    (hp : Λ.function.params.reverse <:+ scope ++ rest.flatten)
    (h : Sustains Λ ((var :: scope) :: rest) func) :
    Conducts Λ scope rest (var :: scope) false (declareFunction Λ.symbols var func) := by
  intro K hK
  refine leads_declareLocal_bind var hK.locals_eq (.inl (hp.trans (List.suffix_cons _ _))) fun name reg tag => ?_
  have hready : Outlook.Ready { K with
      locals := (var :: scope) :: rest
      known := .symbol (.localVar name reg tag) :: K.known } ((var :: scope) :: rest) :=
    { hK.ready with locals_eq := rfl }
  refine (forms_closure h _ hready).bind fun function => Meets.of_and fun hplain =>
    (leads_free function rfl).bind fun _ => Meets.post (leads_move _ (hready.of_eq rfl rfl) ?_
    (hplain.usable _) ?_ ?_) fun _ s hs => hs.weaken ?_
  · simp
  · simp
  · exact nofun
  · exact
      { Outlook.Covers.refl _ with
        known := fun o ho => by simp [ho]
        phase := fun b hb => hK.isOpen?_eq.trans hb }

end Declarations

section Assignments

/-- A variable that can be written, or a load of which all operands are known. -/
def Target.Aimed (K : Outlook) : Target → Prop
  | .variable dest => dest ∈ K.known ∧ dest.IsData
  | .element load _ _ => ∃ operands, (load, operands) ∈ K.loads ∧
      ∀ o ∈ operands, o ∈ K.known ∧ o.Usable K.grants

/-- The targets were aimed at from `K` on. -/
structure Aims (K : Outlook) (ts : List Target) (K' : Outlook) : Prop where
  held_eq : K'.held = targetTemps ts ++ K.held
  known : ∀ o ∈ K.known, o ∈ K'.known
  le : K.grants.Le K'.grants
  anchored : ∀ r, K'.grants r ≠ none → K.grants r ≠ none ∨ (.any, r) ∈ targetTemps ts
  loads : ∀ l ∈ K.loads, l ∈ K'.loads
  aimed : ∀ t ∈ ts, t.Aimed K'
  open?_eq : K'.open? = K.open?
  isOpen?_eq : K'.isOpen? = K.isOpen?
  pending_eq : K'.pending = K.pending
  joins_eq : K'.joins = K.joins
  locals_eq : K'.locals = K.locals

/-- Where the locals `L` are in scope, evaluation gives a target to be written later. -/
def Aiming (Λ : Locale) (L : List (List SymbolId)) (x : Lower Target) : Prop :=
  ∀ K, K.Ready L → Leads (Regular Λ K) x fun t s => ∃ K', Aims K [t] K' ∧ Regular Λ K' s

variable {K' K'' : Outlook} {t : Target} {ts ts' : List Target} {targets : List (Lower Target)}

theorem Target.Aimed.mono (h : t.Aimed K) (hk : ∀ o ∈ K.known, o ∈ K'.known)
    (hg : K.grants.Le K'.grants) (hl : ∀ l ∈ K.loads, l ∈ K'.loads) : t.Aimed K' := by
  rcases t with dest | ⟨load, result, held⟩
  · exact ⟨hk _ h.1, h.2⟩
  · obtain ⟨operands, hload, hops⟩ := h
    exact ⟨operands, hl _ hload, fun o ho => ⟨hk o (hops o ho).1, (hops o ho).2.mono hg⟩⟩

theorem targetTemps_append (ts ts' : List Target) :
    targetTemps (ts ++ ts') = targetTemps ts' ++ targetTemps ts := by
  simp [targetTemps]

theorem targetTemps_singleton (t : Target) : targetTemps [t] = t.temps := by
  simp [targetTemps]

theorem Aims.nil (K : Outlook) : Aims K [] K where
  held_eq := rfl
  known _ ho := ho
  le := .refl _
  anchored _ hr := Or.inl hr
  loads _ hl := hl
  aimed := nofun
  open?_eq := rfl
  isOpen?_eq := rfl
  pending_eq := rfl
  joins_eq := rfl
  locals_eq := rfl

theorem Aims.append (h : Aims K ts K') (h' : Aims K' ts' K'') : Aims K (ts ++ ts') K'' where
  held_eq := by rw [h'.held_eq, h.held_eq, targetTemps_append, List.append_assoc]
  known o ho := h'.known o (h.known o ho)
  le := h.le.trans h'.le
  anchored r hr := by
    rw [targetTemps_append]
    rcases h'.anchored r hr with hr | hr
    · exact (h.anchored r hr).imp_right (List.mem_append_right _)
    · exact Or.inr (List.mem_append_left _ hr)
  loads l hl := h'.loads l (h.loads l hl)
  aimed t ht := by
    rcases List.mem_append.mp ht with ht | ht
    · exact (h.aimed t ht).mono h'.known h'.le h'.loads
    · exact h'.aimed t ht
  open?_eq := h'.open?_eq.trans h.open?_eq
  isOpen?_eq := h'.isOpen?_eq.trans h.isOpen?_eq
  pending_eq := h'.pending_eq.trans h.pending_eq
  joins_eq := h'.joins_eq.trans h.joins_eq
  locals_eq := h'.locals_eq.trans h.locals_eq

theorem Aims.ready (h : Aims K ts K') (hK : K.Ready L) : K'.Ready L where
  open?_eq := h.open?_eq.trans hK.open?_eq
  phase b hb := hK.phase b (h.isOpen?_eq ▸ hb)
  locals_eq := h.locals_eq.trans hK.locals_eq
  anchored r hr := by
    rw [h.held_eq]
    rcases h.anchored r hr with hr | hr
    · exact List.mem_append_right _ (hK.anchored r hr)
    · exact List.mem_append_left _ hr

/-- What a target holds was gained, with a load that reads it. -/
theorem aims_element {os operands : List Operand} {G : Grants} {load : Nat} {result : Operand}
    {held : List Operand} (h : K.Gained os (Target.element load result held).temps G)
    (hops : ∀ o ∈ operands, o ∈ os) :
    Aims K [.element load result held]
      { K with
        held := (Target.element load result held).temps ++ K.held
        known := os ++ K.known
        grants := G
        loads := (load, operands) :: K.loads } where
  held_eq := by rw [targetTemps_singleton]
  known _ ho := List.mem_append_right _ ho
  le := h.le
  anchored := by
    rw [targetTemps_singleton]
    exact h.anchored
  loads _ hl := List.mem_cons_of_mem _ hl
  aimed := List.forall_mem_singleton.mpr
    ⟨operands, List.mem_cons_self, fun o ho => h.mem (hops o ho)⟩
  open?_eq := rfl
  isOpen?_eq := rfl
  pending_eq := rfl
  joins_eq := rfl
  locals_eq := rfl

theorem aiming_symbolTarget (id : SymbolId) (hu : (Use.variable id, L.flatten) ∈ Λ.function.uses) :
    Aiming Λ L (symbolTarget Λ.symbols id) := by
  intro K hK
  refine leads_symbol_bind Λ.symbols id fun sym hsym => ?_
  have hread (hkind : sym.kind ≠ .global) : Leads (Regular Λ K) (do
      return Target.variable (← readSymbol Λ.symbols id)) fun t s =>
        ∃ K', Aims K [t] K' ∧ Regular Λ K' s := by
    refine (leads_readVariable hsym hkind hu).bind fun o => meets_pure fun s hs => ?_
    obtain ⟨-, hdata, -, h⟩ := hs
    exact ⟨K.gain [o] [] K.grants,
      { Aims.nil K with
        known := fun _ => List.mem_cons_of_mem _
        aimed := List.forall_mem_singleton.mpr ⟨List.mem_cons_self, hdata⟩ }, h⟩
  split
  · refine (leads_loadGlobal sym.name hK.toActive).bind fun v => meets_pure fun s hs => ?_
    obtain ⟨r, k, hv, hreads, h⟩ := hs
    have hG : K.Gained [.symbol (.globalVar sym.name), .tempAny r, .constant k]
        (Target.element v.2 (.tempAny r) []).temps K.grants := by
      refine ⟨.refl _, fun o ho => Operand.IsPlain.usable ?_ _, fun _ => Or.inl⟩
      simp only [List.mem_cons, List.not_mem_nil, or_false] at ho
      rcases ho with rfl | rfl | rfl <;> exact ⟨rfl, rfl, rfl⟩
    rw [hv]
    exact ⟨_, aims_element hG (by simp), h.noteLoad hreads⟩
  · rename_i hkind
    exact hread hkind

theorem aiming_indexTarget {object key : Part} (ho : object.IsRegular Λ L) (hk : key.IsRegular Λ L) :
    Aiming Λ L (indexTarget object key) := by
  intro K hK
  refine leads_one_bind ho hK fun container G₁ h₁ => leads_one_bind hk (hK.gain h₁) fun k G₂ h₂ =>
    (leads_keyClass k key.ty).bind fun c => leads_allocTemp_bind _ fun r =>
    Meets.bind (leads_emitId (Selection.load_isStraight _ _) (hK.of_eq rfl rfl) ?_ ?_) fun load =>
    meets_pure fun s hs => ?_
  · intro o ho
    have hmem := (h₁.trans h₂).mem (o := o) (by simpa [or_comm] using ho)
    exact ⟨List.mem_cons_of_mem _ hmem.1, hmem.2⟩
  · exact List.forall_mem_singleton.mpr ⟨List.mem_cons_self, Operand.isData_temp _ r⟩
  · generalize (Selection.load object.ty c).result = kind at hs ⊢
    have hG := (h₁.trans h₂).trans (.plain (Operand.isPlain_temp kind r) (Operand.temp kind r).temps)
    have htemps : (Target.element load (.temp kind r) [container, k]).temps =
        (Operand.temp kind r).temps ++ (k.temps ++ container.temps) := by
      simp [Target.temps, tempsOf]
    rw [← htemps] at hG
    refine ⟨_, aims_element hG ?_, (hs.2.noteLoad hs.1).weaken { Outlook.Covers.refl _ with
        held := ?_ }⟩
    · simp
    · simp [htemps]

theorem leads_targets (h : ∀ t ∈ targets, Aiming Λ L t) (hK : K.Ready L) :
    Leads (Regular Λ K) (targets.mapM id) fun ts s => ∃ K', Aims K ts K' ∧ Regular Λ K' s := by
  induction targets generalizing K with
  | nil => exact meets_pure fun s hs => ⟨K, .nil K, hs⟩
  | cons target targets ih =>
    obtain ⟨ht, hr⟩ := List.forall_mem_cons.mp h
    rw [List.mapM_cons]
    refine (ht K hK).bind fun t s hs => ?_
    obtain ⟨K₁, h₁, hs⟩ := hs
    refine ((ih hr (h₁.ready hK)).bind fun ts => meets_pure fun s hs => ?_) s hs
    obtain ⟨K₂, h₂, hs⟩ := hs
    exact ⟨K₂, h₁.append h₂, hs⟩

theorem leads_assignOperands (ht : ∀ t ∈ targets, Aiming Λ L t)
    (h : ∀ part ∈ parts, part.IsRegular Λ L) (hK : K.Ready L) :
    Leads (Regular Λ K) (assignOperands targets parts) fun r s =>
      ∃ K', Aims K r.1 K' ∧ Gathers Λ K' r.2 s := by
  refine (leads_targets ht hK).bind fun ts s hs => ?_
  obtain ⟨K', hK', hs⟩ := hs
  exact ((leads_values h _ (hK'.ready hK)).bind fun list => meets_pure fun s hs =>
    ⟨K', hK', hs⟩) s hs

theorem leads_snapshots {entries : List (Operand × TypeTag)} (hK : K.Active)
    (h : ∀ v ∈ entries, v.1 ∈ K.known ∧ v.1.Usable K.grants) :
    Leads (Regular Λ K) (snapshots entries) (Gathers Λ K) := by
  induction entries generalizing K with
  | nil => exact meets_pure fun s hs => ⟨K.grants, .nil K, hs⟩
  | cons entry rest ih =>
    obtain ⟨⟨hmem, hu⟩, hr⟩ := List.forall_mem_cons.mp h
    have hhead : Leads (Regular Λ K) (snapshot entry) (Gathers Λ K) := by
      cases hv : entry.1.isVariable with
      | true =>
        rw [snapshot_of_isVariable entry.2 hv]
        refine leads_allocTemp_bind _ fun r => Meets.bind (leads_move _ (hK.of_eq rfl rfl) ?_ hu ?_
          (Operand.isData_temp _ r)) fun _ => meets_pure fun s hs => ⟨K.grants, ?_⟩
        · exact List.mem_cons_of_mem _ hmem
        · exact List.mem_cons_self
        · rw [tempsOf_singleton]
          exact ⟨.plain (Operand.isPlain_temp _ r) _, hs⟩
      | false =>
        rw [snapshot_of_not_isVariable entry.2 hv]
        refine meets_pure fun s hs => ⟨K.grants, ⟨.refl _, ?_, fun _ => Or.inl⟩, hs.weaken ?_⟩
        · exact List.forall_mem_singleton.mpr hu
        · refine { Outlook.Covers.refl _ with known := fun o ho => ?_ }
          rcases List.mem_cons.mp ho with rfl | ho
          · exact hmem
          · exact ho
    refine hhead.bind fun head s hs => ?_
    obtain ⟨G, hG, hs⟩ := hs
    refine Meets.bind (ih (K := K.gain _ _ G) (hK.of_eq rfl rfl) fun v hv => ?_)
      (fun tail => meets_pure fun s hs => hs.append hG) s hs
    exact ⟨List.mem_append_right _ (hr v hv).1, (hr v hv).2.mono hG.le⟩

/-- The loads of the targets turn into stores. The other loads stay what they are. -/
theorem leads_writeAll {vs : List (Operand × TypeTag)} (hK : K.Active) (ht : ∀ t ∈ ts, t.Aimed K)
    (hv : ∀ v ∈ vs, v.1 ∈ K.known ∧ v.1.Usable K.grants) (hnil : .nil ∈ K.known)
    (hnodup : (ts.filterMap Target.load?).Nodup) (keep : List (Nat × List Operand))
    (hkeep : ∀ l ∈ keep, l ∈ K.loads ∧ l.1 ∉ ts.filterMap Target.load?) :
    Leads (Regular Λ K) (writeAll ts vs) fun _ => Regular Λ { K with loads := keep } := by
  induction ts generalizing vs keep with
  | nil => exact meets_pure fun s hs => hs.weaken { Outlook.Covers.refl _ with
      loads := fun l hl => (hkeep l hl).1 }
  | cons t ts ih =>
    obtain ⟨ht, hts⟩ := List.forall_mem_cons.mp ht
    have hvs : ∀ v ∈ vs.tail, v.1 ∈ K.known ∧ v.1.Usable K.grants :=
      fun v hv' => hv v (List.mem_of_mem_tail hv')
    have hhead : (vs.headD (.nil, .nil)).1 ∈ K.known ∧ (vs.headD (.nil, .nil)).1.Usable K.grants := by
      cases vs with
      | nil => exact ⟨hnil, Operand.IsPlain.usable ⟨rfl, rfl, rfl⟩ _⟩
      | cons v vs => exact hv v List.mem_cons_self
    rcases t with dest | ⟨load, result, held⟩
    · refine (ih hts hvs hnodup keep hkeep).bind fun _ => ?_
      exact leads_move _ (hK.of_eq rfl rfl) hhead.1 hhead.2 ht.1 ht.2
    · obtain ⟨operands, hload, hops⟩ := ht
      obtain ⟨hnew, hnodup⟩ := List.nodup_cons.mp (show (load :: ts.filterMap Target.load?).Nodup from hnodup)
      refine Meets.bind (ih hts hvs hnodup ((load, operands) :: keep) ?_) fun _ => ?_
      · refine List.forall_mem_cons.mpr ⟨⟨hload, hnew⟩, fun l hl => ⟨(hkeep l hl).1, fun hm => ?_⟩⟩
        exact (hkeep l hl).2 (List.mem_cons_of_mem load hm)
      · refine leads_turnIntoStore (K := { K with loads := (load, operands) :: keep })
          (hK.of_eq rfl rfl) List.mem_cons_self ?_ fun l hl => ⟨List.mem_cons_of_mem _ hl, ?_⟩
        · exact List.forall_mem_append.mpr ⟨hops, List.forall_mem_singleton.mpr hhead⟩
        · rintro rfl
          exact (hkeep l hl).2 List.mem_cons_self

theorem leads_releaseTarget (t : Target) {held : List (TempKind × Nat)} (hK : K.held = t.temps ++ held) :
    Leads (Regular Λ K) (releaseTarget t) fun _ => Regular Λ { K with held } := by
  rcases t with dest | ⟨load, result, os⟩
  · refine meets_pure fun s hs => hs.weaken { Outlook.Covers.refl _ with held := ?_ }
    rw [hK]
    rfl
  · rw [Target.temps, List.append_assoc] at hK
    exact (leads_free result hK).bind fun _ => leads_freeAll os rfl

/-- The values are written to the targets, and all that was held is returned. -/
theorem leads_writes {list : ValueList} (hK : K.Rests L) (h : Aims K ts K')
    (hnodup : (ts.filterMap Target.load?).Nodup) :
    Leads (Gathers Λ K' list) (do
      writeAll ts list.values
      freeAll list.owned
      ts.reverse.forM releaseTarget) fun _ => Regular Λ K := by
  rintro s ⟨G, hG, hs⟩
  have hactive := (h.ready hK.ready).toActive
  refine Meets.bind (leads_writeAll (K := { K'.gain (list.values.map Prod.fst) (tempsOf list.owned) G
    with known := .nil :: (list.values.map Prod.fst ++ K'.known) }) (hactive.of_eq rfl rfl) ?_ ?_
    List.mem_cons_self hnodup [] nofun) (fun _ => (leads_freeAll list.owned rfl).bind fun _ => ?_) s
    (hs.learn fun _ => ⟨trivial, trivial⟩)
  · exact fun t ht => (h.aimed t ht).mono
      (fun o ho => List.mem_cons_of_mem _ (List.mem_append_right _ ho)) hG.le fun _ hl => hl
  · intro v hv
    have hmem := hG.mem (List.mem_map_of_mem (f := Prod.fst) hv)
    exact ⟨List.mem_cons_of_mem _ hmem.1, hmem.2⟩
  · have hI := meets_forM (E := Admissible) (f := releaseTarget) (I := fun l => Regular Λ
      { K' with
        held := l.flatMap Target.temps ++ K.held
        known := .nil :: (list.values.map Prod.fst ++ K'.known)
        grants := G
        loads := [] }) (fun t l => leads_releaseTarget t (by simp)) ts.reverse
    refine Meets.pre (hI.post fun _ s hs => hs.weaken ?_) fun s hs => hs.weaken ?_
    · exact
        { Outlook.Covers.refl _ with
          known := fun o ho => List.mem_cons_of_mem _ (List.mem_append_right _ (h.known o ho))
          grants := h.le.trans hG.le
          open?_eq := h.open?_eq.symm
          phase := fun b hb => h.isOpen?_eq.trans hb
          pending := .of_eq h.pending_eq
          joins := fun j hj => h.joins_eq ▸ hj
          locals_eq := h.locals_eq.symm
          loads := fun l hl => by simp [hK.loads_eq] at hl }
    · exact { Outlook.Covers.refl _ with held := .of_eq h.held_eq }

theorem leads_store {list : ValueList} (hK : K.Rests L) (h : Aims K ts K')
    (hnodup : (ts.filterMap Target.load?).Nodup) :
    Leads (Gathers Λ K' list) (store ts list) fun _ => Regular Λ K := by
  rintro s ⟨G, hG, hs⟩
  unfold store
  split
  · have hactive := (h.ready hK.ready).toActive
    refine Meets.bind (leads_snapshots (K := K'.gain _ _ G) (hactive.of_eq rfl rfl) fun v hv =>
      hG.mem (List.mem_map_of_mem hv)) (fun copies s hs => ?_) s hs
    exact leads_writes hK h hnodup s ((hs.append hG).subset fun v hv => List.mem_append_right _ hv)
  · exact leads_writes hK h hnodup s ⟨G, hG, hs⟩

theorem parts_isRegular {exprs : List Expr} (h : ∀ e ∈ exprs, (ofExpr Λ.symbols e).IsRegular Λ L) :
    ∀ part ∈ ofExprs Λ.symbols exprs, part.IsRegular Λ L := by
  simpa using h

theorem conducts_assign {scope : List SymbolId} {rest : List (List SymbolId)}
    {targets exprs : List Expr} (ht : ∀ t ∈ targets, Aiming Λ (scope :: rest) (ofTarget Λ.symbols t))
    (he : ∀ e ∈ exprs, (ofExpr Λ.symbols e).IsRegular Λ (scope :: rest)) :
    Conducts Λ scope rest scope false
      (assign (ofTargets Λ.symbols targets) (ofExprs Λ.symbols exprs)) := by
  refine conducts_of_kept fun K hK s hs => ?_
  have hall : ∀ t ∈ ofTargets Λ.symbols targets, Aiming Λ (scope :: rest) t := by
    simpa using ht
  have hops := leads_assignOperands (Λ := Λ) hall (parts_isRegular he) hK.ready s hs
  rw [assign_eq, ends_bind]
  refine (hops.and (ends_assignOperands Λ.symbols targets exprs s)).mono ?_ fun _ _ h' => h'.1
  rintro ⟨ts, list⟩ s₁ ⟨⟨K', hK', h₁⟩, -, hnodup⟩
  exact leads_store hK hK' hnodup s₁ h₁

end Assignments

end Lower

end ScriptC
