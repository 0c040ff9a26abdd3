import ScriptC.Proofs.Regularity.Statements

/-! # Regular branches and loops

Wherever the blocks of a statement meet, no results are at hand. So only the blocks that wait and the
end of the current one have to be followed.
-/

namespace ScriptC

open Lower LoweringState

namespace Outlook

/-- The outlook between the blocks of a statement. -/
abbrev waiting (K : Outlook) (isOpen? : Option Bool) (pending : List Nat) : Outlook :=
  { K with isOpen?, pending, grants := .nothing }

/-- No results are at hand where the blocks begin. -/
abbrev join (K : Outlook) (bs : List Nat) : Outlook :=
  { K with joins := bs.map (·, .nothing) ++ K.joins }

/-- Nothing is left open between the blocks of a statement. -/
structure Calm (K : Outlook) (L : List (List SymbolId)) : Prop where
  locals_eq : K.locals = L
  open?_eq : K.open? = none
  loads_eq : K.loads = []

variable {K : Outlook} {L : List (List SymbolId)} {isOpen? : Option Bool} {pending : List Nat}

theorem Rests.calm (h : K.Rests L) : K.Calm L := ⟨h.locals_eq, h.open?_eq, h.loads_eq⟩

theorem Rests.eq_waiting (h : K.Rests L) : K = K.waiting (some true) K.pending := by
  obtain ⟨held, known, grants, open?, isOpen?, pending, joins, locals, loads⟩ := K
  obtain rfl : isOpen? = some true := h.isOpen?_eq
  obtain rfl : grants = .nothing := h.grants_eq
  rfl

theorem Calm.rests (h : K.Calm L) (pending : List Nat) :
    (K.waiting (some true) pending).Rests L where
  locals_eq := h.locals_eq
  open?_eq := h.open?_eq
  isOpen?_eq := rfl
  grants_eq := rfl
  loads_eq := h.loads_eq

theorem Calm.join (h : K.Calm L) (bs : List Nat) : (K.join bs).Calm L :=
  ⟨h.locals_eq, h.open?_eq, h.loads_eq⟩

end Outlook

namespace Lower

variable {Λ : Locale} {K : Outlook} {L rest : List (List SymbolId)} {scope scope' : List SymbolId}
  {ends : Bool} {cond start limit : Part} {contents : Lower Unit} {isOpen? : Option Bool}
  {pending : List Nat} {a b : Nat}

section Blocks

theorem leads_newBlock_waiting {f : Nat → Lower Unit} {isOpen?' : Option Bool} {pending' : List Nat}
    (h : ∀ b, Leads (Regular Λ ((K.join [b]).waiting isOpen? (b :: pending))) (f b) fun _ =>
      Regular Λ ((K.join [b]).waiting isOpen?' pending')) :
    Leads (Regular Λ (K.waiting isOpen? pending)) (newBlock >>= f) fun _ =>
      Regular Λ (K.waiting isOpen?' pending') :=
  leads_newBlock_bind (Grants.nothing_le _) fun b => (h b).post fun _ _ hs =>
    hs.weaken { Outlook.Covers.refl _ with joins := fun _ => List.mem_cons_of_mem _ }

theorem leads_newBlocks_waiting (n : Nat) {f : List Nat → Lower Unit} {isOpen?' : Option Bool}
    {pending' : List Nat}
    (h : ∀ bs, bs.length = n → Leads (Regular Λ ((K.join bs).waiting isOpen? (bs ++ pending))) (f bs)
      fun _ => Regular Λ ((K.join bs).waiting isOpen?' pending')) :
    Leads (Regular Λ (K.waiting isOpen? pending)) (newBlocks n >>= f) fun _ =>
      Regular Λ (K.waiting isOpen?' pending') := by
  induction n generalizing K pending f with
  | zero => exact h [] rfl
  | succ n ih =>
    simp only [newBlocks, bind_assoc, pure_bind]
    refine leads_newBlock_waiting fun b => ih fun bs hbs => ?_
    have hjoins (j : Nat × Grants) : j ∈ (K.join (b :: bs)).joins ↔ j ∈ ((K.join [b]).join bs).joins := by
      simp only [List.map_cons, List.map_nil, List.mem_append, List.mem_cons, List.not_mem_nil]
      tauto
    refine Meets.pre ((h (b :: bs) (congrArg (· + 1) hbs)).post fun _ s hs => hs.weaken ?_)
      fun s hs => hs.weaken ?_
    · exact { Outlook.Covers.refl _ with joins := fun j hj => (hjoins j).mpr hj }
    · exact { Outlook.Covers.refl _ with
          pending := List.perm_middle, joins := fun j hj => (hjoins j).mp hj }

theorem leads_enter {rest : List Nat} (hK : K.open? = none) (hp : pending.Perm (b :: rest))
    (hb : (b, .nothing) ∈ K.joins) :
    Leads (Regular Λ (K.waiting isOpen? pending)) (startBlock b) fun _ =>
      Regular Λ (K.waiting (some true) rest) :=
  leads_startBlock (K := K.waiting isOpen? pending) hK hp hb (Or.inr (Grants.nothing_le _))

theorem leads_proceed (hK : K.open? = none) (hb : (b, .nothing) ∈ K.joins) :
    Leads (Regular Λ (K.waiting isOpen? pending)) (branchTo b) fun _ =>
      Regular Λ (K.waiting (some false) pending) :=
  leads_branchTo (K := K.waiting isOpen? pending) hK (Or.inr ⟨_, hb, Grants.nothing_le _⟩)

theorem leads_test (h : cond.IsRegular Λ L) (hK : (K.waiting isOpen? pending).Ready L)
    (ha : (a, .nothing) ∈ K.joins) (hb : (b, .nothing) ∈ K.joins) :
    Leads (Regular Λ (K.waiting isOpen? pending)) (test cond a b) fun _ =>
      Regular Λ (K.waiting (some false) pending) := by
  refine leads_one_bind h hK fun value G hG => (leads_free value rfl).bind fun _ =>
    Meets.post (leads_cbr hK.open?_eq List.mem_cons_self (hG.usable value (List.mem_singleton_self _))
    ⟨_, ha, Grants.nothing_le _⟩ ⟨_, hb, Grants.nothing_le _⟩) fun _ s hs => hs.weaken ?_
  exact { Outlook.Covers.refl _ with known := fun _ => List.mem_cons_of_mem _ }

/-- A statement that is made of blocks. -/
theorem conducts_of_waiting {x : Lower Unit}
    (h : ∀ (K : Outlook) pending, K.Calm (scope :: rest) → Leads (Regular Λ (K.waiting (some true) pending)) x
      fun _ => Regular Λ (K.waiting (some true) pending)) : Conducts Λ scope rest scope false x := by
  refine conducts_of_kept fun K hK => ?_
  have hx := h K K.pending hK.calm
  rwa [← hK.eq_waiting] at hx

/-- Statements in order. What follows one that ends the block is dropped. -/
theorem conducts_sequence_cons {x : Lower Unit} {xs : List (Lower Unit)} {scope₁ scope₂ : List SymbolId}
    {ends₁ ends₂ : Bool} (hx : Conducts Λ scope rest scope₁ ends₁ x)
    (hxs : Conducts Λ scope₁ rest scope₂ ends₂ (sequence xs)) :
    Conducts Λ scope rest (if ends₁ then scope₁ else scope₂) (ends₁ || ends₂)
      (sequence (x :: xs)) := by
  intro K hK s hs
  have hrests : Outlook.Rests { K with locals := scope₁ :: rest, isOpen? := some true }
      (scope₁ :: rest) := { hK with locals_eq := rfl, isOpen?_eq := rfl }
  simp only [sequence, ends_bind, ends_isTerminated]
  by_cases hw : Λ.isWatched = true
  · have ht := (hs.proper hw).phase true hK.isOpen?_eq
    rw [ht, if_neg (by simp), ends_bind]
    refine (hx K hK s hs).imp fun _ s₁ h₁ => ?_
    cases ends₁ with
    | false => exact hxs _ hrests s₁ h₁
    | true =>
      rw [ends_sequence_of_terminated ((h₁.proper hw).phase false rfl)]
      exact h₁
  · split
    · exact hs.of_unwatched hw _ _
    · rw [ends_bind]
      refine (hx K hK s hs).imp fun _ s₁ h₁ => ?_
      exact (hxs _ hrests s₁ (h₁.of_unwatched hw _ _)).imp fun _ _ h₂ => h₂.of_unwatched hw _ _

end Blocks

section Branches

theorem leads_clause (hc : cond.IsRegular Λ L) (hb : Conducts Λ [] L scope' ends contents)
    (hK : K.Calm L) {body otherwise done : Nat} (hbody : (body, .nothing) ∈ K.joins)
    (hotherwise : (otherwise, .nothing) ∈ K.joins) (hdone : (done, .nothing) ∈ K.joins) :
    Leads (Regular Λ (K.waiting (some true) (body :: pending)))
      (clause cond contents body otherwise done) fun _ =>
        Regular Λ (K.waiting (some false) pending) :=
  (leads_test hc (hK.rests _).ready hbody hotherwise).bind fun _ =>
    (leads_enter hK.open?_eq (.refl _) hbody).bind fun _ =>
    (leads_inScope hb (hK.rests pending)).bind fun _ => leads_proceed hK.open?_eq hdone

/-- The clauses start the blocks of their bodies and tests. -/
theorem leads_clauses {cases : List (Part × Lower Unit)} {bodies tests : List Nat}
    (h : ∀ c ∈ cases, c.1.IsRegular Λ L ∧ ∃ scope' ends, Conducts Λ [] L scope' ends c.2)
    (hK : K.Calm L) (hb : bodies.length = cases.length) (ht : tests.length = cases.length - 1)
    (hjoins : ∀ b ∈ bodies ++ tests, (b, .nothing) ∈ K.joins) {otherwise done : Nat}
    (hotherwise : (otherwise, .nothing) ∈ K.joins) (hdone : (done, .nothing) ∈ K.joins) :
    Leads (Regular Λ (K.waiting (some true) (bodies ++ tests ++ pending)))
      (clauses otherwise done cases bodies tests) fun _ => Regular Λ (K.waiting none pending) := by
  induction cases generalizing bodies tests with
  | nil =>
    obtain rfl : bodies = [] := List.length_eq_zero_iff.mp hb
    obtain rfl : tests = [] := List.length_eq_zero_iff.mp ht
    exact meets_pure fun s hs => hs.weaken { Outlook.Covers.refl _ with phase := nofun }
  | cons c cases ih =>
    obtain ⟨⟨hc, _, _, hbody⟩, hr⟩ := List.forall_mem_cons.mp h
    obtain ⟨body, bodies, rfl⟩ := List.exists_cons_of_length_eq_add_one hb
    have hfirst := hjoins body (by simp)
    cases tests with
    | nil =>
      obtain rfl : cases = [] := List.length_eq_zero_iff.mp ht.symm
      obtain rfl : bodies = [] := by simpa using hb
      exact (leads_clause hc hbody hK hfirst hotherwise hdone).post fun _ s hs =>
        hs.weaken { Outlook.Covers.refl _ with phase := nofun }
    | cons next tests =>
      have hnext := hjoins next (by simp)
      have hp : (bodies ++ next :: tests ++ pending).Perm
          (next :: (bodies ++ tests ++ pending)) := by
        simp
      refine (leads_clause hc hbody hK hfirst hnext hdone).bind fun _ =>
        (leads_enter hK.open?_eq hp hnext).bind fun _ => ih hr (by simpa using hb) ?_ fun b hb' => hjoins b ?_
      · simp only [List.length_cons] at ht
        omega
      · rcases List.mem_append.mp hb' with hb' | hb' <;> simp [hb']

theorem conducts_branch {cases : List (Part × Lower Unit)} {otherwise : Option (Lower Unit)}
    (h : ∀ c ∈ cases, c.1.IsRegular Λ (scope :: rest) ∧
      ∃ scope' ends, Conducts Λ [] (scope :: rest) scope' ends c.2)
    (ho : ∀ x ∈ otherwise, ∃ scope' ends, Conducts Λ [] (scope :: rest) scope' ends x) :
    Conducts Λ scope rest scope false (branch cases otherwise) := by
  refine conducts_of_waiting fun K pending hK => leads_newBlock_waiting fun done =>
    leads_newBlocks_waiting _ fun bodies hb => leads_newBlocks_waiting _ fun tests ht => ?_
  have hp (pending : List Nat) : (tests ++ (bodies ++ pending)).Perm (bodies ++ tests ++ pending) := by
    simpa using List.perm_append_comm_assoc tests bodies pending
  cases otherwise with
  | none =>
    have hcalm := ((hK.join [done]).join bodies).join tests
    refine Meets.pre (Meets.bind (leads_clauses h hcalm hb ht ?_ ?_ ?_) fun _ =>
      leads_enter hcalm.open?_eq (.refl _) ?_) fun s hs => hs.weaken { Outlook.Covers.refl _ with
          pending := hp _ }
    · intro b hb'
      rcases List.mem_append.mp hb' with hb' | hb' <;> simp [hb']
    all_goals simp
  | some contents =>
    obtain ⟨_, _, hcontents⟩ := ho contents rfl
    refine leads_newBlock_waiting fun block => ?_
    have hcalm := (((hK.join [done]).join bodies).join tests).join [block]
    refine Meets.pre (Meets.bind (leads_clauses h hcalm hb ht ?_ ?_ ?_) fun _ =>
      (leads_enter hcalm.open?_eq (.refl _) ?_).bind fun _ =>
      (leads_inScope hcontents (hcalm.rests _)).bind fun _ =>
      (leads_proceed hcalm.open?_eq ?_).bind fun _ => leads_enter hcalm.open?_eq (.refl _) ?_)
      fun s hs => hs.weaken { Outlook.Covers.refl _ with
          pending := ((hp _).cons block).trans List.perm_middle.symm }
    · intro b hb'
      rcases List.mem_append.mp hb' with hb' | hb' <;> simp [hb']
    all_goals simp

end Branches

section Loops

theorem conducts_whileLoop (hc : cond.IsRegular Λ (scope :: rest))
    (hb : Conducts Λ [] (scope :: rest) scope' ends contents) :
    Conducts Λ scope rest scope false (whileLoop cond contents) := by
  refine conducts_of_waiting fun K pending hK => leads_newBlock_waiting fun condBlock =>
    leads_newBlock_waiting fun body => leads_newBlock_waiting fun done => ?_
  have hcalm := ((hK.join [condBlock]).join [body]).join [done]
  refine (leads_enter hcalm.open?_eq (@List.perm_middle _ condBlock [done, body] _) ?_).bind fun _ =>
    (leads_test hc (hcalm.rests _).ready ?_ ?_).bind fun _ =>
    (leads_enter hcalm.open?_eq (.swap _ _ _) ?_).bind fun _ =>
    (leads_withExit ?_ (leads_inScope hb (hcalm.rests _))).bind fun _ =>
    (leads_proceed hcalm.open?_eq ?_).bind fun _ => leads_enter hcalm.open?_eq (.refl _) ?_
  all_goals simp

/-- The condition is evaluated where the locals of the body are in scope. -/
theorem conducts_repeatLoop (hb : Conducts Λ [] (scope :: rest) scope' ends contents)
    (hc : cond.IsRegular Λ (scope' :: scope :: rest)) :
    Conducts Λ scope rest scope false (repeatLoop contents cond) := by
  refine conducts_of_waiting fun K pending hK => leads_newBlock_waiting fun body =>
    leads_newBlock_waiting fun done => ?_
  have hcalm := (hK.join [body]).join [done]
  generalize hJ : (K.join [body]).join [done] = J at hcalm ⊢
  have hbodyJ : (body, .nothing) ∈ J.joins := by simp [← hJ]
  have hdoneJ : (done, .nothing) ∈ J.joins := by simp [← hJ]
  have hready : ((J.within (scope' :: scope :: rest)).waiting none (done :: pending)).Ready
      (scope' :: scope :: rest) := ⟨⟨hcalm.open?_eq, by simp⟩, rfl, fun _ hr => absurd rfl hr⟩
  have hscope : Leads (Regular Λ (J.waiting (some true) (done :: pending)))
      (inScope do contents; test cond done body) fun _ =>
        Regular Λ (J.waiting (some false) (done :: pending)) :=
    leads_scope hcalm.locals_eq hcalm.locals_eq ((hb _ ((hcalm.rests _).within _)).bind fun _ =>
      Meets.pre (leads_test hc hready hdoneJ hbodyJ) fun s hs => hs.weaken { Outlook.Covers.refl _ with
          phase := by simp })
  exact (leads_enter hcalm.open?_eq (.swap _ _ _) hbodyJ).bind fun _ =>
    Meets.bind (leads_withExit (K := J.waiting _ _) hdoneJ hscope) fun _ =>
    leads_enter hcalm.open?_eq (.refl _) hdoneJ

theorem leads_loopBody {var : SymbolId} {index : Operand} (tag : TypeTag) {exit : Nat} (hK : K.Calm L)
    (hi : index ∈ K.known) (hplain : index.IsPlain) (he : (exit, .nothing) ∈ K.joins)
    (hb : Λ.function.Admits (var :: L.flatten) ∧ Conducts Λ [var] L scope' ends contents) :
    Leads (Regular Λ (K.waiting (some true) pending))
      (loopBody Λ.symbols var index tag contents exit) fun _ =>
        Regular Λ (K.waiting (some (!ends)) pending) := by
  have hrests := (hK.rests pending).within [[]]
  have hinner : Leads (Regular Λ ((K.waiting (some true) pending).within ([] :: L))) (do
      let dest ← declareLocal Λ.symbols var
      move index tag dest
      withExit exit contents) fun _ =>
        Regular Λ ((K.waiting (some (!ends)) pending).within (scope' :: L)) := by
    refine leads_declareLocal_bind var rfl hb.1 fun name reg tag' => Meets.bind
      (leads_move tag (hrests.ready.of_eq rfl rfl) ?_ (hplain.usable _) ?_ ?_) fun _ =>
      leads_withExit he (Meets.post (hb.2 _ ?_) fun _ s hs => hs.weaken ?_)
    · exact List.mem_cons_of_mem _ hi
    · exact List.mem_cons_self
    · exact nofun
    · exact { hrests with locals_eq := rfl }
    · exact { Outlook.Covers.refl _ with known := fun _ => List.mem_cons_of_mem _ }
  exact leads_scope hK.locals_eq hK.locals_eq hinner

theorem leads_compare {opcode : Opcode} {operands : List Operand} (ho : opcode.IsStraight)
    (hK : K.open? = none) (hops : ∀ o ∈ operands, o ∈ K.known ∧ o.IsPlain)
    (ha : (a, .nothing) ∈ K.joins) (hb : (b, .nothing) ∈ K.joins) :
    Leads (Regular Λ (K.waiting (some true) pending)) (compare opcode operands a b) fun _ =>
      Regular Λ (K.waiting (some false) pending) := by
  have hactive : (K.waiting (some true) pending).Active := ⟨hK, by simp⟩
  refine leads_allocTemp_bind .any fun r => Meets.bind (leads_emit ho (hactive.of_eq rfl rfl) ?_ ?_)
    fun _ => (leads_free _ rfl).bind fun _ => Meets.post (leads_cbr hK List.mem_cons_self
    ((Operand.isPlain_temp .any r).usable _) ⟨_, ha, Grants.nothing_le _⟩ ⟨_, hb, Grants.nothing_le _⟩)
    fun _ s hs => hs.weaken { Outlook.Covers.refl _ with known := fun _ => List.mem_cons_of_mem _ }
  · exact fun o ho => ⟨List.mem_cons_of_mem _ (hops o ho).1, (hops o ho).2.usable _⟩
  · exact List.forall_mem_singleton.mpr ⟨List.mem_cons_self, Operand.isData_temp .any r⟩

theorem leads_advance {opcode : Opcode} {index step : Operand} (ho : opcode.IsStraight)
    (hK : K.open? = none) (hi : index ∈ K.known ∧ index.IsPlain) (hdata : index.IsData)
    (hs : step ∈ K.known ∧ step.IsPlain) (hb : (b, .nothing) ∈ K.joins) :
    Leads (Regular Λ (K.waiting isOpen? pending)) (advance opcode index step b) fun _ =>
      Regular Λ (K.waiting (some false) pending) := by
  intro s h
  simp only [advance, ends_bind, ends_isTerminated]
  cases ht : s.fn.proc.isTerminated s.fn.block with
  | true => exact h.phased (b := false) ht
  | false =>
    have hactive : (K.waiting (some true) pending).Active := ⟨hK, by simp⟩
    refine Meets.bind (leads_emit ho hactive ?_ ?_) (fun _ => leads_br hK ⟨_, hb, Grants.nothing_le _⟩)
      s (h.phased (b := true) ht)
    · refine List.forall_mem_cons.mpr ⟨⟨hi.1, hi.2.usable _⟩, ?_⟩
      exact List.forall_mem_singleton.mpr ⟨hs.1, hs.2.usable _⟩
    · exact List.forall_mem_singleton.mpr ⟨hi.1, hdata⟩

/-- The loop itself, with its index and its bound in registers that it returns. -/
theorem leads_integerLoop {var : SymbolId} {index bound : Nat} {held : List (TempKind × Nat)}
    (step : Int64) (hK : K.Calm L) (hheld : K.held = (.int, bound) :: (.int, index) :: held)
    (hindex : .tempInt index ∈ K.known) (hbound : .tempInt bound ∈ K.known)
    (hb : Λ.function.Admits (var :: L.flatten) ∧ Conducts Λ [var] L scope' ends contents) :
    Leads (Regular Λ (K.waiting (some true) pending)) (do
      let stride ← intConstant step
      let testBlock ← newBlock
      let body ← newBlock
      let done ← newBlock
      startBlock testBlock
      compare .leII (if 0 ≤ step then [.tempInt index, .tempInt bound]
        else [.tempInt bound, .tempInt index]) body done
      startBlock body
      loopBody Λ.symbols var (.tempInt index) .integer contents done
      advance .addII (.tempInt index) stride testBlock
      startBlock done
      free (.tempInt bound)
      free (.tempInt index)) fun _ => Regular Λ { K.waiting (some true) pending with held } := by
  refine leads_constant_bind _ fun k => leads_newBlock_bind (Grants.nothing_le _) fun testBlock =>
    leads_newBlock_bind (Grants.nothing_le _) fun body =>
    leads_newBlock_bind (Grants.nothing_le _) fun done => ?_
  let J := (((K.gain [.constant k] [] .nothing).join [testBlock]).join [body]).join [done]
  have hcalm : J.Calm L := ⟨hK.locals_eq, hK.open?_eq, hK.loads_eq⟩
  have hindexJ : .tempInt index ∈ J.known := List.mem_cons_of_mem _ hindex
  have hboundJ : .tempInt bound ∈ J.known := List.mem_cons_of_mem _ hbound
  have hplain (r : Nat) : (Operand.tempInt r).IsPlain := ⟨rfl, rfl, rfl⟩
  refine Meets.pre (P := Regular Λ (J.waiting (some true) (done :: body :: testBlock :: pending))) ?_
    fun s hs => hs
  refine (leads_enter hcalm.open?_eq (@List.perm_middle _ testBlock [done, body] _) ?_).bind fun _ =>
    (leads_compare (by decide) hcalm.open?_eq ?_ ?_ ?_).bind fun _ =>
    (leads_enter hcalm.open?_eq (.swap _ _ _) ?_).bind fun _ =>
    (leads_loopBody .integer hcalm hindexJ (hplain index) ?_ hb).bind fun _ =>
    (leads_advance (by decide) hcalm.open?_eq ⟨hindexJ, hplain index⟩ nofun
      ⟨List.mem_cons_self, rfl, rfl, rfl⟩ ?_).bind fun _ =>
    (leads_enter hcalm.open?_eq (.refl _) ?_).bind fun _ => (leads_free _ hheld).bind fun _ =>
    (leads_free _ rfl).post fun _ s hs => hs.weaken ?_
  rotate_left
  · split <;> simp [hindexJ, hboundJ, hplain]
  all_goals try simp [J]
  exact { Outlook.Covers.refl _ with
      known := fun _ => List.mem_cons_of_mem _, joins := fun _ hj => by simp [hj] }

/-- The bounds are returned before the body, and the registers of the loop after it. -/
theorem conducts_integerFor {var : SymbolId} (hs : start.IsRegular Λ (scope :: rest))
    (hl : limit.IsRegular Λ (scope :: rest)) (step : Int64)
    (hb : Λ.function.Admits (var :: (scope :: rest).flatten) ∧
      Conducts Λ [var] (scope :: rest) scope' ends contents) :
    Conducts Λ scope rest scope false (integerFor Λ.symbols var start limit step contents) := by
  refine conducts_of_waiting fun K pending hK => ?_
  have hready := (hK.rests pending).ready
  refine leads_one_bind hs hready fun first G₁ h₁ => leads_one_bind hl (hready.gain h₁) fun last G₂ h₂ =>
    leads_allocTemp_bind .int fun index => leads_allocTemp_bind .int fun bound => ?_
  have hall := h₁.trans h₂
  refine Meets.bind (leads_move .integer (hready.of_eq rfl rfl) ?_ ?_ ?_ nofun) fun _ =>
    Meets.bind (leads_move .integer (hready.of_eq rfl rfl) ?_ ?_ ?_ nofun) fun _ => ?_
  · simp
  · exact hall.usable first (by simp)
  · simp
  · simp
  · exact hall.usable last (by simp)
  · simp
  let J := K.gain [.tempInt bound, .tempInt index] [(.int, bound), (.int, index)] .nothing
  have hcalm : J.Calm (scope :: rest) := ⟨hK.locals_eq, hK.open?_eq, hK.loads_eq⟩
  refine Meets.pre (P := Regular Λ (((J.gain [] first.temps .nothing).gain [] last.temps .nothing).waiting
    (some true) pending)) ?_ fun s hs => hs.weaken ?_
  · exact (leads_free last rfl).bind fun _ => (leads_free first rfl).bind fun _ =>
      Meets.post (leads_integerLoop (K := J) step hcalm rfl (by simp [J]) (by simp [J]) hb)
      fun _ s hs => hs.weaken { Outlook.Covers.refl _ with known := fun o ho => by simp [J, ho] }
  · refine { Outlook.Covers.refl _ with
        held := ?_, known := fun o ho => ?_, grants := Grants.nothing_le _ }
    · have hperm := List.perm_append_comm_assoc [(.int, bound), (.int, index)]
        (last.temps ++ first.temps) K.held
      rwa [List.append_assoc, List.append_assoc] at hperm
    · simp only [J, List.nil_append, List.mem_append, List.mem_cons, List.not_mem_nil, or_false] at ho ⊢
      tauto

/-- The loop itself, with its index, its bound and its step in registers that it returns. -/
theorem leads_taggedLoop {var : SymbolId} {index bound stride : Nat} {held : List (TempKind × Nat)}
    (hK : K.Calm L) (hheld : K.held = (.any, stride) :: (.any, bound) :: (.any, index) :: held)
    (hindex : .tempAny index ∈ K.known) (hbound : .tempAny bound ∈ K.known)
    (hstride : .tempAny stride ∈ K.known)
    (hb : Λ.function.Admits (var :: L.flatten) ∧ Conducts Λ [var] L scope' ends contents) :
    Leads (Regular Λ (K.waiting (some true) pending)) (do
      let zero ← intConstant 0
      let testBlock ← newBlock
      let ascending ← newBlock
      let descending ← newBlock
      let body ← newBlock
      let done ← newBlock
      startBlock testBlock
      compare .lt [.tempAny stride, zero] descending ascending
      startBlock ascending
      compare .le [.tempAny index, .tempAny bound] body done
      startBlock descending
      compare .le [.tempAny bound, .tempAny index] body done
      startBlock body
      loopBody Λ.symbols var (.tempAny index) .any contents done
      advance .add (.tempAny index) (.tempAny stride) testBlock
      startBlock done
      free (.tempAny stride)
      free (.tempAny bound)
      free (.tempAny index)) fun _ => Regular Λ { K.waiting (some true) pending with held } := by
  refine leads_constant_bind _ fun k => leads_newBlock_bind (Grants.nothing_le _) fun testBlock =>
    leads_newBlock_bind (Grants.nothing_le _) fun ascending =>
    leads_newBlock_bind (Grants.nothing_le _) fun descending =>
    leads_newBlock_bind (Grants.nothing_le _) fun body =>
    leads_newBlock_bind (Grants.nothing_le _) fun done => ?_
  let J := (K.gain [.constant k] [] .nothing).join [done, body, descending, ascending, testBlock]
  have hcalm : J.Calm L := ⟨hK.locals_eq, hK.open?_eq, hK.loads_eq⟩
  have hplain (r : Nat) : (Operand.tempAny r).IsPlain := ⟨rfl, rfl, rfl⟩
  have hknown (o : Operand) (ho : o ∈ K.known) : o ∈ J.known := List.mem_cons_of_mem _ ho
  have hops {r q : Nat} (hr : .tempAny r ∈ K.known) (hq : .tempAny q ∈ K.known) :
      ∀ o ∈ [Operand.tempAny r, .tempAny q], o ∈ J.known ∧ o.IsPlain :=
    List.forall_mem_cons.mpr
      ⟨⟨hknown _ hr, hplain r⟩, List.forall_mem_singleton.mpr ⟨hknown _ hq, hplain q⟩⟩
  refine Meets.pre (P := Regular Λ (J.waiting (some true)
    (done :: body :: descending :: ascending :: testBlock :: pending))) ?_ fun s hs => hs
  refine (leads_enter hcalm.open?_eq (@List.perm_middle _ testBlock
      [done, body, descending, ascending] _) ?_).bind fun _ =>
    (leads_compare (by decide) hcalm.open?_eq ?_ ?_ ?_).bind fun _ =>
    (leads_enter hcalm.open?_eq (@List.perm_middle _ ascending [done, body, descending] _) ?_).bind fun _ =>
    (leads_compare (by decide) hcalm.open?_eq (hops hindex hbound) ?_ ?_).bind fun _ =>
    (leads_enter hcalm.open?_eq (@List.perm_middle _ descending [done, body] _) ?_).bind fun _ =>
    (leads_compare (by decide) hcalm.open?_eq (hops hbound hindex) ?_ ?_).bind fun _ =>
    (leads_enter hcalm.open?_eq (.swap _ _ _) ?_).bind fun _ =>
    (leads_loopBody .any hcalm (hknown _ hindex) (hplain index) ?_ hb).bind fun _ =>
    (leads_advance (by decide) hcalm.open?_eq ⟨hknown _ hindex, hplain index⟩ nofun
      ⟨hknown _ hstride, hplain stride⟩ ?_).bind fun _ =>
    (leads_enter hcalm.open?_eq (.refl _) ?_).bind fun _ => (leads_free _ hheld).bind fun _ =>
    (leads_free _ rfl).bind fun _ => (leads_free _ rfl).post fun _ s hs => hs.weaken ?_
  rotate_left
  · refine List.forall_mem_cons.mpr ⟨⟨hknown _ hstride, hplain stride⟩, ?_⟩
    exact List.forall_mem_singleton.mpr ⟨List.mem_cons_self, rfl, rfl, rfl⟩
  all_goals try simp [J]
  exact { Outlook.Covers.refl _ with
      known := fun _ => List.mem_cons_of_mem _, joins := fun _ hj => by simp [hj] }

theorem conducts_taggedFor {var : SymbolId} (hs : start.IsRegular Λ (scope :: rest))
    (hl : limit.IsRegular Λ (scope :: rest)) {step : Option Part}
    (hp : ∀ part ∈ step, part.IsRegular Λ (scope :: rest))
    (hb : Λ.function.Admits (var :: (scope :: rest).flatten) ∧
      Conducts Λ [var] (scope :: rest) scope' ends contents) :
    Conducts Λ scope rest scope false (taggedFor Λ.symbols var start limit step contents) := by
  refine conducts_of_waiting fun K pending hK => ?_
  have hready := (hK.rests pending).ready
  refine leads_one_bind hs hready fun first G₁ h₁ => leads_one_bind hl (hready.gain h₁)
    fun last G₂ h₂ => ?_
  extract_lets loop
  have hloop (r : Operand × TypeTag) {G₃ : Grants}
      (h₃ : (((K.waiting (some true) pending).gain [first] first.temps G₁).gain [last] last.temps
        G₂).Gained [r.1] r.1.temps G₃) :
      Leads (Regular Λ ((((K.waiting (some true) pending).gain [first] first.temps G₁).gain [last]
        last.temps G₂).gain [r.1] r.1.temps G₃)) (loop r) fun _ =>
          Regular Λ (K.waiting (some true) pending) := by
    obtain ⟨increment, tag⟩ := r
    have hall := (h₁.trans h₂).trans ⟨h₃.le, h₃.usable, h₃.anchored⟩
    refine leads_allocTemp_bind .any fun index => leads_allocTemp_bind .any fun bound =>
      leads_allocTemp_bind .any fun stride =>
      Meets.bind (leads_move _ (hready.of_eq rfl rfl) ?_ ?_ ?_ nofun) fun _ =>
      Meets.bind (leads_move _ (hready.of_eq rfl rfl) ?_ ?_ ?_ nofun) fun _ =>
      Meets.bind (leads_move _ (hready.of_eq rfl rfl) ?_ ?_ ?_ nofun) fun _ => ?_
    · simp
    · exact hall.usable first (by simp)
    · simp
    · simp
    · exact hall.usable last (by simp)
    · simp
    · simp
    · exact hall.usable increment (by simp)
    · simp
    let J := K.gain [.tempAny stride, .tempAny bound, .tempAny index]
      [(.any, stride), (.any, bound), (.any, index)] .nothing
    have hcalm : J.Calm (scope :: rest) := ⟨hK.locals_eq, hK.open?_eq, hK.loads_eq⟩
    refine Meets.pre (P := Regular Λ ((((J.gain [] first.temps .nothing).gain [] last.temps
      .nothing).gain [] increment.temps .nothing).waiting (some true) pending)) ?_
      fun s hs => hs.weaken ?_
    · exact (leads_free increment rfl).bind fun _ => (leads_free last rfl).bind fun _ =>
        (leads_free first rfl).bind fun _ =>
        Meets.post (leads_taggedLoop (K := J) hcalm rfl (by simp [J]) (by simp [J]) (by simp [J]) hb)
        fun _ s hs => hs.weaken { Outlook.Covers.refl _ with known := fun o ho => by simp [J, ho] }
    · refine { Outlook.Covers.refl _ with
          held := ?_, known := fun o ho => ?_, grants := Grants.nothing_le _ }
      · have hperm := List.perm_append_comm_assoc [(.any, stride), (.any, bound), (.any, index)]
          (increment.temps ++ (last.temps ++ first.temps)) K.held
        simp only [List.append_assoc] at hperm
        exact hperm
      · simp only [J, List.nil_append, List.mem_append, List.mem_cons, List.not_mem_nil, or_false] at ho ⊢
        tauto
  cases step with
  | some part =>
    exact leads_one_bind (hp part rfl) ((hready.gain h₁).gain h₂) fun o G₃ h₃ =>
      hloop (o, part.ty.tag) h₃
  | none => exact leads_constant_bind _ fun k => hloop (.constant k, .integer) (.plain ⟨rfl, rfl, rfl⟩ _)

theorem conducts_numericFor {var : SymbolId} (hs : start.IsRegular Λ (scope :: rest))
    (hl : limit.IsRegular Λ (scope :: rest)) {step : Option Part}
    (hp : ∀ part ∈ step, part.IsRegular Λ (scope :: rest)) (constant : Option Int64)
    (hb : Λ.function.Admits (var :: (scope :: rest).flatten) ∧
      Conducts Λ [var] (scope :: rest) scope' ends contents) :
    Conducts Λ scope rest scope false
      (numericFor Λ.symbols var start limit step constant contents) := by
  unfold numericFor
  split
  · split
    · exact conducts_integerFor hs hl _ hb
    · exact conducts_taggedFor hs hl hp hb
  · exact conducts_taggedFor hs hl hp hb

end Loops

end Lower

end ScriptC
