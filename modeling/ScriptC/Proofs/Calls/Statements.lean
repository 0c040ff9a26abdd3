import Mathlib.Data.List.Forall2
import ScriptC.Proofs.Blocks.Statements
import ScriptC.Proofs.Calls.Expressions

/-! # Use of temporaries by statements

Each form of statement follows its use and keeps the block discipline if its parts do. A statement
starts in an open block, since a block that has ended takes no more statements. One that creates
blocks starts each of them once, the one after the statement last.
-/

namespace ScriptC.Lower

variable {α β γ : Type} {part object key cond start limit : Part} {exprs : List Part}
  {d dobject dkey dcond dstart dlimit : Usage.Value} {dexprs : List Usage.Value} {s : LoweringState}

section Values

/-- What a list of values owns is what its use returns, and the same values are copied. -/
def Listed (l : ValueList) (u : List (Option Nat) × List (Option TempKind))
    (_ : LoweringState) : Prop :=
  l.owned.map Operand.generic? = u.1 ∧ l.values.map copyOf = u.2

theorem Listed.append {l l' : ValueList} {u u' : List (Option Nat) × List (Option TempKind)}
    {s' : LoweringState} (h : Listed l u s) (h' : Listed l' u' s') :
    Listed (l ++ l') (u.1 ++ u'.1, u.2 ++ u'.2) s' := by
  constructor
  · rw [← h.1, ← h'.1]
    exact List.map_append
  · rw [← h.2, ← h'.2]
    exact List.map_append

/-- The tag of a variable is the declared one. -/
theorem silent_valueTag (o : Operand) (declared : TypeTag) : Silent (valueTag o declared)
    fun tag _ => copyOf (o, tag) = copyOf (o, declared) := by
  unfold valueTag
  split <;> try exact silent_pure fun _ => rfl
  intro s
  simp only [TracksFrom, Records, ends_bind, ends_get]
  split <;> exact ⟨rfl, rfl, fun _ => id, rfl⟩

theorem tracks_single {ty : Ty} {o : Operand} {held : Option Nat} {copy : Option TempKind}
    (ho : o.generic? = held) (hd : copyOf (o, ty.tag) = copy) :
    TracksFrom s (do return ⟨[(o, ← valueTag o ty.tag)], [o]⟩)
      (pure ([held], [copy])) Listed :=
  (silent_valueTag o ty.tag).bind fun tag _ htag => tracks_pure ⟨by simp [ho], by simp [htag, hd]⟩

theorem tracks_spread {call : Nat} (h : OpcodeAt call .call s.fn.proc.instrs) (base count : Nat) :
    TracksFrom s (spread call base count) (do
      let beyond := List.range' (base + 1) (count - 1)
      Usage.each (beyond.map Usage.claim)
      return (some base :: beyond.map some, List.replicate count none)) Listed := by
  refine (tracks_setExpected h _).before fun _ s₁ _ => ?_
  refine (tracks_forM (fun r s _ => tracks_claim r s) trivial).bind
    fun _ _ s₂ _ => tracks_pure ⟨?_, ?_⟩
  · rw [List.map_cons, List.map_map]
    rfl
  · simp [Function.comp_def, copyOf, Operand.isVariable, List.map_const']

theorem tracks_contribution (wanted : Nat) (isLast : Bool) {ty : Ty} {v : Value}
    {held : Option Nat} (h : v.Denotes ty d s held) :
    TracksFrom s (contribution wanted isLast ty.tag v)
      (Usage.contribution wanted isLast d held) Listed := by
  unfold contribution Usage.contribution
  split
  · cases h with
    | results hi =>
      exact (tracks_setExpected hi _).before fun _ _ _ => tracks_pure ⟨rfl, rfl⟩
    | operand _ _ _ ho => exact tracks_pure ⟨congrArg (fun r => [r]) ho.1, rfl⟩
  · cases h with
    | results hi hc _ hd =>
      rw [hc, hd]
      dsimp only
      split <;> rename_i hlast
      · rw [if_pos (by simpa using hlast)]
        exact tracks_spread hi _ _
      · rw [if_neg (by simpa using hlast)]
        simp only [single, bind_assoc, pure_bind]
        exact (tracks_setExpected hi _).before fun _ s₁ _ => tracks_single rfl rfl
    | operand hc _ hd ho =>
      rw [hc]
      exact tracks_single ho.1 hd

theorem tracks_values (wanted : Nat) (h : List.Forall₂ Part.Follows exprs dexprs) :
    Tracks (values wanted exprs) (Usage.values wanted dexprs) Listed := by
  induction h generalizing wanted with
  | nil => exact fun _ => tracks_pure ⟨rfl, rfl⟩
  | @cons part d rest ds hp hrest ih =>
    intro s
    have hempty : rest.isEmpty = ds.isEmpty := by cases hrest <;> rfl
    refine (hp s).bind fun v held s₁ hv => ?_
    rw [hempty]
    exact (tracks_contribution wanted ds.isEmpty hv).bind fun head _ s₂ hh =>
      (ih (wanted - 1) s₂).bind fun tail _ s₃ ht => tracks_pure (hh.append ht)

end Values

section Declarations

variable (symbols : SymbolTable)

theorem silent_mapM {xs : List γ} {g : γ → Lower α} {P : α → Prop}
    (h : ∀ a, Silent (g a) fun b _ => P b) : Silent (xs.mapM g) fun bs _ => ∀ b ∈ bs, P b := by
  induction xs with
  | nil => exact silent_pure fun _ => List.forall_mem_nil _
  | cons a xs ih =>
    rw [List.mapM_cons]
    exact fun _ => (h a).bind fun _ _ hb => ih.bind fun _ _ hbs =>
      tracks_pure (List.forall_mem_cons.mpr ⟨hb, hbs⟩)

theorem silent_defaultValue (dest : Operand) : Silent (defaultValue dest) fun _ _ => True := by
  unfold defaultValue
  split
  · exact (silent_constant _).seq fun _ => silent_pure fun _ => trivial
  · exact (silent_constant _).seq fun _ => silent_pure fun _ => trivial
  · exact silent_pure fun _ => trivial

theorem silent_initialise {locals : List Operand} (h : ∀ o ∈ locals, o.IsData)
    (vs : List (Operand × TypeTag)) : Silent (initialise locals vs) fun _ _ => True := by
  induction locals generalizing vs with
  | nil => cases vs <;> exact silent_pure fun _ => trivial
  | cons dest rest ih =>
    obtain ⟨hd, hr⟩ := List.forall_mem_cons.mp h
    cases vs with
    | nil =>
      exact (silent_defaultValue dest).seq fun v => (silent_move v.1 v.2 hd).seq fun _ => ih hr []
    | cons v vs => exact (silent_move v.1 v.2 hd).seq fun _ => ih hr vs

theorem tracks_declare (vars : List SymbolId) (h : List.Forall₂ Part.Follows exprs dexprs) :
    Tracks (declare symbols vars exprs) (Usage.declare vars.length dexprs)
      fun _ _ _ => True := by
  refine fun s => (tracks_values _ h s).bind fun list _ s₁ hl =>
    (silent_mapM (silent_declareLocal symbols)).bind fun locals s₂ hlocals =>
      (silent_initialise hlocals list.values).bind fun _ s₃ _ => ?_
  rw [← hl.1]
  exact (tracks_freeAll _ s₃).mono fun _ _ _ _ => trivial

theorem tracks_declareFunction (var : SymbolId) {func : Lower Nat} {u : Usage Unit}
    (h : Tracks func u fun _ _ _ => True) :
    Tracks (declareFunction symbols var func) (Usage.eval (Usage.closure u))
      fun _ _ _ => True := fun _ =>
  (silent_declareLocal symbols var).bind fun _ s₁ hd => (tracks_closure h s₁).bind
    fun _ _ s₂ ht => (tracks_drop ht.2 s₂).andThen fun _ _ s₃ _ => silent_move _ _ hd s₃

end Declarations

section Simple

theorem tracks_eval (h : part.Follows d) :
    Tracks (eval part) (Usage.eval d.use) fun _ _ _ => True := by
  refine fun s => (h s).bind fun v held s₁ hv => ?_
  cases hv with
  | results hi =>
    exact (tracks_setExpected hi _).before fun _ s₂ _ => (tracks_free _ s₂).mono fun _ _ _ _ => trivial
  | operand _ _ _ ho => exact tracks_drop ho s₁

theorem tracks_results (h : List.Forall₂ Part.Follows exprs dexprs) :
    Tracks (results exprs) (Usage.collect (dexprs.map (·.use)))
      fun os regs _ => os.map Operand.generic? = regs := by
  induction h with
  | nil => exact fun _ => tracks_pure rfl
  | cons hp hrest ih =>
    intro s
    cases hrest with
    | nil =>
      exact (hp s).bind fun v _ _ hv => tracks_pure (congrArg (fun r => [r]) hv.generic)
    | cons hq hrest =>
      refine (tracks_one hp s).bind fun o _ s₁ ho => (ih s₁).bind fun os _ s₂ hs => tracks_pure ?_
      rw [List.map_cons, ho.1.1, hs]

end Simple

section Assignments

variable (symbols : SymbolTable)

/-- What a target returns in the end. A variable that is written is no block. -/
def Target.Holds : Target → List (Option Nat) → Prop
  | .variable dest, regs => regs = [none] ∧ dest.IsData
  | .element _ result held, regs => regs = held.map Operand.generic? ++ [result.generic?]

theorem generic?_of_isVariable {o : Operand} (h : o.isVariable = true) : o.generic? = none := by
  cases o <;> first | rfl | cases h

theorem isData_of_isVariable {o : Operand} (h : o.isVariable = true) : o.IsData := by
  rintro b rfl
  cases h

theorem tracks_symbolTarget (id : SymbolId) : Tracks (symbolTarget symbols id) (do
    return [← symbolUsage symbols id]) fun t regs _ => t.Holds regs := by
  refine fun s => (silent_symbol symbols id).bind fun sym s₁ hsym => ?_
  have hglobal : isGlobal symbols id = decide (sym.kind = .global) := by simp [isGlobal, hsym]
  split <;> rename_i hkind
  · simp only [symbolUsage, hglobal, hkind, decide_true, if_true]
    exact (tracks_loadGlobal _ s₁).bind fun o _ _ ho => tracks_pure (by simp [Target.Holds, ho.2.1])
  · refine (tracks_readSymbol symbols id s₁).bind fun o held _ h => tracks_pure ?_
    obtain ⟨ho, hv⟩ := h
    rw [hglobal, decide_eq_false hkind, if_neg (by simp)] at hv
    exact ⟨by rw [← ho.1, generic?_of_isVariable hv], isData_of_isVariable hv⟩

theorem tracks_indexTarget (ho : object.Follows dobject) (hk : key.Follows dkey) :
    Tracks (indexTarget object key) (Usage.element dobject.use dkey.use
      (Selection.load object.ty dkey.key).result) fun t regs _ => t.Holds regs := by
  refine fun s => (tracks_one ho s).bind fun container _ s₁ h₁ => (tracks_one hk s₁).bind
    fun k _ s₂ h₂ => tracks_keyClass ?_
  rw [h₂.2]
  refine (tracks_holdAs _ s₂).bind fun result _ s₃ h₃ =>
    (silent_emitId (Selection.load_isStraight _ _)
      (List.forall_mem_singleton.mpr (isData_of_isTemp h₃.1))).bind fun _ _ _ => tracks_pure ?_
  simp [Target.Holds, h₁.1.1, h₂.1.1, h₃.2.1]

theorem records_relocate (i b : Nat) :
    Records s (tryProc fun p => return (← p.relocate i b, ())) (pure ()) fun _ _ _ => True := by
  rw [Records, ends_tryProc]
  cases hr : s.fn.proc.relocate i b with
  | error e => exact ⟨[], List.nil_prefix, rfl⟩
  | ok q =>
    obtain ⟨-, -, -, -, -, hp, -⟩ := Proc.relocate_ok hr
    exact ⟨congrFun hp .any, rfl, trivial⟩

theorem silent_turnIntoStore (load : Nat) (value : Operand) :
    Silent (turnIntoStore load value) fun _ _ => True := by
  refine (keeps_turnIntoStore load value).tracks fun s => ?_
  unfold Records
  rw [← anys_opened]
  simp only [turnIntoStore, ends_bind, ends_ensureOpen, ends_get]
  split
  · split
    · simp only [ends_bind, ends_onProc]
      exact records_relocate load _
    · exact ⟨[], List.nil_prefix, rfl⟩
  · exact ⟨[], List.nil_prefix, rfl⟩

/-- All targets are written, the last first. -/
theorem silent_writeAll {ts : List Target} {rs : List (List (Option Nat))}
    (h : List.Forall₂ Target.Holds ts rs) (vs : List (Operand × TypeTag)) :
    Silent (writeAll ts vs) fun _ _ => True := by
  induction h generalizing vs with
  | nil => exact silent_pure fun _ => trivial
  | @cons t _ _ _ ht _ ih =>
    refine (ih vs.tail).seq fun _ => ?_
    cases t with
    | «variable» dest => exact silent_move _ _ ht.2
    | element load => exact silent_turnIntoStore load _

theorem snapshot_of_isVariable {value : Operand} (tag : TypeTag) (h : value.isVariable = true) :
    snapshot (value, tag) = do
      let copy ← allocTemp (copyKind tag)
      move value tag copy
      return ⟨[(copy, tag)], [copy]⟩ := by
  unfold Operand.isVariable at h
  split at h
  · rfl
  · rfl
  · cases h

theorem snapshot_of_not_isVariable {value : Operand} (tag : TypeTag)
    (h : value.isVariable = false) : snapshot (value, tag) = pure ⟨[(value, tag)], []⟩ := by
  unfold snapshot
  dsimp only
  split
  · cases h
  · cases h
  · rfl

theorem tracks_snapshots (entries : List (Operand × TypeTag)) :
    Tracks (snapshots entries) (Usage.copies (entries.map copyOf))
      fun l regs _ => l.owned.map Operand.generic? = regs := by
  induction entries with
  | nil => exact fun _ => tracks_pure rfl
  | cons entry rest ih =>
    obtain ⟨value, tag⟩ := entry
    intro s
    cases hv : value.isVariable with
    | true =>
      rw [List.map_cons, copyOf, if_pos hv, snapshots, snapshot_of_isVariable tag hv, Usage.copies]
      simp only [bind_assoc, pure_bind]
      refine (tracks_holdAs _ s).bind fun copy _ s₁ hc =>
        (silent_move _ _ (isData_of_isTemp hc.1)).bind fun _ s₂ _ =>
        (ih s₂).bind fun tail _ _ ht => tracks_pure ?_
      rw [← hc.2.1, ← ht]
      rfl
    | false =>
      rw [List.map_cons, copyOf, if_neg (by simp [hv]), snapshots,
        snapshot_of_not_isVariable tag hv, pure_bind]
      exact (ih s).andThen fun tail _ _ ht => tracks_pure ht

theorem tracks_releaseTarget {t : Target} {regs : List (Option Nat)} (h : t.Holds regs) :
    Tracks (releaseTarget t) (Usage.dropAll regs) fun _ _ _ => True := by
  cases t with
  | «variable» dest =>
    rw [h.1]
    exact fun _ => tracks_pure trivial
  | element load result held =>
    rw [h, Usage.dropAll, List.reverse_append]
    exact fun s => (tracks_free result s).bind fun _ _ s₁ _ =>
      (tracks_freeAll held s₁).mono fun _ _ _ _ => trivial

theorem tracks_mapM {xs : List (Lower α)} {us : List (Usage β)} {R : α → β → Prop}
    (h : List.Forall₂ (fun x u => Tracks x u fun a b _ => R a b) xs us) :
    Tracks (xs.mapM id) (Usage.collect us)
      fun as bs _ => List.Forall₂ R as bs ∧ as.length = us.length := by
  induction h with
  | nil => exact fun _ => tracks_pure ⟨.nil, rfl⟩
  | cons hx _ ih =>
    rw [List.mapM_cons]
    exact fun s => (hx s).bind fun _ _ s₁ ha => (ih s₁).bind fun _ _ _ hs =>
      tracks_pure ⟨.cons ha hs.1, congrArg (· + 1) hs.2⟩

theorem tracks_releaseTargets {ts : List Target} {rs : List (List (Option Nat))}
    (h : List.Forall₂ Target.Holds ts rs) :
    Tracks (ts.forM releaseTarget) (Usage.each (rs.map Usage.dropAll)) fun _ _ _ => True := by
  induction h with
  | nil => exact fun _ => tracks_pure trivial
  | cons ht _ ih => exact fun s => (tracks_releaseTarget ht s).bind fun _ _ s₁ _ => ih s₁

theorem tracks_assign {targets : List (Lower Target)} {us : List (Usage (List (Option Nat)))}
    (ht : List.Forall₂ (fun t u => Tracks t u fun t regs _ => t.Holds regs) targets us)
    (h : List.Forall₂ Part.Follows exprs dexprs) :
    Tracks (assign targets exprs) (Usage.assign us dexprs) fun _ _ _ => True := by
  refine fun s => (tracks_mapM ht s).bind fun ts rs s₁ ⟨hts, hlength⟩ => ?_
  rw [hlength]
  refine (tracks_values _ h s₁).bind fun list u s₂ hl => ?_
  extract_lets finish release
  have hfinish : ∀ l more s, l.owned.map Operand.generic? = u.1 ++ more →
      TracksFrom s (finish l) (release more) fun _ _ _ => True := by
    intro l more s hs
    refine (silent_writeAll hts l.values).bind fun _ s₁ _ => ?_
    simp only [release, ← hs]
    exact (tracks_freeAll _ s₁).bind fun _ _ s₂ _ =>
      tracks_releaseTargets (List.forall₂_reverse_iff.mpr hts) s₂
  split
  · have hsnap := tracks_snapshots list.values s₂
    rw [hl.2] at hsnap
    exact hsnap.bind fun copies more s₃ hc => hfinish _ more s₃ (by simp [hl.1, hc])
  · exact hfinish _ [] s₂ (by simp [hl.1])

end Assignments

section Settings

variable {δ : Type} {Γ Δ Θ : Setting} {x : Lower α} {f : α → Lower β} {u : Usage γ} {v : Usage δ}
  {g : γ → Usage δ} {P : α → LoweringState → Prop} {R : α → γ → LoweringState → Prop}

/-- From the one setting the action follows the use and ends in the other. -/
def Plays (Γ Δ : Setting) (x : Lower α) (u : Usage β) : Prop :=
  ∀ ⦃s : LoweringState⦄, s.Within Γ → Records s x u fun _ _ s' => s'.Within Δ

theorem Records.and {Q : α → LoweringState → Prop} (h : Records s x u R)
    (h' : Ends x s Q fun _ _ => True) : Records s x u fun a c s' => R a c s' ∧ Q a s' :=
  (Ends.and h h').mono (fun _ _ h => ⟨h.1.1, h.1.2.1, h.1.2.2, h.2⟩) fun _ _ h => h.1

theorem Tracks.plays (h : Tracks x u R) : Plays Γ Γ x u := fun s hs =>
  Records.mono (h s) fun _ _ _ h' => h'.1 Γ hs

theorem Turns.plays (ht : Turns Γ Δ x) (h : ∀ s, Records s x (pure ()) fun _ _ _ => True) :
    Plays Γ Δ x (pure ()) := fun s hs =>
  ((h s).and (ht hs)).mono fun _ _ _ h' => h'.2

theorem Plays.bind (hx : Plays Γ Δ x u) (hf : ∀ a, Plays Δ Θ (f a) v) :
    Plays Γ Θ (x >>= f) (do let _ ← u; v) := fun _ hs =>
  (hx hs).bind fun a _ _ h => hf a h

theorem Plays.before (hx : Plays Γ Δ x (pure ())) (hf : ∀ a, Plays Δ Θ (f a) u) :
    Plays Γ Θ (x >>= f) u := fun _ hs =>
  (hx hs).before fun a _ h => hf a h

theorem Plays.andThen {u : Usage Unit} (hx : Plays Γ Δ x u)
    (hf : ∀ a, Plays Δ Θ (f a) (pure ())) : Plays Γ Θ (x >>= f) u := fun _ hs =>
  Records.congr (hx.bind hf hs) (by rw [bind_pure_unit])

theorem Tracks.plays_bind (hx : Tracks x u R)
    (hf : ∀ a c s', R a c s' → Plays Γ Δ (f a) (g c)) : Plays Γ Δ (x >>= f) (u >>= g) :=
  fun s hs => Records.bind (hx s) fun a c s' h => hf a c s' h.2 (h.1 Γ hs)

theorem Silent.plays_bind (hx : Silent x P) (hf : ∀ a s', P a s' → Plays Γ Δ (f a) u) :
    Plays Γ Δ (x >>= f) u := fun s hs =>
  Records.before (hx s) fun a s' h => hf a s' h.2 (h.1 Γ hs)

end Settings

section Endings

variable {ends : Bool} {x : Lower Unit} {u : Usage Unit} {R : Unit → Unit → LoweringState → Prop}

/-- From an open block, the statement follows the use and ends the block exactly if `ends`. -/
def Lays (ends : Bool) (x : Lower Unit) (u : Usage Unit) : Prop :=
  ∀ ⦃Γ : Setting⦄ ⦃s : LoweringState⦄, Γ.isOpen = true → s.Within Γ →
    Records s x u fun _ _ s' => s'.Within (Γ.waiting (!ends) Γ.pending Γ.size) ∧
      (ends = true → s'.fn.proc.IsSealed s'.fn.block)

/-- The statement can stand in any open block, and follows the use there. -/
def Fits (x : Lower Unit) (u : Usage Unit) : Prop :=
  ∀ (Γ : Setting) (pending : List Nat) (n : Nat),
    Plays (Γ.waiting true pending n) (Γ.waiting false pending n) x u

theorem Tracks.lays (h : Tracks x u R) : Lays false x u := fun Γ s ho hs =>
  Records.mono (h s) fun _ _ _ h' =>
    ⟨(h'.1 Γ hs).waiting fun _ => (h'.1 Γ hs).opened ho, nofun⟩

/-- A statement that is made of blocks. -/
theorem lays_of_plays (h : ∀ Γ : Setting, (∀ e ∈ Γ.exits, e < Γ.size) →
    Plays (Γ.waiting true Γ.pending Γ.size) Γ x u) : Lays false x u := fun Γ _ ho hs =>
  (h Γ hs.exits_lt (hs.waiting fun _ => hs.opened ho)).mono fun _ _ _ h' =>
    ⟨h'.waiting fun _ => h'.opened ho, nofun⟩

theorem Lays.fits (h : Lays ends x u) : Fits x u := fun _ _ _ _ hs =>
  (h rfl hs).mono fun _ _ _ h' => { h'.1 with opened := nofun }

theorem lays_inScope (h : Lays ends x u) : Lays ends (inScope x) u := by
  intro Γ s ho hs
  refine Records.before (silent_openScope s) fun _ s₁ h₁ => ?_
  have hclose : Records s₁ (do x; closeScope) (do u; pure ()) fun _ _ s' =>
      s'.Within (Γ.waiting (!ends) Γ.pending Γ.size) ∧
        (ends = true → s'.fn.proc.IsSealed s'.fn.block) :=
    (h ho (h₁.1 Γ hs)).bind fun _ _ s₂ h₂ => Records.mono (Records.and (silent_closeScope s₂)
      (yields_closeScope (fun blocks instrs b => ends = true →
        Proc.IsSealed { id := 0, parent := none, blocks, instrs } b) h₂.1 h₂.2))
      fun _ _ _ h₃ => h₃.2
  exact hclose.congr (by rw [bind_pure_unit])

theorem lays_ret (h : List.Forall₂ Part.Follows exprs dexprs) :
    Lays true (ret exprs) (Usage.ret (dexprs.map (·.use))) := by
  intro Γ s ho hs
  refine Records.bind (tracks_results h s) fun os _ s₁ h₁ => ?_
  have ht : Instr.TargetsWithin s₁.fn.proc.blocks.size ⟨.ret, os, [.block exitBlock], 0⟩ := rfl
  refine ((records_emit (by decide)).and (ends_emit_terminator (h₁.1 Γ hs) rfl ht)).before
    fun _ s₂ h₂ => ?_
  rw [← h₁.2]
  exact (Records.and (tracks_freeAll os s₂) (yields_freeAll (fun blocks instrs b =>
    Proc.IsSealed { id := 0, parent := none, blocks, instrs } b) os h₂.2.1 h₂.2.2)).mono
    fun _ _ _ h₃ => ⟨h₃.2.1, fun _ => h₃.2.2⟩

theorem lays_leave : Lays true leave (pure ()) := by
  intro Γ s _ h
  simp only [Records, leave, ends_bind, ends_get]
  split
  · rename_i exit rest hexits
    have hexit : exit < s.fn.proc.blocks.size :=
      Nat.lt_of_lt_of_le (h.exits_lt exit (by simp [← h.exits_eq, hexits])) h.size_le
    exact Ends.imp ((records_emit (by decide)).and (ends_emit_terminator h rfl
      (targetsWithin_br hexit))) (fun _ _ h' => ⟨h'.1, h'.2.1, h'.2.2.2.1, fun _ => h'.2.2.2.2⟩)
  · exact ⟨[], List.nil_prefix, rfl⟩

/-- A sequence ends the block if one of its statements does; what follows that one is dropped. -/
theorem lays_sequence {stmts : List (Bool × Lower Unit × Usage Unit)}
    (h : ∀ p ∈ stmts, Lays p.1 p.2.1 p.2.2) :
    Lays (stmts.any (·.1)) (sequence (stmts.map (·.2.1)))
      (Usage.sequence (stmts.map fun p => (p.1, p.2.2))) := by
  induction stmts with
  | nil => exact (silent_pure fun _ => trivial : Silent _ fun _ _ => True).lays
  | cons p rest ih =>
    obtain ⟨hp, hr⟩ := List.forall_mem_cons.mp h
    intro Γ s ho hs
    have ht := (hs.opened ho).isTerminated
    have hseq : Records s (do p.2.1; sequence (rest.map (·.2.1)))
        (Usage.sequence ((p :: rest).map fun p => (p.1, p.2.2))) fun _ _ s' =>
          s'.Within (Γ.waiting (!(p :: rest).any (·.1)) Γ.pending Γ.size) ∧
            ((p :: rest).any (·.1) = true → s'.fn.proc.IsSealed s'.fn.block) := by
      refine (hp ho hs).bind fun _ _ s₁ ⟨hw, hsealed⟩ => ?_
      cases he : p.1 with
      | false =>
        rw [he] at hw
        rw [List.any_cons, he, Bool.false_or]
        have hrest := ih hr rfl hw
        exact hrest
      | true =>
        rw [he] at hw
        rw [List.any_cons, he, Bool.true_or]
        exact (ends_sequence_of_terminated (hsealed he).isTerminated).mpr
          ⟨rfl, rfl, hw, fun _ => hsealed he⟩
    simp only [Records, List.map_cons, sequence, ends_bind, ends_isTerminated, ht] at hseq ⊢
    rwa [if_neg (by simp), ends_bind]

end Endings

section Branches

variable {Γ Δ : Setting} {contents : Lower Unit} {u : Usage Unit} {o o' : Bool} {a b c n : Nat}
  {pending rest : List Nat}

theorem plays_startBlock (hp : pending.Perm (b :: rest)) :
    Plays (Γ.waiting o pending n) (Γ.waiting true rest n) (startBlock b) (pure ()) :=
  (turns_startBlock hp).plays fun _ => records_startBlock b

theorem plays_startLast (hn : Γ.size ≤ n) (he : ∀ e ∈ Γ.exits, e < Γ.size) :
    Plays (Γ.waiting o (b :: Γ.pending) n) Γ (startBlock b) (pure ()) :=
  (turns_startLast hn he).plays fun _ => records_startBlock b

theorem plays_cbr {operands : List Operand} (ha : a < n) (hb : b < n) :
    Plays (Γ.waiting o pending n) (Γ.waiting false pending n)
      (emit .cbr operands [.block a, .block b]) (pure ()) :=
  (turns_cbr ha hb).plays fun _ => records_emit (by decide)

theorem plays_branchTo (hb : b < n) :
    Plays (Γ.waiting o pending n) (Γ.waiting false pending n) (branchTo b) (pure ()) :=
  (turns_branchTo hb).plays fun _ => records_branchTo b

theorem plays_inScope (h : Plays Γ Δ contents u) : Plays Γ Δ (inScope contents) u :=
  silent_openScope.plays_bind fun _ _ _ => h.andThen fun _ => silent_closeScope.plays

theorem plays_withExit
    (h : ∀ Γ : Setting, Plays (Γ.waiting o pending n) (Γ.waiting o' pending n) contents u)
    (hb : b < n) :
    Plays (Γ.waiting o pending n) (Γ.waiting o' pending n) (withExit b contents) u := by
  intro s hs
  simp only [Records, withExit, ends_bind, ends_modifyFn]
  refine Ends.imp (h _ (within_exit hs hb)) fun _ s' hw => ⟨hw.1, hw.2.1, ?_⟩
  exact { hw.2.2 with exits_eq := congrArg List.tail hw.2.2.exits_eq, exits_lt := hs.exits_lt }

theorem plays_newBlock {f : Nat → Lower Unit}
    (h : ∀ b, n ≤ b → Plays (Γ.waiting o (b :: pending) (b + 1)) Δ (f b) u) :
    Plays (Γ.waiting o pending n) Δ (newBlock >>= f) u := by
  intro s hs
  simp only [Records, ends_bind, ends_newBlock]
  exact h _ hs.size_le (within_newBlock hs)

theorem plays_of_perm {x : Lower Unit} (hp : pending.Perm rest)
    (h : Plays (Γ.waiting o rest n) Δ x u) : Plays (Γ.waiting o pending n) Δ x u := fun _ hs =>
  h { hs with laid := hs.laid.of_perm hp }

theorem plays_newBlocks {k : Nat} {f : List Nat → Lower Unit}
    (h : ∀ bs m, bs.length = k → n ≤ m → (∀ b ∈ bs, b < m) →
      Plays (Γ.waiting o (bs ++ pending) m) Δ (f bs) u) :
    Plays (Γ.waiting o pending n) Δ (newBlocks k >>= f) u := by
  induction k generalizing n pending f with
  | zero => exact h [] n rfl (Nat.le_refl _) (by simp)
  | succ k ih =>
    simp only [Lower.newBlocks, bind_assoc, pure_bind]
    refine plays_newBlock fun b hb => ih fun bs m hk hm hbs => ?_
    refine plays_of_perm List.perm_middle (h (b :: bs) m (by simp [hk]) (by omega) ?_)
    exact List.forall_mem_cons.mpr ⟨hm, hbs⟩

theorem plays_test (h : cond.Follows dcond) (ha : a < n) (hb : b < n) :
    Plays (Γ.waiting o pending n) (Γ.waiting false pending n) (test cond a b)
      (Usage.eval dcond.use) :=
  (tracks_one h).plays_bind fun _ _ _ hv => (tracks_drop hv.1).plays.andThen fun _ => plays_cbr ha hb

theorem plays_clause (hc : cond.Follows dcond) (hb : Fits contents u) (ha : a < n) (hn : b < n)
    (hd : c < n) :
    Plays (Γ.waiting o (a :: pending) n) (Γ.waiting false pending n) (clause cond contents a b c)
      (Usage.clause dcond.use u) :=
  (plays_test hc ha hn).bind fun _ => (plays_startBlock (List.Perm.refl _)).before fun _ =>
    (plays_inScope (hb _ _ _)).andThen fun _ => plays_branchTo hd

/-- A clause follows the use of its condition and its body. -/
def ClauseFollows (x : Part × Lower Unit) (v : Usage Unit) : Prop :=
  ∃ d u, x.1.Follows d ∧ Fits x.2 u ∧ v = Usage.clause d.use u

/-- The clauses start the blocks of their bodies and tests. -/
theorem plays_clauses {cases : List (Part × Lower Unit)} {us : List (Usage Unit)}
    {bodies tests : List Nat} (h : List.Forall₂ ClauseFollows cases us)
    (hb : bodies.length = cases.length) (ht : tests.length = cases.length - 1)
    (hlt : ∀ x ∈ bodies ++ tests, x < n) (ha : a < n) (hd : b < n) :
    Plays (Γ.waiting o (bodies ++ tests ++ pending) n) (Γ.waiting false pending n)
      (clauses a b cases bodies tests) (Usage.each us) := by
  induction h generalizing o bodies tests with
  | nil =>
    obtain rfl : bodies = [] := List.length_eq_zero_iff.mp hb
    obtain rfl : tests = [] := List.length_eq_zero_iff.mp ht
    exact fun _ hs => ⟨rfl, rfl, { hs with opened := nofun }⟩
  | @cons x v cases us hx hcases ih =>
    obtain ⟨d, u, hfollows, hfits, rfl⟩ := hx
    obtain ⟨body, bodies, rfl⟩ := List.exists_cons_of_length_eq_add_one hb
    have hbody : body < n := hlt body (by simp)
    cases tests with
    | nil =>
      obtain rfl : cases = [] := List.length_eq_zero_iff.mp ht.symm
      obtain rfl : bodies = [] := by simpa using hb
      cases hcases
      rw [Usage.each_singleton]
      exact plays_clause hfollows hfits hbody ha hd
    | cons next tests =>
      refine (plays_clause hfollows hfits hbody (hlt next (by simp)) hd).bind fun _ => ?_
      have hp : (bodies ++ next :: tests ++ pending).Perm
          (next :: (bodies ++ tests ++ pending)) := by
        simp
      refine (plays_startBlock hp).before fun _ => ?_
      refine ih (by simpa using hb) ?_ fun y hy => hlt y ?_
      · simp only [List.length_cons] at ht
        omega
      · rcases List.mem_append.mp hy with hy | hy <;> simp [hy]

theorem lays_branch {cases : List (Part × Lower Unit)} {us : List (Usage Unit)}
    (h : List.Forall₂ ClauseFollows cases us) {otherwise : Option (Lower Unit)}
    {v : Option (Usage Unit)} (ho : Option.Rel Fits otherwise v) :
    Lays false (branch cases otherwise) (Usage.each (us ++ v.toList)) := by
  refine lays_of_plays fun Γ he => ?_
  refine plays_newBlock fun done hd => plays_newBlocks fun bodies m hb hm hbm =>
    plays_newBlocks fun tests n ht hn htn => ?_
  have hlt : ∀ x ∈ bodies ++ tests, x < n := by
    intro x hx
    rcases List.mem_append.mp hx with hx | hx
    · have := hbm x hx; omega
    · exact htn x hx
  have hp : ∀ rest, (tests ++ (bodies ++ rest)).Perm (bodies ++ tests ++ rest) := by
    intro rest
    simpa using List.perm_append_comm_assoc tests bodies rest
  cases ho with
  | none =>
    refine plays_of_perm (hp _) ?_
    rw [Option.toList_none, List.append_nil]
    exact (plays_clauses h hb ht hlt (by omega) (by omega)).andThen
      fun _ => plays_startLast (by omega) he
  | @some contents v hv =>
    refine plays_newBlock fun block hblock => ?_
    refine plays_of_perm (((hp _).cons block).trans List.perm_middle.symm) ?_
    rw [Option.toList_some, Usage.each_append, Usage.each_singleton]
    refine (plays_clauses h hb ht (fun x hx => ?_) (by omega) (by omega)).bind fun _ => ?_
    · have := hlt x hx
      omega
    · exact (plays_startBlock (List.Perm.refl _)).before fun _ => (plays_inScope (hv _ _ _)).andThen
        fun _ => (plays_branchTo (by omega)).before fun _ => plays_startLast (by omega) he

end Branches

section Loops

variable {Γ : Setting} {contents : Lower Unit} {u : Usage Unit} {o : Bool} {a b n : Nat}
  {pending : List Nat} (symbols : SymbolTable)

theorem lays_whileLoop (hc : cond.Follows dcond) (hb : Fits contents u) :
    Lays false (whileLoop cond contents) (Usage.clause dcond.use u) := by
  refine lays_of_plays fun Γ he => plays_newBlock fun condBlock h₁ => plays_newBlock fun body h₂ =>
    plays_newBlock fun done h₃ => ?_
  refine (plays_startBlock (@List.perm_middle _ condBlock [done, body] _)).before fun _ => ?_
  refine (plays_test hc (by omega) (by omega)).bind fun _ => ?_
  refine (plays_startBlock (List.Perm.swap _ _ _)).before fun _ => ?_
  refine (plays_withExit (fun _ => plays_inScope (hb _ _ _)) (by omega)).andThen fun _ => ?_
  exact (plays_branchTo (by omega)).before fun _ => plays_startLast (by omega) he

theorem lays_repeatLoop (hb : Fits contents u) (hc : cond.Follows dcond) :
    Lays false (repeatLoop contents cond) (Usage.repeatLoop u dcond.use) := by
  refine lays_of_plays fun Γ he => plays_newBlock fun body h₁ => plays_newBlock fun done h₂ => ?_
  refine (plays_startBlock (List.Perm.swap _ _ _)).before fun _ => ?_
  have hbody : ∀ Γ : Setting, ∀ pending, Plays (Γ.waiting true pending (done + 1))
      (Γ.waiting false pending (done + 1)) (do contents; test cond done body)
      (Usage.repeatLoop u dcond.use) :=
    fun _ _ => (hb _ _ _).bind fun _ => plays_test hc (by omega) (by omega)
  exact (plays_withExit (fun _ => plays_inScope (hbody _ _)) (by omega)).andThen
    fun _ => plays_startLast (by omega) he

theorem plays_loopBody (var : SymbolId) (index : Operand) (tag : TypeTag)
    (hb : Fits contents u) (ha : a < n) :
    Plays (Γ.waiting true pending n) (Γ.waiting false pending n)
      (loopBody symbols var index tag contents a) u :=
  plays_inScope <| (silent_declareLocal symbols var).plays_bind fun _ _ hd =>
    (silent_move index tag hd).plays_bind fun _ _ _ => plays_withExit (fun _ => hb _ _ _) ha

theorem plays_compare {opcode : Opcode} (operands : List Operand) (ho : opcode.IsStraight)
    (ha : a < n) (hb : b < n) :
    Plays (Γ.waiting o pending n) (Γ.waiting false pending n) (compare opcode operands a b)
      Usage.compare :=
  (tracks_holdAs .any).plays_bind fun _ _ _ ht => (silent_emitTo ho ht.1).plays_bind fun _ _ _ =>
    (tracks_drop ht.2).plays.andThen fun _ => plays_cbr ha hb

theorem plays_advance {opcode : Opcode} {index : Operand} (step : Operand) (ho : opcode.IsStraight)
    (hi : index.isTemp = true) (hb : b < n) :
    Plays (Γ.waiting o pending n) (Γ.waiting false pending n) (advance opcode index step b)
      (pure ()) := by
  refine silent_isTerminated.plays_bind fun t _ _ => ?_
  split
  · exact fun _ hs => ⟨rfl, rfl, { hs with opened := nofun }⟩
  · exact (silent_emitTo ho hi).plays_bind fun _ _ _ =>
      (turns_br hb).plays fun _ => records_emit (by decide)

theorem lays_integerFor (var : SymbolId) (step : Int64) (hs : start.Follows dstart)
    (hl : limit.Follows dlimit) (hb : Fits contents u) :
    Lays false (integerFor symbols var start limit step contents)
      (Usage.integerFor dstart.use dlimit.use u) := by
  refine lays_of_plays fun Γ he => (tracks_one hs).plays_bind fun first _ _ h₁ =>
    (tracks_one hl).plays_bind fun last _ _ h₂ => ?_
  refine (silent_allocTemp (by decide)).plays_bind fun index _ hi =>
    (silent_allocTemp (by decide)).plays_bind fun bound _ hbound =>
    (silent_move _ _ (isData_of_isTemp hi.1)).plays_bind fun _ _ _ =>
    (silent_move _ _ (isData_of_isTemp hbound.1)).plays_bind fun _ _ _ => ?_
  refine (tracks_drop h₂.1).plays_bind fun _ _ _ _ => (tracks_drop h₁.1).plays_bind fun _ _ _ _ =>
    (silent_constant _).plays_bind fun stride _ _ => ?_
  refine plays_newBlock fun testBlock h₁ => plays_newBlock fun body h₂ =>
    plays_newBlock fun done h₃ => ?_
  refine (plays_startBlock (@List.perm_middle _ testBlock [done, body] _)).before fun _ => ?_
  refine (plays_compare _ (by decide) (by omega) (by omega)).bind fun _ => ?_
  refine (plays_startBlock (List.Perm.swap _ _ _)).before fun _ => ?_
  refine (plays_loopBody symbols var index .integer hb (by omega)).andThen fun _ => ?_
  exact (plays_advance stride (by decide) hi.1 (by omega)).before fun _ =>
    (plays_startLast (by omega) he).before fun _ => (silent_free hbound.2).plays_bind
    fun _ _ _ => (silent_free hi.2).plays

theorem lays_taggedFor (var : SymbolId) {step : Option Part} {dstep : Option Usage.Value}
    (hs : start.Follows dstart) (hl : limit.Follows dlimit)
    (hp : Option.Rel Part.Follows step dstep) (hb : Fits contents u) :
    Lays false (taggedFor symbols var start limit step contents) (Usage.taggedFor dstart.use
      dlimit.use (dstep.elim (pure none) (·.use)) u) := by
  refine lays_of_plays fun Γ he => (tracks_one hs).plays_bind fun first rfirst _ h₁ =>
    (tracks_one hl).plays_bind fun last rlast _ h₂ => ?_
  extract_lets loop
  have hloop : ∀ increment tag rincrement, increment.Holds rincrement →
      Plays (Γ.waiting true Γ.pending Γ.size) Γ (loop (increment, tag)) (do
        let index ← Usage.holdAs .any
        let bound ← Usage.holdAs .any
        let stride ← Usage.holdAs .any
        Usage.drop rincrement
        Usage.drop rlast
        Usage.drop rfirst
        Usage.compare
        Usage.compare
        Usage.compare
        u
        Usage.drop stride
        Usage.drop bound
        Usage.drop index) := by
    intro increment tag rincrement h₃
    refine (tracks_holdAs _).plays_bind fun index _ _ hi => (tracks_holdAs _).plays_bind
      fun bound _ _ hbound => (tracks_holdAs _).plays_bind fun stride _ _ hst => ?_
    refine (silent_move _ _ (isData_of_isTemp hi.1)).plays_bind fun _ _ _ =>
      (silent_move _ _ (isData_of_isTemp hbound.1)).plays_bind fun _ _ _ =>
      (silent_move _ _ (isData_of_isTemp hst.1)).plays_bind fun _ _ _ => ?_
    refine (tracks_drop h₃).plays_bind fun _ _ _ _ => (tracks_drop h₂.1).plays_bind
      fun _ _ _ _ => (tracks_drop h₁.1).plays_bind fun _ _ _ _ =>
      (silent_constant _).plays_bind fun zero _ _ => ?_
    refine plays_newBlock fun testBlock h₁ => plays_newBlock fun ascending h₂ =>
      plays_newBlock fun descending h₃ => plays_newBlock fun body h₄ =>
      plays_newBlock fun done h₅ => ?_
    refine (plays_startBlock (@List.perm_middle _ testBlock
      [done, body, descending, ascending] _)).before fun _ => ?_
    refine (plays_compare _ (by decide) (by omega) (by omega)).bind fun _ => ?_
    refine (plays_startBlock (@List.perm_middle _ ascending [done, body, descending] _)).before
      fun _ => ?_
    refine (plays_compare _ (by decide) (by omega) (by omega)).bind fun _ => ?_
    refine (plays_startBlock (@List.perm_middle _ descending [done, body] _)).before fun _ => ?_
    refine (plays_compare _ (by decide) (by omega) (by omega)).bind fun _ => ?_
    refine (plays_startBlock (List.Perm.swap _ _ _)).before fun _ => ?_
    refine (plays_loopBody symbols var index .any hb (by omega)).bind fun _ => ?_
    refine (plays_advance stride (by decide) hi.1 (by omega)).before fun _ =>
      (plays_startLast (by omega) he).before fun _ => ?_
    exact (tracks_drop hst.2).plays_bind fun _ _ _ _ => (tracks_drop hbound.2).plays_bind
      fun _ _ _ _ => (tracks_drop hi.2).plays
  cases hp with
  | none => exact (tracks_constant _).plays_bind fun k _ _ hk => hloop k .integer _ hk
  | @some part _ hpart =>
    exact (tracks_one hpart).plays_bind fun o _ _ ho => hloop o part.ty.tag _ ho.1

theorem lays_numericFor (var : SymbolId) {step : Option Part} {dstep : Option Usage.Value}
    (constant : Option Int64) (hs : start.Follows dstart) (hl : limit.Follows dlimit)
    (hp : Option.Rel Part.Follows step dstep) (hb : Fits contents u) :
    Lays false (numericFor symbols var start limit step constant contents)
      (if constant.isSome && start.ty.isInteger && limit.ty.isInteger then
        Usage.integerFor dstart.use dlimit.use u
      else Usage.taggedFor dstart.use dlimit.use (dstep.elim (pure none) (·.use)) u) := by
  have htagged := lays_taggedFor symbols var hs hl hp hb
  unfold numericFor
  split
  · split <;> rename_i hty
    · simpa [hty] using lays_integerFor symbols var _ hs hl hb
    · rw [if_neg (by simpa using hty)]
      exact htagged
  · exact htagged

end Loops

section Functions

variable {u : Usage Unit} (symbols : SymbolTable)

theorem silent_resolveUpvalue (id : SymbolId) :
    Silent (resolveUpvalue symbols id) fun _ _ => True := by
  refine (silent_symbol symbols id).seq fun sym => ?_
  split
  · refine (silent_symbol symbols _).seq fun captured s => ?_
    simp only [TracksFrom, Records, ends_bind, ends_get]
    split
    · simp only [lookupLocal, ends_bind, ends_get, ends_pure]
      split
      · exact ⟨rfl, rfl, fun _ h => h, trivial⟩
      · exact ⟨[], List.nil_prefix, rfl⟩
    · split
      · exact ⟨rfl, rfl, fun _ h => h, trivial⟩
      · exact ⟨[], List.nil_prefix, rfl⟩
  · exact fun _ => tracks_invalid

theorem silent_resolveUpvalues (f : Function) (parent : Option Nat) :
    Silent (resolveUpvalues symbols f parent) fun _ _ => True := by
  cases parent with
  | none => exact silent_pure fun _ => trivial
  | some parent =>
    exact Silent.mono (silent_mapM (silent_resolveUpvalue symbols)) fun _ _ _ => trivial

theorem silent_declareParams (params : List SymbolId) :
    Silent (declareParams symbols params) fun _ _ => True := by
  refine silent_forM fun id s => (silent_declareLocal symbols id).bind fun o s' ho => ?_
  split
  · rename_i guard hg
    exact silent_emit (guardOpcode?_isStraight hg) (List.forall_mem_singleton.mpr ho) s'
  · exact tracks_pure trivial

theorem records_returnAtEnd : Records s returnAtEnd (pure ()) fun _ _ _ => True := by
  simp only [Records, returnAtEnd, ends_bind, ends_isTerminated]
  split
  · exact ⟨rfl, rfl, trivial⟩
  · exact records_emit (by decide)

/-- The code of a function follows the use of its body and ends its last block. -/
theorem records_functionCode (params : List SymbolId) {body : Lower Unit} (hb : Fits body u)
    {procs : Array Proc} {n : Nat} (h : s.Within (functionSetting procs n true)) :
    Records s (functionCode symbols params body) u fun _ _ s' =>
      s'.Within (functionSetting procs n false) ∧ s'.fn.proc.IsSealed s'.fn.block := by
  refine Records.before (silent_openScope s) fun _ s₁ h₁ =>
    Records.before (silent_declareParams symbols params s₁) fun _ s₂ h₂ => ?_
  have hw := h₂.1 _ (h₁.1 _ h)
  refine Records.congr (v := u) (Records.bind (g := fun _ => pure ()) (hb (functionSetting procs n true) [] 0 hw)
    fun _ _ s₃ h₃ => ?_) (by rw [bind_pure_unit])
  refine (records_returnAtEnd.and (ends_returnAtEnd h₃)).before fun _ s₄ h₄ => ?_
  exact Records.mono (Records.and (silent_closeScope s₄) (yields_closeScope (fun blocks instrs b =>
    Proc.IsSealed { id := 0, parent := none, blocks, instrs } b) h₄.2.1 h₄.2.2)) fun _ _ _ h₅ => h₅.2

/-- A function is lowered with pools of its own, and those of its parent are as before. -/
theorem tracks_function (f : Function) (parent : Option Nat) {body : Lower Unit}
    (hb : Fits body u) :
    Tracks (function symbols f parent body) (Usage.nested u) fun _ _ _ => True := by
  refine fun s => (silent_resolveUpvalues symbols f parent).bind fun resolved s _ => ?_
  simp only [TracksFrom, Records, newProc, Module.newProc, ends_bind, ends_get]
  split <;> rename_i hnew
  · split at hnew
    · cases hnew
      simp only [ends_bind, ends_modify, ends_pure, ends_modifyFn]
      have hstart := within_functionSetting
        { s with module := ⟨s.module.procs.push { id := s.module.procs.size, parent }⟩ }
        { id := s.module.procs.size, parent, name := f.name, upvalues := resolved.map (·.1),
          isVararg := f.isVararg, params := f.params.length }
        f.id (resolved.map (·.2)) rfl rfl fun kind => by cases kind <;> rfl
      refine Ends.imp (records_functionCode symbols f.params hb hstart) ?_
      rintro _ s' ⟨-, hv, hw, hsealed⟩
      refine ⟨rfl, hv, fun Γ h => ?_, trivial⟩
      have hend := within_finished
        (s'.stats.procLowered s'.fn.proc.blocks.size s'.fn.proc.instrs.size) h hw
        (hw.laid.blockDiscipline hsealed)
      exact hend
    · cases hnew
  · exact ⟨[], List.nil_prefix, rfl⟩

end Functions

end ScriptC.Lower
