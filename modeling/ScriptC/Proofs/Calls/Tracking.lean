import ScriptC.Proofs.Blocks.Actions
import ScriptC.Proofs.Calls.Usage
import ScriptC.Proofs.Constants

/-! # Lowering follows the use of temporaries

An action follows a use if it leaves the generic temporaries as the use does and emits the calls of
the use. A failing action has emitted the first of them. An action that follows a use also keeps the
block discipline in every setting, so both are shown together.
-/

namespace ScriptC

/-- The register of the stack that an operand names. -/
def Operand.stackRegister? (o : Operand) : Option Nat :=
  match o.storage with
  | some (.stack, r) => some r
  | _ => none

/-- The generic temporary that an operand owns. -/
def Operand.generic? (o : Operand) : Option Nat :=
  match Proc.owned? o with
  | some (.any, r) => some r
  | _ => none

/-- What an operand holds is what it returns, and what a call sees of it. -/
def Operand.Holds (o : Operand) (held : Option Nat) : Prop :=
  o.generic? = held ∧ o.stackRegister? = held

def CallSite.view (c : CallSite) : CallView where
  callee := match c.operands with
    | .tempAny r :: _ => some r
    | _ => none
  passed := c.operands.tail.filterMap Operand.stackRegister?
  pool := c.pool

namespace LoweringState

def anys (s : LoweringState) : Registers := s.fn.proc.anys

def views (s : LoweringState) : List CallView := s.calls.map CallSite.view

/-- Every setting of the first state is one of the second. -/
def Stays (s s' : LoweringState) : Prop := ∀ Γ, s.Within Γ → s'.Within Γ

end LoweringState

namespace Lower

variable {α β γ δ : Type} {s : LoweringState}

/-- From `s`, the action does to generic temporaries and calls what the use does, and `R` relates
the results. -/
def Records (s : LoweringState) (x : Lower α) (u : Usage β)
    (R : α → β → LoweringState → Prop) : Prop :=
  Ends x s
    (fun a s' => s'.anys = (u s.anys).2.1 ∧ s'.views = (u s.anys).2.2.reverse ++ s.views ∧
      R a (u s.anys).1 s')
    fun _ s' => ∃ l, l <+: (u s.anys).2.2 ∧ s'.views = l.reverse ++ s.views

/-- The action follows the use and stays in the settings of `s`. -/
def TracksFrom (s : LoweringState) (x : Lower α) (u : Usage β)
    (R : α → β → LoweringState → Prop) : Prop :=
  Records s x u fun a c s' => s.Stays s' ∧ R a c s'

def Tracks (x : Lower α) (u : Usage β) (R : α → β → LoweringState → Prop) : Prop :=
  ∀ s, TracksFrom s x u R

/-- The action has nothing to do with generic temporaries and calls. -/
def Silent (x : Lower α) (P : α → LoweringState → Prop) : Prop := Tracks x (pure ()) fun a _ => P a

section Rules

variable {x : Lower α} {f : α → Lower β} {u v : Usage γ} {g : γ → Usage δ}
  {R R' : α → γ → LoweringState → Prop} {T : β → δ → LoweringState → Prop}
  {P P' : α → LoweringState → Prop}

theorem Records.mono (h : Records s x u R) (hR : ∀ a c s', R a c s' → R' a c s') :
    Records s x u R' :=
  Ends.imp h fun _ _ h' => ⟨h'.1, h'.2.1, hR _ _ _ h'.2.2⟩

theorem Records.congr (h : Records s x u R) (hu : u s.anys = v s.anys) : Records s x v R := by
  rwa [Records, ← hu]

theorem Records.bind (hx : Records s x u R)
    (hf : ∀ a c s', R a c s' → Records s' (f a) (g c) T) : Records s (x >>= f) (u >>= g) T := by
  unfold Records at hx ⊢
  rw [ends_bind]
  refine hx.mono (fun a s' h => ?_) fun e s' h => ?_
  · obtain ⟨hp, hv, hr⟩ := h
    have hf' := hf a _ s' hr
    rw [Records, hp] at hf'
    refine hf'.mono (fun b s'' h' => ?_) fun e s'' h' => ?_
    · obtain ⟨hp', hv', ht⟩ := h'
      refine ⟨hp', ?_, ht⟩
      rw [hv', hv, ← List.append_assoc, ← List.reverse_append]
      rfl
    · obtain ⟨l, hl, hv'⟩ := h'
      refine ⟨(u s.anys).2.2 ++ l, (List.prefix_append_right_inj _).mpr hl, ?_⟩
      rw [hv', hv, List.reverse_append, List.append_assoc]
  · obtain ⟨l, hl, hv⟩ := h
    exact ⟨l, hl.trans (List.prefix_append _ _), hv⟩

/-- The use may begin after the action has. -/
theorem Records.before {T : β → γ → LoweringState → Prop}
    (hx : Records s x (pure ()) fun a _ => P a)
    (hf : ∀ a s', P a s' → Records s' (f a) u T) : Records s (x >>= f) u T :=
  (hx.bind fun a _ s' h => hf a s' h).congr rfl

theorem records_failure {e : Failure} : Records s (throw e : Lower α) u R :=
  ⟨[], List.nil_prefix, rfl⟩

theorem TracksFrom.mono (h : TracksFrom s x u R) (hR : ∀ a c s', R a c s' → R' a c s') :
    TracksFrom s x u R' :=
  Records.mono h fun _ _ _ h' => ⟨h'.1, hR _ _ _ h'.2⟩

theorem TracksFrom.bind (hx : TracksFrom s x u R)
    (hf : ∀ a c s', R a c s' → TracksFrom s' (f a) (g c) T) :
    TracksFrom s (x >>= f) (u >>= g) T :=
  Records.bind hx fun a c s' h => Records.mono (hf a c s' h.2) fun _ _ _ h' =>
    ⟨fun Γ hs => h'.1 Γ (h.1 Γ hs), h'.2⟩

/-- The use may be over before the action is. -/
theorem TracksFrom.andThen {T : β → γ → LoweringState → Prop} (hx : TracksFrom s x u R)
    (hf : ∀ a c s', R a c s' → TracksFrom s' (f a) (pure c) T) : TracksFrom s (x >>= f) u T :=
  Records.congr (hx.bind hf) (by rw [bind_pure])

theorem TracksFrom.before {T : β → γ → LoweringState → Prop}
    (hx : TracksFrom s x (pure ()) fun a _ => P a)
    (hf : ∀ a s', P a s' → TracksFrom s' (f a) u T) : TracksFrom s (x >>= f) u T :=
  Records.congr (hx.bind fun a _ s' h => hf a s' h) rfl

theorem tracks_pure {a : α} {c : γ} (h : R a c s) : TracksFrom s (pure a) (pure c) R :=
  ⟨rfl, rfl, fun _ => id, h⟩

theorem tracks_throw {e : Failure} : TracksFrom s (throw e : Lower α) u R := records_failure

theorem tracks_invalid {reason : Reason} : TracksFrom s (invalid reason : Lower α) u R :=
  ⟨[], List.nil_prefix, rfl⟩

/-- An action that keeps the discipline has only to follow the use. -/
theorem Yields.tracksFrom {A : LoweringState → Prop} {Q : α → LoweringState → Prop}
    (hx : Yields A x Q) (ha : A s) (h : Records s x u R) : TracksFrom s x u R := by
  have hstays : Ends x s (fun _ s' => s.Stays s') fun _ _ => True := by
    unfold Ends
    cases hrun : x s with
    | ok a s' => exact fun Γ hs => ((hx hs ha).of_ok hrun).1
    | error e s' => trivial
  exact (Ends.and h hstays).mono (fun _ _ h' => ⟨h'.1.1, h'.1.2.1, h'.2, h'.1.2.2⟩) fun _ _ h' => h'.1

theorem Keeps.tracks (hx : Keeps x) (h : ∀ s, Records s x u R) : Tracks x u R := fun s =>
  Yields.tracksFrom hx trivial (h s)

theorem Tracks.keeps (h : Tracks x u R) : Keeps x := fun Γ s hs _ =>
  Ends.mono (h s) (fun _ _ h' => ⟨h'.2.2.1 Γ hs, trivial⟩) fun _ _ _ => trivial

theorem Silent.bind {T : β → γ → LoweringState → Prop} (hx : Silent x P)
    (hf : ∀ a s', P a s' → TracksFrom s' (f a) u T) : TracksFrom s (x >>= f) u T :=
  (hx s).before hf

theorem Silent.tracks {c : γ} (hx : Silent x P) (hR : ∀ a s', P a s' → R a c s') :
    Tracks x (pure c) R := fun s =>
  Ends.imp (hx s) fun a s' h => ⟨h.1, h.2.1, h.2.2.1, hR a s' h.2.2.2⟩

theorem Silent.mono (hx : Silent x P) (hP : ∀ a s', P a s' → P' a s') : Silent x P' :=
  Silent.tracks hx hP

theorem Silent.seq {Q : β → LoweringState → Prop} (hx : Silent x P)
    (hf : ∀ a, Silent (f a) Q) : Silent (x >>= f) Q := fun _ =>
  hx.bind fun a s' _ => hf a s'

end Rules

section Silent

variable {opcode : Opcode} {operands targets : List Operand}

theorem silent_pure {a : α} {P : α → LoweringState → Prop} (h : ∀ s, P a s) :
    Silent (pure a) P := fun s => tracks_pure (h s)

/-- Only a call leaves a trace. -/
theorem records_append (h : opcode ≠ .call) :
    Records s (append opcode operands targets) (pure ()) fun _ _ _ => True := by
  simp only [Records, append, ends_bind, ends_get, ends_tryProc, Proc.emit]
  by_cases hb : s.fn.block < s.fn.proc.blocks.size
  · simp only [if_pos hb, ends_modifyStats, if_neg h]
    exact ⟨rfl, rfl, trivial⟩
  · simp only [if_neg hb]
    exact ⟨[], List.nil_prefix, rfl⟩

theorem anys_opened : s.opened.anys = s.anys := by
  simp only [LoweringState.opened, FunctionState.opened, LoweringState.anys]
  split <;> rfl

theorem records_emitId (h : opcode ≠ .call) :
    Records s (emitId opcode operands targets) (pure ()) fun _ _ _ => True := by
  have ha := @records_append s.opened opcode operands targets h
  rw [Records, anys_opened] at ha
  rwa [Records, ends_emitId]

theorem records_emit (h : opcode ≠ .call) :
    Records s (emit opcode operands targets) (pure ()) fun _ _ _ => True := by
  rw [Records, emit, ends_discard]
  exact records_emitId h

theorem silent_emitId (h : opcode.IsStraight) (ht : ∀ o ∈ targets, o.IsData) :
    Silent (emitId opcode operands targets) fun _ _ => True :=
  (yields_emitId ⟨h.1, fun b hb => ht _ hb b rfl⟩).keeps.tracks fun _ => records_emitId h.2

theorem silent_emit (h : opcode.IsStraight) (ht : ∀ o ∈ targets, o.IsData) :
    Silent (emit opcode operands targets) fun _ _ => True :=
  (keeps_emit ⟨h.1, fun b hb => ht _ hb b rfl⟩).tracks fun _ => records_emit h.2

theorem isData_of_isTemp {o : Operand} (h : o.isTemp = true) : o.IsData := by
  rintro b rfl
  cases h

theorem silent_emitTo {target : Operand} (h : opcode.IsStraight) (ht : target.isTemp = true) :
    Silent (emit opcode operands [target]) fun _ _ => True :=
  silent_emit h (List.forall_mem_singleton.mpr (isData_of_isTemp ht))

theorem silent_move (src : Operand) (tag : TypeTag) {dest : Operand} (hd : dest.IsData) :
    Silent (move src tag dest) fun _ _ => True := by
  unfold move
  split
  · exact silent_pure fun _ => trivial
  · exact silent_emit (moveOpcode_isStraight _ _) (List.forall_mem_singleton.mpr hd)

theorem silent_isTerminated : Silent isTerminated fun _ _ => True :=
  fun _ => ⟨rfl, rfl, fun _ => id, trivial⟩

theorem records_newBlock : Records s newBlock (pure ()) fun _ _ _ => True := ⟨rfl, rfl, trivial⟩

theorem records_startBlock (b : Nat) : Records s (startBlock b) (pure ()) fun _ _ _ => True := by
  simp only [startBlock, Records, ends_bind, ends_isTerminated]
  split
  · exact ⟨rfl, rfl, trivial⟩
  · simp only [ends_bind, ends_discard]
    exact records_append (by decide)

theorem records_branchTo (b : Nat) : Records s (branchTo b) (pure ()) fun _ _ _ => True := by
  simp only [branchTo, Records, ends_bind, ends_isTerminated]
  split
  · exact ⟨rfl, rfl, trivial⟩
  · exact records_emit (by decide)

/-- An interned constant can be read back. -/
theorem silent_constant (c : Constant) : Silent (constant c)
    fun o s => (∃ k, o = .constant k) ∧ s.fn.proc.constant? o = some c := by
  refine (keeps_constant c).tracks fun s => ?_
  have hk : (s.fn.proc.intern c).1.constant? (s.fn.proc.intern c).2.1 = some c :=
    s.fn.proc.constants.get?_intern c
  simp only [Records, constant, ends_bind, ends_onProc]
  split
  · exact ⟨rfl, rfl, ⟨_, rfl⟩, hk⟩
  · exact ⟨rfl, rfl, ⟨_, rfl⟩, hk⟩

theorem records_setExpected (call : Nat) (count : Int64) :
    Records s (setExpected call count) (pure ()) fun _ _ _ => True := by
  refine Records.before (silent_constant _ s) fun _ s' _ => ?_
  rw [Records, ends_setTarget]
  split
  · exact ⟨rfl, rfl, trivial⟩
  · exact ⟨[], List.nil_prefix, rfl⟩

theorem tracks_setExpected {call : Nat} (h : OpcodeAt call .call s.fn.proc.instrs) (count : Int64) :
    TracksFrom s (setExpected call count) (pure ()) fun _ _ _ => True :=
  (yields_setExpected call count).tracksFrom h (records_setExpected call count)

theorem silent_symbol (symbols : SymbolTable) (id : SymbolId) :
    Silent (symbol symbols id) fun sym _ => symbols.get? id = some sym := by
  unfold symbol
  split
  · rename_i sym h
    exact silent_pure fun _ => h
  · exact fun _ => tracks_throw

theorem silent_lookupLocal (id : SymbolId) : Silent (lookupLocal id) fun _ _ => True :=
  fun _ => ⟨rfl, rfl, fun _ h => h, trivial⟩

theorem silent_forM {xs : List γ} {g : γ → Lower Unit} (h : ∀ a, Silent (g a) fun _ _ => True) :
    Silent (xs.forM g) fun _ _ => True := by
  induction xs with
  | nil => exact silent_pure fun _ => trivial
  | cons a xs ih => exact (h a).seq fun _ => ih

theorem silent_openScope : Silent openScope fun _ _ => True :=
  keeps_openScope.tracks fun _ => ⟨rfl, rfl, trivial⟩

theorem silent_closeScope : Silent closeScope fun _ _ => True := by
  refine keeps_closeScope.tracks fun s => (ends_closeScope s).mono ?_ ?_
  · rintro _ _ ⟨_, _, _, -, rfl⟩
    exact ⟨rfl, rfl, trivial⟩
  · rintro _ _ ⟨_, _, _, -, rfl⟩
    exact ⟨[], List.nil_prefix, rfl⟩

theorem silent_declareLocal (symbols : SymbolTable) (id : SymbolId) :
    Silent (declareLocal symbols id) fun o _ => o.IsData := by
  refine (gives_declareLocal symbols id).keeps.tracks fun s => Records.before
    (silent_symbol symbols id s) fun sym s' _ => ?_
  simp only [Records, ends_bind, ends_onProc, ends_get]
  split
  · exact ⟨[], List.nil_prefix, rfl⟩
  · exact ⟨rfl, rfl, by simp [Operand.IsData]⟩

end Silent

section Registers

variable {o : Operand} {operands targets : List Operand}

theorem tracks_hold : Tracks (allocTemp .any) Usage.hold fun o r _ => o = .tempAny r :=
  (gives_allocTemp .any).keeps.tracks fun _ => ⟨rfl, rfl, rfl⟩

theorem tracks_holdAs (kind : TempKind) : Tracks (allocTemp kind) (Usage.holdAs kind)
    fun o r _ => o.isTemp = true ∧ o.Holds r := by
  refine (gives_allocTemp kind).keeps.tracks fun s => ?_
  cases kind <;> exact ⟨rfl, rfl, rfl, rfl, rfl⟩

theorem tracks_free (o : Operand) (s : LoweringState) :
    TracksFrom s (free o) (Usage.drop o.generic?)
      fun _ _ s' => s'.fn.proc.instrs = s.fn.proc.instrs := by
  refine Yields.tracksFrom (keeps_free o) trivial ?_
  simp only [Records, free, ends_tryProc]
  cases hf : s.fn.proc.freeTemp o with
  | error e => exact ⟨[], List.nil_prefix, rfl⟩
  | ok q =>
    rcases Proc.freeTemp_ok hf with ⟨ho, rfl⟩ | ⟨kind, reg, r, ho, hr, rfl⟩
    · simp only [Operand.generic?, ho]
      exact ⟨rfl, rfl, rfl⟩
    · obtain ⟨-, rfl⟩ := Registers.release_ok hr
      simp only [Operand.generic?, ho]
      cases kind <;> exact ⟨rfl, rfl, rfl⟩

/-- A native temporary is no generic one. -/
theorem silent_allocTemp {kind : TempKind} (h : kind ≠ .any) :
    Silent (allocTemp kind) fun o _ => o.isTemp = true ∧ o.generic? = none := by
  refine (gives_allocTemp kind).keeps.tracks fun s => ?_
  cases kind
  · exact ⟨rfl, rfl, rfl, rfl⟩
  · exact ⟨rfl, rfl, rfl, rfl⟩
  · exact absurd rfl h

theorem tracks_drop {held : Option Nat} (h : o.Holds held) :
    Tracks (free o) (Usage.drop held) fun _ _ _ => True := fun s =>
  h.1 ▸ (tracks_free o s).mono fun _ _ _ _ => trivial

theorem silent_free (h : o.generic? = none) : Silent (free o) fun _ _ => True := fun s =>
  Records.congr ((tracks_free o s).mono fun _ _ _ _ => trivial) (by rw [h]; rfl)

theorem tracks_forM {xs : List γ} {g : γ → Lower Unit} {k : γ → Usage Unit}
    {I : LoweringState → Prop} (h : ∀ a s, I s → TracksFrom s (g a) (k a) fun _ _ => I) (hs : I s) :
    TracksFrom s (xs.forM g) (Usage.each (xs.map k)) fun _ _ => I := by
  induction xs generalizing s with
  | nil => exact tracks_pure hs
  | cons a xs ih => exact (h a s hs).bind fun _ _ _ hs' => ih hs'

theorem tracks_freeAll (os : List Operand) (s : LoweringState) :
    TracksFrom s (freeAll os) (Usage.dropAll (os.map Operand.generic?))
      fun _ _ s' => s'.fn.proc.instrs = s.fn.proc.instrs := by
  have h : TracksFrom s (os.reverse.forM free)
      (Usage.each (os.reverse.map (Usage.drop ∘ Operand.generic?)))
      fun _ _ s' => s'.fn.proc.instrs = s.fn.proc.instrs :=
    tracks_forM (fun o s' hs => (tracks_free o s').mono fun _ _ _ hs' => hs'.trans hs) rfl
  rwa [← List.map_map, List.map_reverse] at h

/-- Claiming a register fails if it is live. -/
theorem tracks_claim (reg : Nat) : Tracks (tryProc fun p => return (← p.reserveTemp reg, ()))
    (Usage.claim reg) fun _ _ _ => True := by
  refine (keeps_reserveTemp reg).tracks fun s => ?_
  simp only [Records, ends_tryProc]
  cases ht : s.fn.proc.anys.take reg with
  | error e => simp [Proc.reserveTemp, ht, bind, Except.bind]
  | ok q =>
    simp only [Proc.reserveTemp, ht, bind, Except.bind, pure, Except.pure]
    refine ⟨?_, rfl, trivial⟩
    unfold Registers.take at ht
    unfold Usage.claim LoweringState.anys
    split_ifs at ht ⊢ <;> cases ht <;> rfl

theorem tracks_call {base : Nat} (ht : ∀ o ∈ targets, o.IsData) :
    Tracks (emitId .call (.tempAny base :: operands) targets)
      (Usage.emitCall base (operands.filterMap Operand.stackRegister?))
      fun i _ s' => OpcodeAt i .call s'.fn.proc.instrs := by
  refine (yields_emitId ⟨rfl, fun b hb => ht _ hb b rfl⟩).keeps.tracks fun s => ?_
  unfold Records
  rw [← anys_opened]
  simp only [ends_emitId, append, ends_bind, ends_get, ends_tryProc, Proc.emit]
  by_cases hb : s.opened.fn.block < s.opened.fn.proc.blocks.size
  · simp only [if_pos hb, ends_modifyStats, recordCall]
    exact ⟨rfl, rfl, _, Array.getElem?_push_size, rfl⟩
  · simp only [if_neg hb]
    exact ⟨[], List.nil_prefix, rfl⟩

end Registers

end Lower

end ScriptC
