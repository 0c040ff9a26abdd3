import ScriptC.Proofs.Policies.Upkeep

/-! # Origins of instructions

Every instruction of a lowered tree comes from somewhere in the tree. Where its operands come from is
judged by the proc that the lowering of the function arrives at.
-/

namespace ScriptC

open Lower

/-- The instruction stays the same, or turns from a load into the store of a value. -/
def Instr.Becomes (i j : Instr) : Prop :=
  (j.opcode = i.opcode ∧ j.operands = i.operands) ∨
    ∃ value, i.opcode.storeCounterpart? = some j.opcode ∧ j.operands = i.operands ++ [value]

/-- The proc grows in its place: instructions and constants stay, though loads may turn into
stores. -/
structure Proc.Becomes (p q : Proc) : Prop where
  id : q.id = p.id
  parent : q.parent = p.parent
  constants : ∀ (k : Nat) (c : Constant), p.constants.get? k = some c →
    q.constants.get? k = some c
  instrs : ∀ (n : Nat) (i : Instr), p.instrs[n]? = some i →
    ∃ j, q.instrs[n]? = some j ∧ i.Becomes j

theorem Opcode.storeCounterpart?_of_store {opcode store : Opcode}
    (h : opcode.storeCounterpart? = some store) : store.storeCounterpart? = none := by
  cases opcode <;> cases h <;> rfl

theorem Instr.Becomes.trans {i j k : Instr} (h : i.Becomes j) (h' : j.Becomes k) :
    i.Becomes k := by
  rcases h with ⟨ho, hs⟩ | ⟨value, hstore, hs⟩
  · rcases h' with ⟨ho', hs'⟩ | ⟨value', hstore', hs'⟩
    · exact .inl ⟨ho'.trans ho, hs'.trans hs⟩
    · exact .inr ⟨value', ho ▸ hstore', hs ▸ hs'⟩
  · rcases h' with ⟨ho', hs'⟩ | ⟨value', hstore', -⟩
    · exact .inr ⟨value, ho' ▸ hstore, hs'.trans hs⟩
    · rw [Opcode.storeCounterpart?_of_store hstore] at hstore'
      cases hstore'

namespace Proc.Becomes

variable {p q r : Proc}

theorem refl (p : Proc) : p.Becomes p where
  id := rfl
  parent := rfl
  constants _ _ h := h
  instrs _ i h := ⟨i, h, .inl ⟨rfl, rfl⟩⟩

theorem trans (h : p.Becomes q) (h' : q.Becomes r) : p.Becomes r where
  id := h'.id.trans h.id
  parent := h'.parent.trans h.parent
  constants k c hk := h'.constants k c (h.constants k c hk)
  instrs n i hi := by
    obtain ⟨j, hj, hij⟩ := h.instrs n i hi
    obtain ⟨k, hk, hjk⟩ := h'.instrs n j hj
    exact ⟨k, hk, hij.trans hjk⟩

theorem of_extends (h : p.Extends q) (hid : q.id = p.id) (hparent : q.parent = p.parent) :
    p.Becomes q where
  id := hid
  parent := hparent
  constants := h.constants
  instrs n i hi := ⟨i, h.instrs n i hi, .inl ⟨rfl, rfl⟩⟩

theorem setPool (p : Proc) (kind : TempKind) (regs : Registers) : p.Becomes (p.setPool kind regs) := by
  refine .of_extends sameCode_setPool.extends ?_ ?_
  · cases kind <;> rfl
  · cases kind <;> rfl

theorem constant? (h : p.Becomes q) {o : Operand} {c : Constant} (hc : p.constant? o = some c) :
    q.constant? o = some c := by
  cases o <;> first | exact h.constants _ _ hc | cases hc

end Proc.Becomes

/-- The state is on the way to a proc. -/
def LoweringState.LeadsTo (f : Proc) (s : LoweringState) : Prop := s.fn.proc.Becomes f

/-- The state is on the way to a proc in its module. -/
structure LoweringState.Approaches (f : Site) (s : LoweringState) : Prop where
  proc : s.LeadsTo f.proc
  module : s.module.GrowsTo f.module

section Modules

theorem Module.growsTo_push (m : Module) (p : Proc) : m.GrowsTo ⟨m.procs.push p⟩ := by
  intro i q hq
  refine ⟨q, ?_, rfl⟩
  rw [Array.getElem?_push_lt (Array.getElem?_eq_some_iff.mp hq).1]
  exact congrArg some (Array.getElem?_eq_some_iff.mp hq).2

theorem Module.growsTo_set {m : Module} {id : Nat} {header p : Proc}
    (h : m.procs[id]? = some header) (hp : p.parent = header.parent) :
    m.GrowsTo ⟨m.procs.setIfInBounds id p⟩ := by
  intro i q hq
  by_cases hi : id = i
  · subst hi
    cases h.symm.trans hq
    exact ⟨p, Array.getElem?_setIfInBounds_self_of_lt (Array.getElem?_eq_some_iff.mp h).1, hp⟩
  · exact ⟨q, (Array.getElem?_setIfInBounds_ne hi).trans hq, rfl⟩

end Modules

section Policy

open Policy

variable (symbols : SymbolTable) (Occurs : Expr → Prop)

/-- The instruction has an origin on the way to the site. -/
def Site.Originates (f : Site) (i : Instr) : Prop :=
  Origin symbols Occurs (LoweringState.Approaches f) f.HasChild i.opcode i.operands i.targets

/-- Every instruction so far has an origin on the way to its proc, which is that of the site for
those at hand. -/
structure LoweringState.Originates (f : Site) (s : LoweringState) : Prop where
  current : ∀ i ∈ s.fn.proc.instrs, f.Originates symbols Occurs i
  finished : ∀ p ∈ s.module.procs, ∀ i ∈ p.instrs,
    Site.Originates symbols Occurs ⟨p, f.module⟩ i

/-- All instructions are to have an origin. -/
def Site.origins (f : Site) : Policy where
  Grows s s' := s.fn.proc.Becomes s'.fn.proc ∧ s.module.GrowsTo s'.module
  Leads := LoweringState.Approaches f
  Kept s := s.Originates symbols Occurs f
  Owns _ := True
  Emitted _ := True
  Child := f.HasChild
  grows_refl _ := ⟨.refl _, .refl _⟩
  grows_trans h h' := ⟨h.1.trans h'.1, h.2.trans h'.2⟩
  leads_of_grows h h' := ⟨h.1.trans h'.proc, h.2.trans h'.module⟩

variable {symbols Occurs} {α : Type} {f : Site} {P : Prop} {Q : α → Prop} {x : Lower α}

/-- An action that leaves the instructions alone. -/
theorem observes_origins_quiet (h : ∀ s, Ends x s (fun a s' => s.fn.proc.Becomes s'.fn.proc ∧
      s'.fn.proc.instrs = s.fn.proc.instrs ∧ s'.module = s.module ∧ Q a) fun _ _ => True) :
    (f.origins symbols Occurs).Observes P x Q := by
  intro s
  refine (h s).imp ?_
  rintro a s' ⟨hg, hi, hm, hQ⟩
  refine ⟨⟨hg, hm ▸ .refl _⟩, fun _ _ hs => ⟨⟨?_, ?_⟩, hQ⟩⟩
  · rw [hi]
    exact hs.current
  · rw [hm]
    exact hs.finished

theorem observes_origins_tryProc {g : Proc → Except Breach Proc}
    (hg : ∀ q q' : Proc, g q = .ok q' → q.Becomes q' ∧ q'.instrs = q.instrs) :
    (f.origins symbols Occurs).Observes P (tryProc fun q => return (← g q, ())) fun _ => True := by
  refine observes_origins_quiet fun s => ?_
  rw [ends_tryProc]
  cases hq : g s.fn.proc with
  | error b => trivial
  | ok q => exact ⟨(hg _ _ hq).1, (hg _ _ hq).2, rfl, trivial⟩

theorem observes_origins_append {opcode : Opcode} {operands targets : List Operand}
    (ho : P → f.Originates symbols Occurs ⟨opcode, operands, targets, 0⟩) :
    (f.origins symbols Occurs).Observes P (append opcode operands targets) fun _ => True := by
  intro s
  refine ends_append_proc.imp ?_
  rintro _ s' ⟨hb, -, -, hproc, hmodule⟩
  refine ⟨⟨?_, hmodule ▸ .refl _⟩, fun _ hP hs => ⟨⟨fun i hi => ?_, hmodule ▸ hs.finished⟩, trivial⟩⟩
  · rw [hproc]
    exact .of_extends (Proc.extends_appended hb) rfl rfl
  · rw [hproc] at hi
    rcases Array.mem_push.mp hi with hi | rfl
    · exact hs.current i hi
    · exact ho hP

variable (symbols Occurs f) in
/-- An instruction is changed that keeps an origin. -/
theorem originates_modify {s : LoweringState} {q : Proc} {n : Nat} {g : Instr → Instr}
    (hid : q.id = s.fn.proc.id) (hparent : q.parent = s.fn.proc.parent)
    (hc : q.constants = s.fn.proc.constants) (hi : q.instrs = s.fn.proc.instrs.modify n g)
    (hb : ∀ i, s.fn.proc.instrs[n]? = some i → i.Becomes (g i)) :
    s.fn.proc.Becomes q ∧ ((∀ i, s.fn.proc.instrs[n]? = some i → f.Originates symbols Occurs i →
      f.Originates symbols Occurs (g i)) → s.Originates symbols Occurs f →
      ∀ i ∈ q.instrs, f.Originates symbols Occurs i) := by
  constructor
  · refine ⟨hid, hparent, ?_, ?_⟩
    · rw [hc]
      exact fun _ _ h => h
    · intro k i hk
      rw [hi, Array.getElem?_modify]
      split
      · rename_i he
        subst he
        exact ⟨g i, by simp [hk], hb i hk⟩
      · exact ⟨i, hk, .inl ⟨rfl, rfl⟩⟩
  · intro ho hs i hm
    obtain ⟨k, hk⟩ := Array.getElem?_of_mem hm
    rw [hi, Array.getElem?_modify] at hk
    split at hk
    · rename_i he
      obtain ⟨j, hj, rfl⟩ := Option.map_eq_some_iff.mp hk
      rw [← he] at hj
      exact ho j hj (hs.current j (Array.mem_of_getElem? hj))
    · exact hs.current i (Array.mem_of_getElem? hk)

theorem observes_origins_turnIntoStore {load : Nat} {value : Operand} {tag : TypeTag}
    (hv : P → Origin.IsSource symbols Occurs (LoweringState.Approaches f) value tag) :
    (f.origins symbols Occurs).Observes P (turnIntoStore load value) fun _ => True := by
  intro s
  obtain ⟨hgrow, hsame⟩ : s.fn.proc.Becomes s.opened.fn.proc ∧
      s.opened.fn.proc.instrs = s.fn.proc.instrs := by
    unfold LoweringState.opened FunctionState.opened
    dsimp only
    split
    · exact ⟨.of_extends Proc.extends_newBlock rfl rfl, rfl⟩
    · exact ⟨.refl _, rfl⟩
  refine (ends_turnIntoStore load value s).imp ?_
  rintro _ s' ⟨instr, store, hinstr, hstore, hinstrs, -, -, hmodule, hid, hparent, hc⟩
  obtain ⟨hbecomes, hcurrent⟩ := originates_modify symbols Occurs f hid hparent hc hinstrs
    fun i hi => .inr ⟨value, by cases hinstr.symm.trans hi; exact hstore, rfl⟩
  refine ⟨⟨hgrow.trans hbecomes, hmodule ▸ .refl _⟩, fun _ hP hs =>
    ⟨⟨?_, hmodule ▸ hs.finished⟩, trivial⟩⟩
  refine hcurrent (fun i hi ho => ?_) ⟨hsame ▸ hs.current, hs.finished⟩
  cases hinstr.symm.trans hi
  exact .store ho hstore (hv hP)

/-- A function is judged by the proc that its own code arrives at. -/
theorem ends_of_observes {m : Module}
    (h : ∀ g : Proc, (Site.origins symbols Occurs ⟨g, m⟩).Observes True x fun _ => True)
    (s : LoweringState) : Ends x s (fun _ s' => s.fn.proc.Becomes s'.fn.proc ∧
      s.module.GrowsTo s'.module ∧ (s'.module.GrowsTo m →
        s.Originates symbols Occurs ⟨s'.fn.proc, m⟩ → s'.Originates symbols Occurs ⟨s'.fn.proc, m⟩))
      fun _ _ => True := by
  unfold Ends
  cases hx : x s with
  | ok a s' =>
    obtain ⟨hg, hk⟩ := (h s'.fn.proc s).of_ok hx
    exact ⟨hg.1, hg.2, fun hm hs => (hk ⟨.refl _, hm⟩ trivial hs).1⟩
  | error e s' => trivial

/-- A function that was only just begun has no code. -/
theorem originates_begun {s : LoweringState} {g p : Proc} {fn : FunctionState}
    (h : s.Originates symbols Occurs f) (hfn : fn.proc.instrs = #[]) (hp : p.instrs = #[]) :
    LoweringState.Originates symbols Occurs ⟨g, f.module⟩
      { s with module := ⟨s.module.procs.push p⟩, fn } where
  current := by simp [hfn]
  finished q hq i hi := by
    rcases Array.mem_push.mp hq with hq | rfl
    · exact h.finished q hq i hi
    · simp [hp] at hi

/-- The proc of a nested function is a child of the proc it is written in. -/
theorem observes_origins_function (func : Function) (parent : Option Nat) {body : Lower Unit}
    (h : ∀ g : Proc, (Site.origins symbols Occurs ⟨g, f.module⟩).Observes True
      (functionCode symbols func.params body) fun _ => True) :
    (f.origins symbols Occurs).Observes P (function symbols func parent body) fun id =>
      ∃ q, f.module.procs[id]? = some q ∧ q.parent = parent := by
  intro s
  rw [function, ends_bind]
  refine (ends_resolveUpvalues symbols func parent s).mono ?_ fun _ _ _ => trivial
  rintro resolved s₁ rfl
  by_cases hp : parent.all (· ≤ s₁.module.procs.size) = true
  · simp only [newProc, Module.newProc, hp, if_true, ends_bind, ends_get, ends_modify, ends_pure,
      ends_modifyFn, ends_modifyStats]
    refine (ends_of_observes h _).mono ?_ fun _ _ _ => trivial
    rintro - s' ⟨hproc, hmodule, hcode⟩
    obtain ⟨header, hheader, hparent⟩ := hmodule s₁.module.procs.size _ Array.getElem?_push_size
    have hset := Module.growsTo_set hheader (hproc.parent.trans hparent.symm)
    refine ⟨⟨.refl _, (Module.growsTo_push _ _).trans (hmodule.trans hset)⟩, fun hf _ hs => ?_⟩
    obtain ⟨hcurrent, hfinished⟩ := hcode (hset.trans hf.module) (originates_begun hs rfl rfl)
    refine ⟨⟨hs.current, fun p hm => ?_⟩, ?_⟩
    · rcases Array.mem_or_eq_of_mem_setIfInBounds hm with hm | rfl
      · exact hfinished p hm
      · exact hcurrent
    · obtain ⟨q, hq, he⟩ := hf.module s₁.module.procs.size s'.fn.proc
        (Array.getElem?_setIfInBounds_self_of_lt (Array.getElem?_eq_some_iff.mp hheader).1)
      exact ⟨q, hq, he.trans hproc.parent⟩
  · simp [newProc, Module.newProc, hp]

/-- Every lowering gives origins to what it emits. -/
theorem lawful_origins (m : Module) :
    Lawful symbols Occurs fun p : Proc => Site.origins symbols Occurs ⟨p, m⟩ where
  owns _ _ _ := trivial
  modifyFn _ g hg := observes_origins_quiet fun s => by
    refine ⟨?_, ?_, rfl, trivial⟩
    · rw [hg]
      exact .refl _
    · rw [hg]
  newBlock _ := observes_origins_quiet fun s =>
    ⟨.of_extends Proc.extends_newBlock rfl rfl, rfl, rfl, trivial⟩
  append _ _ _ _ _ h := observes_origins_append fun hP => (h hP).2
  allocTemp _ kind := observes_origins_quiet fun s =>
    ⟨.setPool _ _ _, Proc.sameCode_allocTemp.instrs, rfl, trivial⟩
  free _ _ o _ := observes_origins_tryProc fun q q' hf => by
    rcases Proc.freeTemp_ok hf with ⟨-, rfl⟩ | ⟨kind, reg, regs, -, -, rfl⟩
    · exact ⟨.refl _, rfl⟩
    · exact ⟨.setPool _ _ _, Proc.sameCode_setPool.instrs⟩
  reserveTemp _ reg := observes_origins_tryProc fun q q' ht => by
    obtain ⟨regs, rfl⟩ := Proc.reserveTemp_ok ht
    exact ⟨.setPool _ _ _, rfl⟩
  constant _ c := observes_origins_quiet fun s => by
    simp only [constant, ends_bind, ends_onProc]
    split <;> exact ⟨.of_extends Proc.extends_intern rfl rfl, rfl, rfl, trivial⟩
  setTarget _ _ call n k h := by
    intro s
    rw [ends_setTarget]
    split
    · obtain ⟨hbecomes, hcurrent⟩ := originates_modify symbols Occurs ⟨_, m⟩
        (s := s) (n := call) (g := fun i => { i with targets := i.targets.set 1 k })
        (q := { s.fn.proc with instrs := s.fn.proc.instrs.modify call fun i =>
          { i with targets := i.targets.set 1 k } }) rfl rfl rfl rfl fun i _ => .inl ⟨rfl, rfl⟩
      exact ⟨⟨hbecomes, .refl _⟩, fun _ hP hs =>
        ⟨⟨hcurrent (fun i _ ho => .ask ho (h hP).2.2) hs, hs.finished⟩, trivial⟩⟩
    · trivial
  turnIntoStore _ _ load value tag h := observes_origins_turnIntoStore fun hP => (h hP).2
  allocLocal _ := observes_origins_quiet fun s =>
    ⟨⟨rfl, rfl, fun _ _ h => h, fun _ i h => ⟨i, h, .inl ⟨rfl, rfl⟩⟩⟩, rfl, rfl, trivial⟩
  freeLocal _ reg := observes_origins_tryProc fun q q' ht => by
    obtain ⟨regs, rfl⟩ := Proc.freeLocal_ok ht
    exact ⟨⟨rfl, rfl, fun _ _ h => h, fun _ i h => ⟨i, h, .inl ⟨rfl, rfl⟩⟩⟩, rfl⟩
  function p func body h := by
    intro s
    refine (observes_origins_function (f := ⟨p, m⟩) (P := True) func (some s.fn.proc.id) h s).mono ?_
      fun _ _ _ => trivial
    rintro id s' ⟨hg, hk⟩
    refine ⟨hg, fun hl hP hs => ?_⟩
    obtain ⟨hs', q, hq, hparent⟩ := hk hl hP hs
    exact ⟨hs', q, hq, hparent.trans (congrArg some (hg.1.trans hl.proc).id.symm)⟩

end Policy

/-- Every instruction of a lowered tree has an origin in the tree. -/
theorem Tree.origin_of_lower {t : Tree} {stats : Stats} {m : Module}
    (h : (t.lower stats).2 = .ok m) : ∀ p ∈ m.procs, ∀ i ∈ p.instrs,
      Site.Originates t.symbols (· ∈ t.occurrences) ⟨p, m⟩ i := by
  unfold lower lowering at h
  split at h
  · rename_i id s hrun
    cases h
    have hlaw : Policy.Lawful t.symbols (· ∈ t.occurrences)
        fun p : Proc => Site.origins t.symbols (· ∈ t.occurrences) ⟨p, s.module⟩ :=
      lawful_origins s.module
    have hoccurs : ∀ s ∈ t.main.body, ∀ x ∈ s.occurrences, x ∈ t.occurrences := by
      refine Stmt.forall_occurrencesOf.mp fun x hx => ?_
      rw [occurrences]
      cases hm : t.main
      rw [hm] at hx
      exact hx
    have hbody := Policy.Lawful.ofBlock (hlaw.treeCases.stmts t.main.body) hoccurs
    have hmain := ((observes_origins_function (f := ⟨s.fn.proc, s.module⟩) (P := True) t.main none
      fun g => hlaw.functionCode t.main.params hbody) _).of_ok hrun
    exact (hmain.2 ⟨.refl _, .refl _⟩ trivial ⟨by simp, by simp⟩).1.finished
  · cases h

end ScriptC
