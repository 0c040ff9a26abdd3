import ScriptC.Proofs.Generation.Frames
import ScriptC.Proofs.Generation.Trees

/-! # Units of typed trees

The host grants every request that the generation of a unit makes, since prototypes are created
before they are used. So a unit is generated for every typed tree that can be lowered, unless a frame
has more slots than can be numbered.
-/

namespace ScriptC

section Requests

namespace Host

variable {h : Host} {proto : Nat}

theorem update_ok (hp : proto < h.prototypes.size) (f : Prototype → Prototype) (e : HostEvent) :
    ∃ h', h.update proto f e = .ok h' ∧ h'.prototypes.size = h.prototypes.size :=
  ⟨_, if_pos hp, Array.size_modify⟩

theorem internString_ok (hp : proto < h.prototypes.size) (value : String) :
    ∃ h' index, h.internString proto value = .ok (h', index) ∧
      h'.prototypes.size = h.prototypes.size := by
  unfold internString
  extract_lets strings
  split
  · obtain ⟨h', hu, hs⟩ := update_ok hp id (.internString proto value _)
    exact ⟨h', _, by rw [hu]; rfl, hs⟩
  · obtain ⟨h', hu, hs⟩ := update_ok hp _ (.internString proto value _)
    exact ⟨h', _, by rw [hu]; rfl, hs⟩

theorem newChild_ok (hp : proto < h.prototypes.size) :
    ∃ h', h.newChild proto = .ok (h', h.prototypes.size) ∧
      h'.prototypes.size = h.prototypes.size + 1 := by
  obtain ⟨h', hu, hs⟩ := update_ok hp _ (.newChild proto h.prototypes.size)
  refine ⟨{ h' with prototypes := h'.prototypes.push { parent := some proto } }, ?_, ?_⟩
  · rw [newChild, hu]
    rfl
  · rw [Array.size_push, hs]

end Host

end Requests

namespace Generate

variable {α β γ : Type} {E : Failure → Prop} {P : GenerationState → Prop}
  {Q : α → GenerationState → Prop} {R : β → GenerationState → Prop}

/-- From every state with `P`, success of `x` ends in `Q`, and `E` holds of every failure. -/
def Runs (E : Failure → Prop) (P : GenerationState → Prop) (x : Generate α)
    (Q : α → GenerationState → Prop) : Prop :=
  ∀ s, P s → match x s with
    | .ok a s' => Q a s'
    | .error e _ => E e

theorem Runs.bind {x : Generate α} {f : α → Generate β} (hx : Runs E P x Q)
    (hf : ∀ a, Runs E (Q a) (f a) R) : Runs E P (x >>= f) R := by
  intro s hs
  have h := hx s hs
  change match EStateM.bind x f s with
    | .ok b s' => R b s'
    | .error e _ => E e
  unfold EStateM.bind
  cases hr : x s with
  | ok a s' =>
    rw [hr] at h
    exact hf a s' h
  | error e s' =>
    rw [hr] at h
    exact h

theorem Runs.post {x : Generate α} {Q' : α → GenerationState → Prop} (hx : Runs E P x Q)
    (h : ∀ a s, Q a s → Q' a s) : Runs E P x Q' := by
  intro s hs
  have := hx s hs
  split
  · simp_all
  · simp_all

theorem runs_pure {a : α} (h : ∀ s, P s → Q a s) : Runs E P (pure a) Q := h

/-- A part of the precondition that is not about the state can be taken out. -/
theorem Runs.of_and {A : Prop} {x : Generate α} (h : A → Runs E P x Q) :
    Runs E (fun s => P s ∧ A) x Q :=
  fun s hs => h hs.2 s hs.1

theorem runs_get : Runs E P get fun a s => s = a ∧ P s := fun _ hs => ⟨rfl, hs⟩

theorem runs_forM {f : γ → Generate Unit} {l : List γ}
    (h : ∀ c ∈ l, Runs E P (f c) fun _ => P) : Runs E P (l.forM f) fun _ => P := by
  induction l with
  | nil => exact runs_pure fun _ hs => hs
  | cons c l ih =>
    obtain ⟨hc, hl⟩ := List.forall_mem_cons.mp h
    exact hc.bind fun _ => ih hl

/-- Everything has a result, and what is known of each is known of all. -/
theorem runs_mapM {f : γ → Generate α} {l : List γ} {T : γ → α → Prop}
    (h : ∀ c, Runs E P (f c) fun a s => P s ∧ T c a) :
    Runs E P (l.mapM f) fun as s => P s ∧ ∀ c ∈ l, ∃ a ∈ as, T c a := by
  induction l with
  | nil => exact runs_pure fun _ hs => ⟨hs, by simp⟩
  | cons c l ih =>
    rw [List.mapM_cons]
    refine (h c).bind fun a s ⟨hs, ha⟩ => (ih.bind fun as => runs_pure ?_) s hs
    rintro s' ⟨hs', has⟩
    refine ⟨hs', List.forall_mem_cons.mpr ⟨⟨a, List.mem_cons_self, ha⟩, fun d hd => ?_⟩⟩
    obtain ⟨b, hb, hT⟩ := has d hd
    exact ⟨b, List.mem_cons_of_mem a hb, hT⟩

/-- The host has this many prototypes, and the unit is as far as this. -/
def Stands (n : Nat) (u : GeneratedUnit) (s : GenerationState) : Prop :=
  s.host.prototypes.size = n ∧ s.unit = u

variable {n proto : Nat} {u : GeneratedUnit} {p : Proc} {m : Module} {options : Options}

theorem runs_request {f : Host → Except HostFault (Host × α)} {k : Nat} {T : α → Prop}
    (h : ∀ host : Host, host.prototypes.size = n →
      ∃ host' a, f host = .ok (host', a) ∧ host'.prototypes.size = k ∧ T a) :
    Runs E (Stands n u) (request f) fun a s => Stands k u s ∧ T a := by
  refine runs_get.bind fun start => ?_
  rintro s ⟨rfl, hs, hu⟩
  obtain ⟨host', a, hf, hk, ha⟩ := h s.host hs
  rw [hf]
  exact ⟨⟨hk, hu⟩, ha⟩

theorem runs_tell {f : Host → Except HostFault Host}
    (h : ∀ host : Host, host.prototypes.size = n →
      ∃ host', f host = .ok host' ∧ host'.prototypes.size = host.prototypes.size) :
    Runs E (Stands n u) (tell f) fun _ => Stands n u := by
  have hr : Runs E (Stands n u) (tell f) fun _ s => Stands n u s ∧ True := by
    refine runs_request fun host hn => ?_
    obtain ⟨host', hf, hs⟩ := h host hn
    exact ⟨host', (), by rw [hf]; rfl, hs.trans hn, trivial⟩
  exact hr.post fun _ _ => And.left

theorem mem_stringConstants {k : Nat} {value : String}
    (h : p.constants.get? k = some (.string value)) : (k, value) ∈ stringConstants p := by
  refine List.mem_filterMap.mpr ⟨(.string value, k), ?_, rfl⟩
  rw [List.mem_zipIdx_iff_getElem?, Array.getElem?_toList]
  exact h

/-- Every string of the pool gets a place in the prototype. -/
theorem runs_strings (hproto : proto < n) :
    Runs E (Stands n u) ((stringConstants p).mapM fun (k, s) =>
      return (k, ← request (·.internString proto s)))
      fun strings s => Stands n u s ∧ ∀ k value, p.constants.get? k = some (.string value) →
        ∃ i, strings.lookup k = some i := by
  have hkeys : Runs E (Stands n u) ((stringConstants p).mapM fun (k, s) =>
      return (k, ← request (·.internString proto s)))
      fun strings s => Stands n u s ∧ ∀ c ∈ stringConstants p, ∃ a ∈ strings, a.1 = c.1 := by
    refine runs_mapM fun (k, value) => ?_
    refine (runs_request (T := fun _ => True) (k := n) fun host hn => ?_).bind fun index =>
      runs_pure fun s hs => ⟨hs.1, rfl⟩
    obtain ⟨host', index, hi, hs⟩ := Host.internString_ok (hn ▸ hproto) value
    exact ⟨host', index, hi, hs.trans hn, trivial⟩
  refine hkeys.post fun strings s ⟨hs, h⟩ => ⟨hs, fun k value hk => ?_⟩
  obtain ⟨⟨k', index⟩, hmem, rfl⟩ := h _ (mem_stringConstants hk)
  rw [← Option.isSome_iff_exists, List.lookup_isSome_iff]
  exact ⟨_, hmem, beq_self_eq_true _⟩

theorem runs_proc (hproto : proto < n)
    (hover : ∀ b, Frame.compute p = .error b → E (.stopped b))
    (hcode : ∀ frame strings, Frame.compute p = .ok frame →
      (∀ k value, p.constants.get? k = some (.string value) → ∃ i, strings.lookup k = some i) →
      ∃ unit, CodeContext.unit ⟨p, m.children p.id, frame, strings⟩ (options.functionName p.id) =
        .ok unit) :
    Runs E (Stands n u) (proc options m p proto) fun _ s =>
      s.host.prototypes.size = n ∧ ∀ f ∈ s.unit.functions, f ∈ u.functions ∨ f.prototype = proto := by
  refine (runs_forM fun upvalue _ => runs_tell fun host hn => Host.update_ok (hn ▸ hproto) _ _).bind
    fun _ => (runs_tell fun host hn => Host.update_ok (hn ▸ hproto) _ _).bind fun _ =>
    (runs_strings hproto).bind fun strings => .of_and fun hstrings => ?_
  cases hframe : Frame.compute p with
  | error b => exact fun _ _ => hover b hframe
  | ok frame =>
    obtain ⟨unit, hunit⟩ := hcode frame strings hframe hstrings
    simp only [pure_bind, hunit]
    refine (runs_tell fun host hn => Host.update_ok (hn ▸ hproto) _ _).bind fun _ => ?_
    rintro s ⟨hs, rfl⟩
    refine ⟨hs, fun f hf => ?_⟩
    rcases List.mem_append.mp hf with hf | hf
    · exact Or.inl hf
    · rw [List.mem_singleton.mp hf]
      exact Or.inr rfl

/-- The prototypes that are in use exist. -/
structure Rooted (root : Nat) (s : GenerationState) : Prop where
  root_lt : root < s.host.prototypes.size
  functions : ∀ f ∈ s.unit.functions, f.prototype < s.host.prototypes.size

theorem runs_prototype (root : Nat) :
    Runs E (Rooted root) (prototype root p) fun proto s =>
      Rooted root s ∧ proto < s.host.prototypes.size := by
  refine runs_get.bind fun start => ?_
  rintro s ⟨rfl, hs⟩
  cases hf : s.unit.functions.find? fun f => some f.proc == p.parent with
  | none => exact ⟨hs, hs.root_lt⟩
  | some f =>
    have hlt := hs.functions f (List.mem_of_find?_eq_some hf)
    refine (runs_request (k := s.host.prototypes.size + 1) (T := (· = s.host.prototypes.size))
      fun host hn => ?_).post ?_ s ⟨rfl, rfl⟩
    · obtain ⟨host', hc, hs'⟩ := Host.newChild_ok (hn ▸ hlt)
      exact ⟨host', _, hc, hn ▸ hs', hn⟩
    · rintro _ s' ⟨⟨hsize, hu⟩, rfl⟩
      refine ⟨⟨?_, fun g hg => ?_⟩, ?_⟩
      · exact hsize ▸ Nat.lt_succ_of_lt hs.root_lt
      · exact hsize ▸ Nat.lt_succ_of_lt (hs.functions g (hu ▸ hg))
      · exact hsize ▸ Nat.lt_succ_self _

theorem runs_procs {ids : List Nat} (root : Nat)
    (hover : ∀ p ∈ m.procs, ∀ b, Frame.compute p = .error b → E (.stopped b))
    (hcode : ∀ p ∈ m.procs, ∀ frame strings, Frame.compute p = .ok frame →
      (∀ k value, p.constants.get? k = some (.string value) → ∃ i, strings.lookup k = some i) →
      ∃ unit, CodeContext.unit ⟨p, m.children p.id, frame, strings⟩ (options.functionName p.id) =
        .ok unit)
    (hids : ∀ id ∈ ids, id < m.procs.size) :
    Runs E (Rooted root) (procs options m root ids) fun _ => Rooted root := by
  refine runs_forM fun id hid => ?_
  have hlt := hids id hid
  rw [Array.getElem?_eq_getElem hlt]
  have hp : m.procs[id] ∈ m.procs := Array.getElem_mem hlt
  refine (runs_prototype root).bind fun proto s ⟨hs, hproto⟩ => ?_
  refine (runs_proc hproto (hover _ hp) (hcode _ hp)).post ?_ s ⟨rfl, rfl⟩
  rintro _ s' ⟨hsize, hf⟩
  refine ⟨hsize ▸ hs.root_lt, fun f hmem => ?_⟩
  rw [hsize]
  rcases hf f hmem with hf | rfl
  · exact hs.functions f hf
  · exact hproto

end Generate

section Modules

variable {m : Module} {p : Proc}

/-- Every proc stands at its number, its blocks are in order and its instructions are admitted. -/
structure Module.Coherent (m : Module) : Prop where
  ids : ∀ (i : Nat) (p : Proc), m.procs[i]? = some p → p.id = i
  blocks : ∀ p ∈ m.procs, p.BlockDiscipline
  code : ∀ p ∈ m.procs, ∀ i ∈ p.instrs, Site.Admits ⟨p, m⟩ i.opcode i.operands i.targets

namespace Module.Coherent

theorem mem_children (h : m.Coherent) {child : Nat} (hc : Site.HasChild ⟨p, m⟩ child) :
    child ∈ m.children p.id := by
  obtain ⟨q, hq, hparent⟩ := hc
  refine List.mem_map.mpr ⟨q, List.mem_filter.mpr ⟨?_, ?_⟩, h.ids child q hq⟩
  · exact Array.mem_toList_iff.mpr (Array.mem_of_getElem? hq)
  · rw [hparent]
    exact beq_self_eq_true _

/-- Once a proc has a frame and its strings a place, it has a function. -/
theorem unit_ok (h : m.Coherent) (hp : p ∈ m.procs) {frame : Frame} {strings : List (Nat × Nat)}
    (hf : Frame.compute p = .ok frame)
    (hs : ∀ k value, p.constants.get? k = some (.string value) → ∃ i, strings.lookup k = some i)
    (name : String) :
    ∃ unit, CodeContext.unit ⟨p, m.children p.id, frame, strings⟩ name = .ok unit := by
  have hframe := Frame.accommodates_of_compute hf
  exact CodeContext.Complete.unit ⟨hs, hframe.numLocals_eq, hframe.temps_lt⟩ (h.blocks p hp)
    (h.code p hp) (fun i hi o => hframe.reaches hi) (fun child => h.mem_children) name

/-- The flow of control does not matter. -/
theorem withFlow (h : m.Coherent) (id : Nat) (flow : Option Flow) :
    Coherent ⟨m.procs.modify id fun p => { p with flow }⟩ := by
  have hprocs : ∀ (i : Nat) (p : Proc),
      (m.procs.modify id fun p => { p with flow })[i]? = some p →
        ∃ q flow, m.procs[i]? = some q ∧ p = { q with flow } := by
    intro i p hp
    rw [Array.getElem?_modify] at hp
    split at hp
    · obtain ⟨q, hq, rfl⟩ := Option.map_eq_some_iff.mp hp
      exact ⟨q, flow, hq, rfl⟩
    · exact ⟨p, p.flow, hp, rfl⟩
  have hgrows : m.GrowsTo ⟨m.procs.modify id fun p => { p with flow }⟩ := by
    intro i q hq
    simp only [Array.getElem?_modify, hq]
    split
    · exact ⟨_, rfl, rfl⟩
    · exact ⟨_, rfl, rfl⟩
  refine ⟨fun i p hp => ?_, fun p hp => ?_, fun p hp => ?_⟩
  · obtain ⟨q, flow, hq, rfl⟩ := hprocs i p hp
    exact h.ids i q hq
  · obtain ⟨i, hi⟩ := Array.mem_iff_getElem?.mp hp
    obtain ⟨q, flow, hq, rfl⟩ := hprocs i p hi
    exact (h.blocks q (Array.mem_of_getElem? hq)).withFlow flow
  · obtain ⟨i, hi⟩ := Array.mem_iff_getElem?.mp hp
    obtain ⟨q, flow, hq, rfl⟩ := hprocs i p hi
    exact fun j hj => (h.code q (Array.mem_of_getElem? hq) j hj).withFlow hgrows flow

theorem lt_of_mem_preorder (h : m.Coherent) {ids : List Nat}
    (hids : ids = match m.root? with
      | some r => m.preorder m.procs.size r
      | none => []) : ∀ id ∈ ids, id < m.procs.size := by
  cases hr : m.root? with
  | none => simp [hids, hr]
  | some r =>
    have hroot : r < m.procs.size := by
      simp only [Module.root?, Option.ite_none_left_eq_some, Option.some.injEq] at hr
      obtain ⟨hne, rfl⟩ := hr
      exact Nat.pos_of_ne_zero (mt Array.isEmpty_iff_size_eq_zero.mpr hne)
    rw [hids, hr]
    exact Module.lt_size_of_mem_preorder h.ids hroot

/-- A frame that cannot be computed is all that can stop the generation. -/
theorem generate (h : m.Coherent) {host : Host} {root : Nat} (hroot : root < host.prototypes.size)
    (options : Options) (stats : Stats) :
    (∃ unit, (m.generate options host root stats).2.2 = .ok unit) ∨
      ((m.generate options host root stats).2.2 = .error (.stopped .overflow) ∧
        ∃ p ∈ m.procs, Frame.compute p = .error .overflow) := by
  unfold Module.generate
  extract_lets source ids
  have hrun : Generate.Runs (fun e => e = .stopped .overflow ∧
      ∃ p ∈ m.procs, Frame.compute p = .error .overflow) (Generate.Rooted root)
      (Generate.procs options m root ids) fun _ => Generate.Rooted root := by
    refine Generate.runs_procs root (fun p hp b hb => ?_)
      (fun p hp frame strings hf hs => h.unit_ok hp hf hs _) (h.lt_of_mem_preorder rfl)
    have hover := Frame.attains_compute p
    rw [hb] at hover
    exact ⟨congrArg Failure.stopped hover, p, hp, hover ▸ hb⟩
  have hs := hrun { host, stats, unit := { source } } ⟨hroot, by simp⟩
  split
  · exact Or.inl ⟨_, rfl⟩
  · rename_i e s he
    rw [he] at hs
    obtain ⟨rfl, hover⟩ := hs
    exact Or.inr ⟨rfl, hover⟩

end Module.Coherent

end Modules

namespace Tree

variable {t : Tree} {stats : Stats} {m : Module}

theorem coherent_lower (ht : t.isTyped = true) (h : (t.lower stats).2 = .ok m) : m.Coherent where
  ids i p hp := (lower_finished h i p hp).1
  blocks p hp := by
    obtain ⟨i, hi⟩ := Array.mem_iff_getElem?.mp hp
    exact (lower_finished h i p hi).2
  code := lower_admits ht h

theorem coherent_analyse (ht : t.isTyped = true) (h : (t.analyse stats).2 = .ok m) :
    m.Coherent :=
  of_analyse (fun _ id flow hm => hm.withFlow id flow) (fun _ => coherent_lower ht) h

/-- A unit can be generated for every typed tree that can be lowered, unless a frame has more slots
than can be numbered. -/
theorem generate_of_isTyped (ht : t.isTyped = true) (h : (t.analyse stats).2 = .ok m)
    (options : Options) (stats' : Stats) :
    (∃ unit, (m.generate options {} Host.root stats').2.2 = .ok unit) ∨
      ((m.generate options {} Host.root stats').2.2 = .error (.stopped .overflow) ∧
        ∃ p ∈ m.procs, Frame.compute p = .error .overflow) := by
  exact (coherent_analyse ht h).generate (by decide) options stats'

/-- A nested function adds to a captured variable, and is called for every element of an array. -/
def sumOfArray : Tree where
  symbols := ⟨#[⟨"xs", .integerArray, .localOf 0⟩, ⟨"i", .integer, .localOf 0⟩,
    ⟨"sum", .integer, .localOf 0⟩, ⟨"add", .any, .localOf 0⟩, ⟨"sum", .integer, .upvalue 2 0⟩,
    ⟨"x", .integer, .localOf 1⟩, ⟨"out", .any, .global⟩]⟩
  main :=
    { id := 0, name := none, params := [], isVararg := false, upvalues := []
      body :=
        [.declare [0, 2] [⟨.integerArray, .table [.positional ⟨.integer, .integer 3⟩,
            .keyed ⟨.integer, .integer 2⟩ ⟨.integer, .integer 4⟩]⟩, ⟨.integer, .integer 0⟩],
          .declareFunction 3
            { id := 1, name := some "add", params := [5], isVararg := false, upvalues := [4]
              body := [.assign [⟨.integer, .symbol 4⟩] [⟨.integer,
                .binary .add ⟨.integer, .symbol 4⟩ ⟨.integer, .symbol 5⟩⟩]] },
          .numericFor 1 ⟨.integer, .integer 1⟩ ⟨.integer, .unary .len ⟨.integerArray, .symbol 0⟩⟩
            none [.eval ⟨.any, .call ⟨.any, .symbol 3⟩
              [⟨.integer, .index ⟨.integerArray, .symbol 0⟩ ⟨.integer, .symbol 1⟩⟩]⟩],
          .eval ⟨.any, .methodCall ⟨.any, .symbol 6⟩ "write" [⟨.string, .string "sum"⟩]⟩,
          .assign [⟨.any, .index ⟨.any, .symbol 6⟩ ⟨.string, .string "sum"⟩⟩]
            [⟨.integer, .symbol 2⟩],
          .ret [⟨.any, .call ⟨.any, .symbol 6⟩ [⟨.integer, .symbol 2⟩]⟩]] }

theorem sumOfArray_generates : sumOfArray.isTyped = true ∧
    ∃ m, (sumOfArray.analyse {}).2 = .ok m ∧
      ∃ unit, (m.generate {} {} Host.root {}).2.2 = .ok unit := by
  have ht : sumOfArray.isTyped = true := by decide
  have hframes : (match (sumOfArray.analyse {}).2 with
      | .ok m => m.procs.all fun p => (Frame.compute p).isOk
      | .error _ => false) = true := by decide +kernel
  refine ⟨ht, ?_⟩
  cases hm : (sumOfArray.analyse {}).2 with
  | error e => simp [hm] at hframes
  | ok m =>
    refine ⟨m, rfl, ?_⟩
    rcases generate_of_isTyped ht hm {} {} with h | ⟨-, p, hp, hover⟩
    · exact h
    · simp only [hm, Array.all_eq_true'] at hframes
      have := hframes p hp
      rw [hover] at this
      cases this

end Tree

end ScriptC
