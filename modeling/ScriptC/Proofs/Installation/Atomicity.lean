import ScriptC.Proofs.Mirror.Units

/-! # Compilation is all or nothing

Until the host has compiled a unit, no function is attached to a prototype, however the generation of
the unit ends. Once it has, every function is found in the C and every attachment is granted. So a
compilation that fails leaves a host that has compiled nothing, and one that succeeds leaves a host
with a function for each prototype.
-/

namespace ScriptC

open CodeContext (bind_eq_ok)

/-- A request that prepares a prototype for code. -/
def HostEvent.IsSetup : HostEvent → Prop
  | .compile _ | .lookup _ | .attach _ _ => False
  | _ => True

/-- The host has compiled nothing, and its prototypes have no functions. -/
structure Host.Idle (host : Host) : Prop where
  functions : ∀ P ∈ host.prototypes, P.function = none
  source : host.source = none
  events : ∀ e ∈ host.events, e.IsSetup

section Requests

/-- What every request but that to compile keeps: the host is idle, and would refuse for the same
reason. -/
structure Host.Awaits (reason : Option String) (host : Host) : Prop extends host.Idle where
  refusal : host.refusal = reason

namespace Host.Awaits

variable {reason : Option String} {host host' : Host} {proto : Nat} {value : String} {place : Nat}

theorem fresh (reason : Option String) : Awaits reason { refusal := reason } := by
  constructor
  · constructor
    · simp
    · rfl
    · simp
  · rfl

theorem update (h : host.Awaits reason) {f : Prototype → Prototype} {e : HostEvent}
    (hr : host.update proto f e = .ok host') (hf : ∀ P, (f P).function = P.function)
    (he : e.IsSetup) : host'.Awaits reason := by
  unfold Host.update at hr
  split at hr
  · cases hr
    constructor
    · constructor
      · intro P hP
        obtain ⟨Q, hQ, rfl | rfl⟩ := Array.exists_of_mem_modify hP
        · exact h.functions P hQ
        · rw [hf]
          exact h.functions Q hQ
      · exact h.source
      · intro d hd
        rcases Array.mem_push.mp hd with hd | rfl
        · exact h.events d hd
        · exact he
    · exact h.refusal
  · cases hr

theorem newChild {child : Nat} (h : host.Awaits reason)
    (hr : host.newChild proto = .ok (host', child)) : host'.Awaits reason := by
  unfold Host.newChild at hr
  extract_lets next at hr
  obtain ⟨updated, hu, hr⟩ := bind_eq_ok hr
  obtain ⟨rfl, -⟩ := Prod.mk.inj (Except.ok.inj hr)
  have hupdated : updated.Awaits reason := h.update hu (fun _ => rfl) trivial
  constructor
  · constructor
    · intro P hP
      rcases Array.mem_push.mp hP with hP | rfl
      · exact hupdated.functions P hP
      · rfl
    · exact hupdated.source
    · exact hupdated.events
  · exact hupdated.refusal

theorem internString (h : host.Awaits reason)
    (hr : host.internString proto value = .ok (host', place)) : host'.Awaits reason := by
  unfold Host.internString at hr
  extract_lets strings index at hr
  split at hr <;>
  · obtain ⟨updated, hu, hr⟩ := bind_eq_ok hr
    obtain ⟨rfl, -⟩ := Prod.mk.inj (Except.ok.inj hr)
    exact h.update hu (fun _ => rfl) trivial

end Host.Awaits

end Requests

namespace Generate

variable {α β γ : Type} {I : Host → Prop} {x : Generate α}

/-- However `x` ends, `I` holds of the host afterwards if it held before. -/
def Keeps (I : Host → Prop) (x : Generate α) : Prop :=
  ∀ s, I s.host → match x s with
    | .ok _ s' => I s'.host
    | .error _ s' => I s'.host

theorem keeps_pure (a : α) : Keeps I (pure a : Generate α) := fun _ hs => hs

theorem keeps_throw (e : Failure) : Keeps I (throw e : Generate α) := fun _ hs => hs

theorem keeps_get : Keeps I (get : Generate GenerationState) := fun _ hs => hs

theorem Keeps.bind {f : α → Generate β} (hx : Keeps I x) (hf : ∀ a, Keeps I (f a)) :
    Keeps I (x >>= f) := by
  intro s hs
  have h := hx s hs
  change match EStateM.bind x f s with
    | .ok _ s' => I s'.host
    | .error _ s' => I s'.host
  unfold EStateM.bind
  cases hr : x s with
  | ok a s' =>
    rw [hr] at h
    exact hf a s' h
  | error e s' =>
    rw [hr] at h
    exact h

theorem keeps_forM {f : γ → Generate Unit} (h : ∀ c, Keeps I (f c)) (l : List γ) :
    Keeps I (l.forM f) := by
  induction l with
  | nil => exact keeps_pure ()
  | cons c l ih => exact (h c).bind fun _ => ih

theorem keeps_mapM {f : γ → Generate α} (h : ∀ c, Keeps I (f c)) (l : List γ) :
    Keeps I (l.mapM f) := by
  induction l with
  | nil => exact keeps_pure []
  | cons c l ih =>
    rw [List.mapM_cons]
    exact (h c).bind fun a => ih.bind fun as => keeps_pure (a :: as)

theorem keeps_request {f : Host → Except HostFault (Host × α)}
    (h : ∀ host host' a, I host → f host = .ok (host', a) → I host') : Keeps I (request f) := by
  intro s hs
  have hget : (get : Generate GenerationState) s = .ok s s := rfl
  simp only [request, bind, EStateM.bind, hget]
  cases hf : f s.host with
  | error e => exact hs
  | ok r => exact h s.host r.1 r.2 hs hf

variable {reason : Option String} {options : Options} {m : Module}

theorem keeps_update {f : Prototype → Prototype} {e : HostEvent} {proto : Nat}
    (hf : ∀ P, (f P).function = P.function) (he : e.IsSetup) :
    Keeps (Host.Awaits reason) (tell (·.update proto f e)) := by
  apply keeps_request
  intro host host' a hI hr
  obtain ⟨updated, hu, hr⟩ := bind_eq_ok hr
  cases hr
  exact hI.update hu hf he

theorem keeps_proc (p : Proc) (proto : Nat) :
    Keeps (Host.Awaits reason) (proc options m p proto) := by
  have hupvalue (u : Upvalue) : Keeps (Host.Awaits reason) (tell (·.declareUpvalue proto u)) :=
    keeps_update (fun _ => rfl) trivial
  have hstring (s : String) : Keeps (Host.Awaits reason) (request (·.internString proto s)) :=
    keeps_request fun _ _ _ => .internString
  have hparams : Keeps (Host.Awaits reason) (tell (·.setParams proto p.params)) :=
    keeps_update (fun _ => rfl) trivial
  have hslots (n : Nat) : Keeps (Host.Awaits reason) (tell (·.setSlots proto n)) :=
    keeps_update (fun _ => rfl) trivial
  apply (keeps_forM hupvalue p.upvalues).bind
  intro _
  apply hparams.bind
  intro _
  apply (keeps_mapM (fun c => (hstring c.2).bind fun _ => keeps_pure _) (stringConstants p)).bind
  intro places
  cases Frame.compute p with
  | error b => exact keeps_throw (.stopped b)
  | ok frame =>
    simp only [pure_bind]
    cases CodeContext.unit ⟨p, m.children p.id, frame, places⟩ (options.functionName p.id) with
    | error e => exact keeps_throw e
    | ok unit =>
      simp only
      exact (hslots frame.size).bind fun _ _ hs => hs

theorem keeps_prototype (root : Nat) (p : Proc) :
    Keeps (Host.Awaits reason) (prototype root p) := by
  apply keeps_get.bind
  intro s
  split
  · exact keeps_request fun _ _ _ => .newChild
  · exact keeps_pure root

/-- Whether a unit is generated or not, the host stays idle. -/
theorem keeps_procs (root : Nat) (ids : List Nat) :
    Keeps (Host.Awaits reason) (procs options m root ids) := by
  apply keeps_forM
  intro id
  split
  · rename_i p _
    exact (keeps_prototype root p).bind fun proto => keeps_proc p proto
  · exact keeps_throw (.stopped .outOfBounds)

end Generate

section Generation

open Generate

variable {options : Options} {host host' : Host} {root : Nat} {stats stats' : Stats}
  {reason : Option String} {m : Module} {result : Except Failure GeneratedUnit}

theorem Host.Awaits.generate (h : host.Awaits reason)
    (hg : m.generate options host root stats = (host', stats', result)) : host'.Awaits reason := by
  unfold Module.generate at hg
  extract_lets source ids at hg
  have hprocs : Keeps (Host.Awaits reason) (procs options m root ids) := keeps_procs root ids
  have hkeeps := hprocs { host, stats, unit := { source } } h
  split at hg
  · rename_i hs
    rw [hs] at hkeeps
    cases hg
    exact hkeeps
  · rename_i hs
    rw [hs] at hkeeps
    cases hg
    exact hkeeps

namespace Generate

variable {A : Array Prototype} {u : GeneratedUnit} {p : Proc}

theorem runs_const {α : Type} {A : Prop} (x : Generate α) :
    Runs (fun _ => True) (fun _ => A) x fun _ _ => A := by
  intro s h
  split
  · exact h
  · trivial

/-- Something can be generated only for a root prototype that the host has. -/
theorem runs_root (hu : u.functions = []) {i : Nat} (hp : m.procs[i]? = some p)
    (hnodup : p.strings.Nodup) (ids : List Nat) :
    Runs (fun _ => True) (Has A u) (procs options m root (i :: ids)) fun _ _ => root < A.size := by
  have hlocated : Runs (fun _ => True) (Has A u) (prototype root p) fun proto s =>
      ∃ B, (proto = root ∧ B = A) ∧ Has B u s := by
    apply runs_located
    · exact fun _ => ⟨rfl, rfl⟩
    · intro f hf
      simp [hu] at hf
  have hfirst : Runs (fun _ => True) (Has A u) (do proc options m p (← prototype root p))
      fun _ _ => root < A.size := by
    apply hlocated.bind
    rintro proto s ⟨B, ⟨rfl, rfl⟩, hs⟩
    exact (runs_prepared hnodup).post (fun _ _ ⟨_, _, _, _, hlt, _⟩ => hlt) s hs
  change Runs _ _ (_ >>= fun _ => procs options m root ids) _
  beta_reduce
  rw [hp]
  exact hfirst.bind fun _ => runs_const _

end Generate

theorem Module.root_lt_of_generate {unit : GeneratedUnit} (hm : m.Numbered) (h0 : 0 < m.procs.size)
    (hnodup : ∀ p ∈ m.procs, p.strings.Nodup)
    (h : m.generate options host root stats = (host', stats', .ok unit)) :
    root < host.prototypes.size := by
  obtain ⟨s, hs, -⟩ := exists_of_generate hm h0 h
  obtain ⟨n, hn⟩ := Nat.exists_eq_add_one.mpr h0
  rw [hn, List.range'_succ] at hs
  have hroot : Runs (fun _ => True) (Has host.prototypes { source := options.heading })
      (Generate.procs options m root (0 :: List.range' (0 + 1) n))
      fun _ _ => root < host.prototypes.size :=
    runs_root rfl (Array.getElem?_eq_getElem h0) (hnodup _ (Array.getElem_mem h0)) _
  have hrun := hroot { host, stats, unit := { source := options.heading } } ⟨rfl, rfl⟩
  rw [hs] at hrun
  exact hrun

end Generation

section Installation

/-- The requests that attach functions. -/
def GeneratedUnit.attachments (fs : List GeneratedFunction) : List HostEvent :=
  fs.flatMap fun f => [.lookup f.name, .attach f.prototype f.name]

theorem GeneratedUnit.events_attachAll {source : String} {host host' : Host}
    {fs : List GeneratedFunction} (h : attachAll source host fs = (host', .ok ())) :
    host'.events.toList = host.events.toList ++ attachments fs ∧ host'.source = host.source := by
  induction fs generalizing host with
  | nil =>
    cases h
    exact ⟨(List.append_nil _).symm, rfl⟩
  | cons f fs ih =>
    unfold attachAll Host.lookup Host.attach Host.update at h
    split at h
    · cases h
    · rename_i looked hlooked
      obtain ⟨rfl, -⟩ := Prod.mk.inj hlooked
      split at h
      · cases h
      · rename_i attached hattached
        split at hattached
        · cases hattached
          obtain ⟨hevents, hsource⟩ := ih h
          constructor
          · rw [hevents]
            simp [Host.record, attachments]
          · rw [hsource]
            rfl
        · cases hattached

/-- A unit that cannot be installed leaves the host as it was: the C was not compiled. -/
theorem Generate.Progress.install_eq_error {options : Options} {m : Module} {source : String}
    {ws : List Written} {u : GeneratedUnit} {host host' : Host} {e : Failure}
    (h : Progress options m source ws host.prototypes u) (hm : m.Numbered)
    (hi : u.install host = (host', .error e)) : host' = host := by
  cases hr : host.refusal with
  | none =>
    obtain ⟨installed, hok⟩ := h.install_eq_ok hm hr
    rw [hok] at hi
    cases hi
  | some reason =>
    simp only [GeneratedUnit.install, Host.compile, hr, Prod.mk.injEq] at hi
    exact hi.1.symm

/-- Every prototype has the function of its proc. Since the C was compiled, the functions were looked
up and attached one after the other, and nothing else was asked for. -/
structure CompiledUnit.InstalledOn (u : CompiledUnit) (options : Options) (host : Host) : Prop where
  size_eq : host.prototypes.size = u.module.procs.size
  functions : ∀ (i : Nat) P, host.prototypes[i]? = some P →
    P.function = some (options.functionName i)
  source : host.source = some u.unit.source
  events : ∃ setup : List HostEvent, (∀ e ∈ setup, e.IsSetup) ∧ host.events.toList = setup ++
    .compile u.unit.source.utf8ByteSize :: (List.range u.module.procs.size).flatMap fun i =>
      [.lookup (options.functionName i), .attach i (options.functionName i)]

end Installation

namespace Tree

variable {t : Tree} {options : Options} {root : Nat} {stats : Stats} {reason : Option String}
  {u : CompiledUnit} {e : Failure}

/-- A failure, at whatever stage, comes before the C is compiled. -/
theorem awaits_of_compile
    (h : (t.compile options { refusal := reason } root stats).result = .error e) :
    (t.compile options { refusal := reason } root stats).host.Awaits reason := by
  unfold compile at h ⊢
  rcases ha : t.analyse stats with ⟨stats', e | m⟩
  · simpa only [ha] using .fresh reason
  rcases hg : m.generate options { refusal := reason } root stats' with ⟨generated, stats'', e | unit⟩
  · simpa only [ha, hg] using (Host.Awaits.fresh reason).generate hg
  have hgenerated := (Host.Awaits.fresh reason).generate hg
  rcases hi : unit.install generated with ⟨installed, e | _⟩
  · obtain ⟨placements, ws, hpop, -, hprogress, -⟩ := progress_of_analyse (congrArg Prod.snd ha) hg
    simpa only [ha, hg, hi, hprogress.install_eq_error hpop.numbered hi] using hgenerated
  · simp [ha, hg, hi] at h

/-- A tree can be compiled for the first prototype of a fresh host only. -/
theorem root_eq_zero_of_compile
    (h : (t.compile options { refusal := reason } root stats).result = .ok u) : root = 0 := by
  obtain ⟨stats', stats'', generated, ha, hg, -⟩ := exists_of_compile h
  obtain ⟨placements, hpop⟩ := populated_of_analyse (congrArg Prod.snd ha)
  exact Nat.lt_one_iff.mp (Module.root_lt_of_generate hpop.numbered hpop.size_pos
    hpop.strings_nodup hg)

theorem installedOn_of_compile
    (h : (t.compile options { refusal := reason } root stats).result = .ok u) :
    u.InstalledOn options (t.compile options { refusal := reason } root stats).host := by
  obtain rfl := root_eq_zero_of_compile h
  obtain ⟨placements, ws, A, hpop, hlength, hprogress, hmirrors, hsize, hattached⟩ :=
    progress_of_compile h
  have hmirrors := hmirrors rfl rfl
  obtain ⟨stats', stats'', generated, -, hg, hi⟩ := exists_of_compile h
  obtain ⟨hevents, hsource⟩ := GeneratedUnit.events_attachAll (GeneratedUnit.exists_of_install hi)
  have hwritten {i : Nat} (hlt : i < ws.length) :
      ws[i].function.name = options.functionName i ∧ ws[i].function.prototype = i := by
    have hw : ws[i]? = some ws[i] := List.getElem?_eq_getElem hlt
    obtain ⟨p, hp, -, hname, -⟩ := hprogress.produces i _ hw
    exact ⟨hname, (hmirrors.prototypes i _ p hw hp).1⟩
  constructor
  · rw [hsize, hmirrors.size_eq, hlength]
  · intro i P hP
    have hlt : i < ws.length := by
      rw [← hmirrors.size_eq, ← hsize]
      exact (Array.getElem?_eq_some_iff.mp hP).1
    obtain ⟨hname, hproto⟩ := hwritten hlt
    have hfinal := hattached _ (List.getElem_mem hlt)
    rw [hproto, hname, hP] at hfinal
    obtain ⟨Q, -, rfl⟩ := Option.map_eq_some_iff.mp hfinal.symm
    rfl
  · rw [hsource]
    rfl
  · refine ⟨generated.events.toList, ?_, ?_⟩
    · intro e he
      exact ((Host.Awaits.fresh reason).generate hg).events e (Array.mem_toList_iff.mp he)
    · have hfunctions : u.unit.functions.map (fun f => (f.name, f.prototype)) =
          (List.range u.module.procs.size).map fun i => (options.functionName i, i) := by
        rw [hprogress.functions_eq, List.map_map, ← hlength]
        refine List.ext_getElem (by simp) fun i hi _ => ?_
        obtain ⟨hname, hproto⟩ := hwritten (by simpa using hi)
        simp [hname, hproto]
      have hpairs := congrArg (List.flatMap fun x =>
        [HostEvent.lookup x.1, .attach x.2 x.1]) hfunctions
      rw [List.flatMap_map, List.flatMap_map] at hpairs
      rw [hevents, GeneratedUnit.attachments, hpairs]
      simp [Host.record]

/-- On a fresh host, a compilation that fails has compiled and attached nothing, and has not touched
the host if the tree could not be lowered. One that succeeds has attached every function. -/
theorem compile_allOrNothing (t : Tree) (options : Options) (reason : Option String) (root : Nat)
    (stats : Stats) :
    match t.compile options { refusal := reason } root stats with
    | ⟨host, _, .error _⟩ =>
      host.Idle ∧ ((∃ e, (t.analyse stats).2 = .error e) → host = { refusal := reason })
    | ⟨host, _, .ok u⟩ => u.InstalledOn options host := by
  split
  · rename_i host _ e hc
    constructor
    · have herror : (t.compile options { refusal := reason } root stats).result = .error e := by
        rw [hc]
      have h := awaits_of_compile herror
      rw [hc] at h
      exact h.toIdle
    · rintro ⟨e', he'⟩
      unfold compile at hc
      rcases ha : t.analyse stats with ⟨stats', e | m⟩
      · rw [ha] at hc
        cases hc
        rfl
      · rw [ha] at he'
        cases he'
  · rename_i host _ u hc
    have hok : (t.compile options { refusal := reason } root stats).result = .ok u := by rw [hc]
    have h := installedOn_of_compile hok
    rwa [hc] at h

/-- A host that refuses to compile is left with two prototypes that have no functions. One that
compiles has a function for each. -/
theorem sumOfArray_allOrNothing :
    (∃ e, (sumOfArray.compile {} { refusal := some "no compiler" } 0 {}).result = .error e) ∧
    (sumOfArray.compile {} { refusal := some "no compiler" } 0 {}).host.Idle ∧
    (sumOfArray.compile {} { refusal := some "no compiler" } 0 {}).host.prototypes.size = 2 ∧
    ∃ u, (sumOfArray.compile {} {} 0 {}).result = .ok u ∧
      u.InstalledOn {} (sumOfArray.compile {} {} 0 {}).host := by
  have hrefused : (match sumOfArray.compile {} { refusal := some "no compiler" } 0 {} with
      | ⟨host, _, .error _⟩ => host.prototypes.size == 2
      | _ => false) = true := by decide +kernel
  have hidle := compile_allOrNothing sumOfArray {} (some "no compiler") 0 {}
  obtain ⟨m, unit, -, hu⟩ := sumOfArray_compiles
  have hinstalled := compile_allOrNothing sumOfArray {} none 0 {}
  rcases hr : sumOfArray.compile {} { refusal := some "no compiler" } 0 {} with ⟨host, stats, e | u⟩
  · rw [hr] at hidle hrefused
    refine ⟨⟨e, rfl⟩, hidle.1, by simpa using hrefused, _, hu, ?_⟩
    rcases hc : sumOfArray.compile {} {} 0 {} with ⟨host, stats, e | u⟩
    · simp [hc, Host.root] at hu
    · simp only [hc, Host.root, Except.ok.injEq] at hu hinstalled
      rwa [← hu]
  · simp [hr] at hrefused

end Tree

end ScriptC
