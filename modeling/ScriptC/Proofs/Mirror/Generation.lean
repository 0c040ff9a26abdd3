import ScriptC.Proofs.Generation.Units
import ScriptC.Proofs.Mirror.Numbering

/-! # What generation does to the prototypes

Generating the function of a proc sets up one prototype and leaves the others as they are. The
strings of the pool get places in the order of the pool, as no string occurs twice in it.
-/

namespace ScriptC

/-- The string constants of a proc, in the order of its pool. -/
def Proc.strings (p : Proc) : List String :=
  p.constants.entries.toList.filterMap fun c =>
    match c with
    | .string s => some s
    | _ => none

/-- For each string constant, its place among all string constants of the proc. -/
def Proc.stringPlaces (p : Proc) : List (Nat × Nat) :=
  (Generate.stringConstants p).zipIdx.map fun (c, place) => (c.1, place)

theorem Generate.map_stringConstants (p : Proc) : (stringConstants p).map Prod.snd = p.strings := by
  rw [stringConstants, Proc.strings, List.map_filterMap]
  generalize p.constants.entries.toList = cs
  conv_rhs => rw [← List.zipIdx_map_fst 0 cs, List.filterMap_map]
  apply List.filterMap_congr
  rintro ⟨c, k⟩ _
  cases c <;> rfl

theorem Proc.strings_nodup {p : Proc} (h : p.constants.entries.toList.Nodup) : p.strings.Nodup := by
  refine h.filterMap fun c c' s hs hs' => ?_
  cases c <;> cases c' <;> simp_all

/-- The place of a constant holds its string. -/
theorem Proc.getElem?_strings {p : Proc} {k place : Nat}
    (h : p.stringPlaces.lookup k = some place) :
    ∃ s, p.constants.get? k = some (.string s) ∧ p.strings[place]? = some s := by
  obtain ⟨before, after, hplaces, -⟩ := List.lookup_eq_some_iff.mp h
  have hmem : (k, place) ∈ p.stringPlaces := by simp [hplaces]
  obtain ⟨⟨c, place'⟩, hc, he⟩ := List.mem_map.mp hmem
  cases he
  have hget := List.mk_mem_zipIdx_iff_getElem?.mp hc
  obtain ⟨⟨constant, k'⟩, hconst, hk⟩ := List.mem_filterMap.mp (List.mem_of_getElem? hget)
  refine ⟨c.2, ?_, ?_⟩
  · have hentry := List.mk_mem_zipIdx_iff_getElem?.mp hconst
    cases constant with
    | string s =>
      cases hk
      rw [Array.getElem?_toList] at hentry
      exact hentry
    | _ => cases hk
  · rw [← Generate.map_stringConstants, List.getElem?_map, hget, Option.map_some]

theorem Proc.exists_place {p : Proc} {k : Nat} {s : String}
    (h : p.constants.get? k = some (.string s)) : ∃ place, p.stringPlaces.lookup k = some place := by
  obtain ⟨place, hplace⟩ := List.mem_iff_getElem?.mp (Generate.mem_stringConstants h)
  have hmem : ((k, s), place) ∈ (Generate.stringConstants p).zipIdx :=
    List.mk_mem_zipIdx_iff_getElem?.mpr hplace
  rw [← Option.isSome_iff_exists, List.lookup_isSome_iff]
  exact ⟨_, List.mem_map_of_mem hmem, beq_self_eq_true _⟩

theorem Array.modify_modify {α : Type} (A : Array α) (i : Nat) (f g : α → α) :
    (A.modify i f).modify i g = A.modify i (g ∘ f) := by
  refine Array.ext_getElem? fun j => ?_
  simp only [Array.getElem?_modify]
  split <;> simp

theorem Array.modify_of_forall_eq {α : Type} (A : Array α) (i : Nat) {f : α → α} (h : ∀ a, f a = a) :
    A.modify i f = A := by
  refine Array.ext_getElem? fun j => ?_
  rw [Array.getElem?_modify, funext h]
  split <;> simp

theorem Array.getElem?_modify_of_some {α : Type} {A : Array α} {i : Nat} {a : α} {f : α → α}
    (h : A[i]? = some a) : (A.modify i f)[i]? = some (f a) := by
  rw [Array.getElem?_modify, if_pos rfl, h, Option.map_some]

theorem Array.exists_of_mem_modify {α : Type} {A : Array α} {i : Nat} {f : α → α} {a : α}
    (h : a ∈ A.modify i f) : ∃ b ∈ A, a = b ∨ a = f b := by
  obtain ⟨j, hj⟩ := Array.mem_iff_getElem?.mp h
  rw [Array.getElem?_modify] at hj
  split at hj
  · obtain ⟨b, hb, rfl⟩ := Option.map_eq_some_iff.mp hj
    exact ⟨b, Array.mem_of_getElem? hb, .inr rfl⟩
  · exact ⟨a, Array.mem_of_getElem? hj, .inl rfl⟩

namespace Generate

variable {α : Type} {A : Array Prototype} {u : GeneratedUnit} {proto : Nat}

/-- The host has these prototypes, and the unit is as far as this. -/
def Has (A : Array Prototype) (u : GeneratedUnit) (s : GenerationState) : Prop :=
  s.host.prototypes = A ∧ s.unit = u

/-- What is known of the answers of the host is known of the state afterwards. -/
theorem runs_granted {f : Host → Except HostFault (Host × α)} {T : α → Array Prototype → Prop}
    (h : ∀ host host' a, host.prototypes = A → f host = .ok (host', a) → T a host'.prototypes) :
    Runs (fun _ => True) (Has A u) (request f) fun a s => ∃ B, T a B ∧ Has B u s := by
  refine runs_get.bind fun start => ?_
  rintro s ⟨rfl, hA, hu⟩
  cases hf : f s.host with
  | error e => trivial
  | ok r =>
    obtain ⟨host', a⟩ := r
    exact ⟨_, h s.host host' a hA hf, rfl, hu⟩

theorem runs_update {f : Prototype → Prototype} {e : HostEvent} :
    Runs (fun _ => True) (Has A u) (tell (·.update proto f e)) fun _ s =>
      proto < A.size ∧ Has (A.modify proto f) u s := by
  have hgranted : ∀ (host host' : Host) (a : Unit), host.prototypes = A →
      (do return (← host.update proto f e, ()) : Except HostFault (Host × Unit)) = .ok (host', a) →
        proto < A.size ∧ host'.prototypes = A.modify proto f := by
    intro host host' a hA hr
    unfold Host.update at hr
    split at hr
    · rename_i hlt
      cases hr
      rw [← hA]
      exact ⟨hlt, rfl⟩
    · cases hr
  refine (runs_granted (T := fun _ B => proto < A.size ∧ B = A.modify proto f) hgranted).post ?_
  rintro _ s ⟨B, ⟨hlt, rfl⟩, hs⟩
  exact ⟨hlt, hs⟩

theorem runs_upvalues (upvalues : List Upvalue) :
    Runs (fun _ => True) (Has A u) (upvalues.forM fun x => tell (·.declareUpvalue proto x))
      fun _ => Has (A.modify proto fun P => { P with upvalues := P.upvalues ++ upvalues }) u := by
  induction upvalues generalizing A with
  | nil =>
    refine runs_pure fun s hs => ?_
    rwa [Array.modify_of_forall_eq A proto fun P => by rw [List.append_nil]]
  | cons x upvalues ih =>
    refine runs_update.bind fun _ s ⟨_, hs⟩ => (ih.post fun _ s hs => ?_) s hs
    rw [Array.modify_modify] at hs
    simpa [Function.comp_def] using hs

/-- A string that is new to a prototype gets the next place. -/
theorem runs_internString {P : Prototype} (hP : A[proto]? = some P) {value : String}
    (hnew : value ∉ P.strings) :
    Runs (fun _ => True) (Has A u) (request (·.internString proto value)) fun place s =>
      place = P.strings.length ∧
        Has (A.modify proto fun P => { P with strings := P.strings ++ [value] }) u s := by
  have hgranted : ∀ (host host' : Host) (place : Nat), host.prototypes = A →
      host.internString proto value = .ok (host', place) → place = P.strings.length ∧
        host'.prototypes = A.modify proto fun P => { P with strings := P.strings ++ [value] } := by
    intro host host' place hA hr
    have hstrings : (host.prototypes.getD proto {}).strings = P.strings := by
      rw [hA, Array.getD_eq_getD_getElem?, hP, Option.getD_some]
    have hidx : P.strings.idxOf? value = none := List.idxOf?_eq_none_iff.mpr hnew
    simp only [Host.internString, hstrings, hidx, Host.update] at hr
    split at hr
    · cases hr
      exact ⟨rfl, by rw [← hA]; rfl⟩
    · cases hr
  refine (runs_granted (T := fun place B => place = P.strings.length ∧
    B = A.modify proto fun P => { P with strings := P.strings ++ [value] }) hgranted).post ?_
  rintro place s ⟨B, ⟨rfl, rfl⟩, hs⟩
  exact ⟨rfl, hs⟩

/-- Strings that are new to a prototype get the next places, in order. -/
theorem runs_placed {P : Prototype} (hP : A[proto]? = some P) (consts : List (Nat × String))
    (hnodup : (P.strings ++ consts.map Prod.snd).Nodup) :
    Runs (fun _ => True) (Has A u) (consts.mapM fun (k, s) =>
      return (k, ← request (·.internString proto s))) fun places s =>
        places = (consts.zipIdx P.strings.length).map (fun (c, place) => (c.1, place)) ∧
        Has (A.modify proto fun P => { P with strings := P.strings ++ consts.map Prod.snd }) u s := by
  induction consts generalizing A P with
  | nil =>
    refine runs_pure fun s hs => ⟨rfl, ?_⟩
    rwa [Array.modify_of_forall_eq A proto fun P => by rw [List.map_nil, List.append_nil]]
  | cons c consts ih =>
    obtain ⟨k, value⟩ := c
    have hnew : value ∉ P.strings := by
      intro hmem
      exact (List.nodup_append.mp hnodup).2.2 value hmem value List.mem_cons_self rfl
    rw [List.map_cons, List.append_cons] at hnodup
    rw [List.mapM_cons]
    simp only [bind_assoc, pure_bind]
    refine (runs_internString hP hnew).bind fun place s ⟨hplace, hs⟩ => ?_
    refine ((ih (Array.getElem?_modify_of_some hP) hnodup).bind fun places => runs_pure ?_) s hs
    rintro s' ⟨rfl, hs'⟩
    rw [Array.modify_modify] at hs'
    refine ⟨?_, ?_⟩
    · simp [hplace]
    · simpa [Function.comp_def] using hs'

/-- Whatever strings a prototype has, interning changes nothing but them. -/
theorem runs_interned (consts : List (Nat × String)) :
    Runs (fun _ => True) (Has A u) (consts.mapM fun (k, s) =>
      return (k, ← request (·.internString proto s))) fun _ s =>
        ∃ g : List String → List String,
          Has (A.modify proto fun P => { P with strings := g P.strings }) u s := by
  induction consts generalizing A with
  | nil =>
    have hsame : (A.modify proto fun P => { P with strings := id P.strings }) = A :=
      Array.modify_of_forall_eq A proto fun _ => rfl
    exact runs_pure fun s hs => ⟨id, hsame.symm ▸ hs⟩
  | cons c consts ih =>
    obtain ⟨k, value⟩ := c
    have hgranted : ∀ (host host' : Host) (place : Nat), host.prototypes = A →
        host.internString proto value = .ok (host', place) →
          ∃ g : List String → List String,
            host'.prototypes = A.modify proto fun P => { P with strings := g P.strings } := by
      intro host host' place hA hr
      unfold Host.internString Host.update at hr
      extract_lets strings at hr
      split at hr
      · split at hr
        · obtain ⟨rfl, -⟩ := Prod.mk.inj (Except.ok.inj hr)
          exact ⟨id, by rw [← hA]; rfl⟩
        · cases hr
      · split at hr
        · obtain ⟨rfl, -⟩ := Prod.mk.inj (Except.ok.inj hr)
          exact ⟨fun strings => strings ++ [value], by rw [← hA]; rfl⟩
        · cases hr
    rw [List.mapM_cons]
    simp only [bind_assoc, pure_bind]
    refine (runs_granted (T := fun _ B => ∃ g : List String → List String,
      B = A.modify proto fun P => { P with strings := g P.strings }) hgranted).bind fun place s hs => ?_
    obtain ⟨B, ⟨g, rfl⟩, hs⟩ := hs
    refine (ih.bind fun places => runs_pure ?_) s hs
    rintro s' ⟨g', hs'⟩
    rw [Array.modify_modify] at hs'
    exact ⟨g' ∘ g, hs'⟩

/-- The frame and the function of a proc whose strings have these places. -/
structure Produces (options : Options) (m : Module) (p : Proc) (places : List (Nat × Nat))
    (frame : Frame) (unit : CodeUnit) : Prop where
  frame_eq : Frame.compute p = .ok frame
  unit_eq : CodeContext.unit ⟨p, m.children p.id, frame, places⟩ (options.functionName p.id) =
    .ok unit

/-- A prototype that is set up for a proc, with some change to its strings. -/
def prepared (p : Proc) (g : List String → List String) (slots : Nat) (P : Prototype) : Prototype :=
  { P with upvalues := P.upvalues ++ p.upvalues, params := p.params, strings := g P.strings, slots }

/-- The unit with one more function. -/
def extended (u : GeneratedUnit) (options : Options) (p : Proc) (proto : Nat) (frame : Frame)
    (unit : CodeUnit) : GeneratedUnit :=
  ⟨u.source ++ unit.text ++ "\n",
    u.functions ++ [⟨p.id, options.functionName p.id, proto, frame⟩]⟩

variable {options : Options} {m : Module} {p : Proc}

theorem runs_poolStrings (hnodup : p.strings.Nodup) :
    Runs (fun _ => True) (Has A u) ((stringConstants p).mapM fun (k, s) =>
      return (k, ← request (·.internString proto s))) fun places s => ∃ g : List String → List String,
        (∀ P, A[proto]? = some P → P.strings = [] → places = p.stringPlaces ∧ g [] = p.strings) ∧
        Has (A.modify proto fun P => { P with strings := g P.strings }) u s := by
  by_cases hfresh : ∃ P, A[proto]? = some P ∧ P.strings = []
  · obtain ⟨P, hP, hnone⟩ := hfresh
    have hnew : (P.strings ++ (stringConstants p).map Prod.snd).Nodup := by
      rwa [hnone, map_stringConstants]
    refine (runs_placed hP (stringConstants p) hnew).post fun places s ⟨hplaces, hs⟩ =>
      ⟨fun strings => strings ++ p.strings, fun _ _ _ => ⟨?_, rfl⟩, map_stringConstants p ▸ hs⟩
    rw [hplaces, hnone]
    rfl
  · refine (runs_interned (stringConstants p)).post fun places s ⟨g, hs⟩ => ⟨g, ?_, hs⟩
    exact fun P hP hnone => absurd ⟨P, hP, hnone⟩ hfresh

/-- Generating the function of a proc sets up its prototype. If that had no strings before, it holds
the strings of the proc in their order. -/
theorem runs_prepared (hnodup : p.strings.Nodup) :
    Runs (fun _ => True) (Has A u) (proc options m p proto) fun _ s =>
      ∃ places g frame unit, proto < A.size ∧ Produces options m p places frame unit ∧
        (∀ P, A[proto]? = some P → P.strings = [] → places = p.stringPlaces ∧ g [] = p.strings) ∧
        Has (A.modify proto (prepared p g frame.size)) (extended u options p proto frame unit) s := by
  refine (runs_upvalues p.upvalues).bind fun _ => runs_update.bind fun _ s₁ ⟨hlt, hs₁⟩ =>
    ((runs_poolStrings hnodup).bind fun places s₀ hs₀ => ?_) s₁ hs₁
  rw [Array.size_modify] at hlt
  obtain ⟨g, hplaces, hs₀⟩ := hs₀
  have hfresh : ∀ P, A[proto]? = some P → P.strings = [] →
      places = p.stringPlaces ∧ g [] = p.strings := by
    intro P hP hnone
    exact hplaces _ (Array.getElem?_modify_of_some (Array.getElem?_modify_of_some hP)) hnone
  rw [Array.modify_modify, Array.modify_modify] at hs₀
  cases hframe : Frame.compute p with
  | error b => trivial
  | ok frame =>
    cases hunit : CodeContext.unit ⟨p, m.children p.id, frame, places⟩
        (options.functionName p.id) with
    | error e =>
      simp only [pure_bind, hunit]
      trivial
    | ok unit =>
      simp only [pure_bind, hunit]
      refine (runs_update.bind fun _ s ⟨_, hs⟩ => ?_) s₀ hs₀
      refine ⟨places, g, frame, unit, hlt, ⟨hframe, hunit⟩, hfresh, ?_⟩
      rw [Array.modify_modify] at hs
      exact ⟨hs.1, by rw [← hs.2]; rfl⟩

end Generate

end ScriptC
