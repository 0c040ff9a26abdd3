import ScriptC.Proofs.Mirror.Generation

/-! # Progress of generation

After the first procs are generated, each has a function of the unit and a prototype with as many
slots as its frame. If the host was fresh, the prototypes mirror the procs one by one.
-/

namespace ScriptC

/-- The prototype that mirrors a proc. -/
def Proc.prototype (p : Proc) (children : List Nat) (slots : Nat) (function : Option String) :
    Prototype :=
  { parent := p.parent, children, strings := p.strings, upvalues := p.upvalues, params := p.params,
    slots, function }

namespace Generate

/-- A function of the unit, with the places of the strings of its proc and with its code. -/
structure Written where
  function : GeneratedFunction
  places : List (Nat × Nat)
  unit : CodeUnit

/-- What has been generated is the code of the first procs, and their prototypes have slots for it. -/
structure Progress (options : Options) (m : Module) (source : String) (ws : List Written)
    (A : Array Prototype) (u : GeneratedUnit) : Prop where
  functions_eq : u.functions = ws.map (·.function)
  source_eq : u.source = source ++ String.join (ws.map fun w => w.unit.text ++ "\n")
  produces : ∀ (i : Nat) (w : Written), ws[i]? = some w → ∃ p, m.procs[i]? = some p ∧ w.function.proc = i ∧
    w.function.name = options.functionName i ∧
    Produces options m p w.places w.function.frame w.unit
  slots : ∀ w ∈ ws, ∃ P, A[w.function.prototype]? = some P ∧ P.slots = w.function.frame.size
  nodup : (ws.map (·.function.prototype)).Nodup

/-- The prototypes mirror the first procs. The children are those that were met so far. -/
structure Mirrors (m : Module) (ws : List Written) (A : Array Prototype) : Prop where
  size_eq : A.size = ws.length
  prototypes : ∀ (i : Nat) (w : Written) (p : Proc), ws[i]? = some w → m.procs[i]? = some p →
    w.function.prototype = i ∧ w.places = p.stringPlaces ∧
    A[i]? = some (p.prototype ((m.children i).filter (· < ws.length)) w.function.frame.size none)

variable {options : Options} {m : Module} {source : String} {ws : List Written} {p : Proc}
  {A : Array Prototype} {u : GeneratedUnit} {root : Nat}

theorem Progress.function_of_parent (h : Progress options m source ws A u) {q : Nat}
    (hq : q < ws.length) : ∃ w, ws[q]? = some w ∧
      u.functions.find? (fun f => some f.proc == some q) = some w.function := by
  have hproc {j : Nat} {w : Written} (hw : ws[j]? = some w) : w.function.proc = j := by
    obtain ⟨p, -, hp, -⟩ := h.produces j w hw
    exact hp
  have hw : ws[q]? = some ws[q] := List.getElem?_eq_getElem hq
  refine ⟨ws[q], hw, ?_⟩
  rw [h.functions_eq]
  cases hf : (ws.map (·.function)).find? fun f => some f.proc == some q with
  | none =>
    have hnone := List.find?_eq_none.mp hf _ (List.mem_map_of_mem (List.getElem_mem hq))
    simp [hproc hw] at hnone
  | some f =>
    have hfq := List.find?_some hf
    obtain ⟨w, hmem, rfl⟩ := List.mem_map.mp (List.mem_of_find?_eq_some hf)
    obtain ⟨j, hj⟩ := List.mem_iff_getElem?.mp hmem
    simp only [hproc hj, beq_iff_eq, Option.some.injEq] at hfq
    subst hfq
    cases hj.symm.trans hw
    rfl

/-- The prototypes once a child of `q` was added. -/
def withChild (A : Array Prototype) (q : Nat) : Array Prototype :=
  (A.modify q fun P => { P with children := P.children ++ [A.size] }).push { parent := some q }

theorem size_withChild (A : Array Prototype) (q : Nat) : (withChild A q).size = A.size + 1 := by
  simp [withChild]

theorem getElem?_withChild {i : Nat} (hi : i < A.size) (q : Nat) : (withChild A q)[i]? =
    (A[i]?).map fun P => if i = q then { P with children := P.children ++ [A.size] } else P := by
  rw [withChild, Array.getElem?_push, if_neg (by rw [Array.size_modify]; omega),
    Array.getElem?_modify]
  by_cases h : q = i
  · simp [h]
  · simp [h, Ne.symm h]

theorem getElem?_withChild_size (q : Nat) : (withChild A q)[A.size]? = some { parent := some q } := by
  rw [withChild, Array.getElem?_push, if_pos (by rw [Array.size_modify])]

/-- A proc whose parent has no function gets the root, any other a new child of its parent's
prototype. -/
theorem runs_located {P : Nat → Array Prototype → Prop}
    (hroot : u.functions.find? (fun f => some f.proc == p.parent) = none → P root A)
    (hchild : ∀ f, u.functions.find? (fun f => some f.proc == p.parent) = some f →
      P A.size (withChild A f.prototype)) :
    Runs (fun _ => True) (Has A u) (prototype root p) fun proto s => ∃ B, P proto B ∧ Has B u s := by
  refine runs_get.bind fun start => ?_
  rintro s ⟨rfl, hA, hu⟩
  rw [hu]
  cases hf : u.functions.find? fun f => some f.proc == p.parent with
  | none => exact ⟨A, hroot hf, hA, hu⟩
  | some f =>
    refine runs_granted (T := fun proto B => P proto B) ?_ s ⟨hA, hu⟩
    intro host host' proto hA hr
    unfold Host.newChild Host.update at hr
    extract_lets child at hr
    split at hr
    · obtain ⟨hhost, hproto⟩ := Prod.mk.inj (Except.ok.inj hr)
      rw [← hhost, ← hproto]
      have hP := hchild f hf
      rwa [← hA] at hP
    · cases hr

/-- Where the next proc gets its prototype: the first at the root, any other below its parent. -/
inductive Located (p : Proc) (root : Nat) (ws : List Written) (A : Array Prototype) :
    Nat → Array Prototype → Prop
  | root : ws = [] → p.parent = none → Located p root ws A root A
  | child {q : Nat} {w : Written} : p.parent = some q → ws[q]? = some w →
    Located p root ws A A.size (withChild A w.function.prototype)

theorem Progress.located (h : Progress options m source ws A u) (hm : m.Numbered)
    (hp : m.procs[ws.length]? = some p) :
    Runs (fun _ => True) (Has A u) (prototype root p) fun proto s =>
      ∃ B, Located p root ws A proto B ∧ Has B u s := by
  cases hq : p.parent with
  | none =>
    have hempty : ws = [] := List.length_eq_zero_iff.mp (hm.orphan _ _ hp hq)
    refine runs_located (fun _ => .root hempty hq) fun f hf => ?_
    have hfq := List.find?_some hf
    simp [hq] at hfq
  | some q =>
    obtain ⟨w, hw, hf⟩ := h.function_of_parent (hm.order _ q p hp hq).1
    refine runs_located (fun hnone => ?_) fun f hf' => ?_
    · rw [hq, hf] at hnone
      cases hnone
    · rw [hq, hf] at hf'
      cases hf'
      exact .child hq hw

/-- The slots of the prototypes in use stay as they are. -/
theorem Located.slots {proto : Nat} {B : Array Prototype} (hl : Located p root ws A proto B)
    {w : Written} (hw : w ∈ ws) {P : Prototype} (hP : A[w.function.prototype]? = some P) :
    w.function.prototype ≠ proto ∧
      ∃ P', B[w.function.prototype]? = some P' ∧ P'.slots = P.slots := by
  have hlt := (Array.getElem?_eq_some_iff.mp hP).1
  cases hl with
  | root hempty _ => simp [hempty] at hw
  | child hq hw' =>
    refine ⟨Nat.ne_of_lt hlt, ?_⟩
    rw [getElem?_withChild hlt, hP, Option.map_some]
    refine ⟨_, rfl, ?_⟩
    split <;> rfl

/-- The function of the next proc, as it is written. -/
def written (options : Options) (p : Proc) (proto : Nat) (places : List (Nat × Nat)) (frame : Frame)
    (unit : CodeUnit) : Written :=
  ⟨⟨p.id, options.functionName p.id, proto, frame⟩, places, unit⟩

variable {proto : Nat} {B : Array Prototype} {places : List (Nat × Nat)} {frame : Frame}
  {unit : CodeUnit} {g : List String → List String}

theorem Progress.add (h : Progress options m source ws A u) (hm : m.Numbered)
    (hp : m.procs[ws.length]? = some p) (hl : Located p root ws A proto B) (hlt : proto < B.size)
    (hprod : Produces options m p places frame unit) :
    Progress options m source (ws ++ [written options p proto places frame unit])
      (B.modify proto (prepared p g frame.size)) (extended u options p proto frame unit) := by
  have hid : p.id = ws.length := hm.ids _ _ hp
  have hold (w : Written) (hw : w ∈ ws) : w.function.prototype ≠ proto ∧ ∃ P,
      (B.modify proto (prepared p g frame.size))[w.function.prototype]? = some P ∧
        P.slots = w.function.frame.size := by
    obtain ⟨P, hP, hslots⟩ := h.slots w hw
    obtain ⟨hne, P', hP', hslots'⟩ := hl.slots hw hP
    refine ⟨hne, P', ?_, hslots'.trans hslots⟩
    rw [Array.getElem?_modify, if_neg (Ne.symm hne), hP']
  constructor
  · rw [extended, h.functions_eq, List.map_append]
    rfl
  · rw [extended, h.source_eq, List.map_append, String.join_append, ← String.append_assoc,
      String.append_assoc]
    simp [written, String.append_assoc]
  · intro i w hw
    rcases Nat.lt_trichotomy i ws.length with hi | rfl | hi
    · rw [List.getElem?_append_left hi] at hw
      exact h.produces i w hw
    · rw [List.getElem?_concat_length] at hw
      cases hw
      exact ⟨p, hp, hid, by rw [← hid]; rfl, hprod⟩
    · simp [List.getElem?_append_right (Nat.le_of_lt hi), Nat.sub_ne_zero_of_lt hi] at hw
  · refine List.forall_mem_append.mpr ⟨fun w hw => (hold w hw).2, List.forall_mem_singleton.mpr ?_⟩
    exact ⟨_, Array.getElem?_modify_of_some (Array.getElem?_eq_getElem hlt), rfl⟩
  · rw [List.map_append]
    refine List.nodup_append.mpr ⟨h.nodup, List.nodup_singleton _, fun x hx y hy => ?_⟩
    obtain ⟨w, hw, rfl⟩ := List.mem_map.mp hx
    rw [List.mem_singleton.mp hy]
    exact (hold w hw).1

/-- The children met so far, with the next proc. -/
theorem filter_children_succ (hm : m.Numbered) (i k : Nat) :
    (m.children i).filter (· < k + 1) =
      (m.children i).filter (· < k) ++ if k ∈ m.children i then [k] else [] := by
  have hsorted : ((m.children i).filter (· < k) ++
      if k ∈ m.children i then [k] else []).Pairwise (· < ·) := by
    refine List.pairwise_append.mpr ⟨(hm.children_sorted i).filter _, ?_, fun x hx y hy => ?_⟩
    · split
      · exact List.pairwise_singleton _ k
      · exact List.Pairwise.nil
    · have hxk : x < k := by simpa using (List.mem_filter.mp hx).2
      split at hy
      · rwa [List.mem_singleton.mp hy]
      · cases hy
  refine ((hm.children_sorted i).filter _).eq_of_mem_iff hsorted fun x => ?_
  simp only [List.mem_filter, decide_eq_true_eq, List.mem_append]
  constructor
  · rintro ⟨hx, hlt⟩
    rcases Nat.lt_or_eq_of_le (Nat.le_of_lt_succ hlt) with hlt | rfl
    · exact .inl ⟨hx, hlt⟩
    · simp [hx]
  · rintro (⟨hx, hlt⟩ | hx)
    · exact ⟨hx, Nat.lt_succ_of_lt hlt⟩
    · split at hx
      · rename_i hk
        rw [List.mem_singleton.mp hx]
        exact ⟨hk, Nat.lt_succ_self k⟩
      · cases hx

/-- A proc has no children among those before it. -/
theorem filter_children_self (hm : m.Numbered) (k : Nat) :
    (m.children k).filter (· < k + 1) = [] := by
  refine List.filter_eq_nil_iff.mpr fun x hx => ?_
  have := hm.lt_of_mem_children hx
  simp only [decide_eq_true_eq]
  omega

theorem Mirrors.add (h : Mirrors m ws A) (hm : m.Numbered) (hp : m.procs[ws.length]? = some p)
    (hl : Located p root ws A proto B) (hne : ws ≠ [])
    (hfresh : ∀ P, B[proto]? = some P → P.strings = [] →
      places = p.stringPlaces ∧ g [] = p.strings) :
    Mirrors m (ws ++ [written options p proto places frame unit])
      (B.modify proto (prepared p g frame.size)) := by
  cases hl with
  | root hempty _ => exact absurd hempty hne
  | @child q w hq hw =>
    have hqlt := (List.getElem?_eq_some_iff.mp hw).1
    obtain ⟨pq, hpq⟩ : ∃ pq, m.procs[q]? = some pq := ⟨_, Array.getElem?_eq_getElem
      (Nat.lt_trans hqlt (Array.getElem?_eq_some_iff.mp hp).1)⟩
    have hprotoq : w.function.prototype = q := (h.prototypes q w pq hw hpq).1
    have hnew := getElem?_withChild_size (A := A) w.function.prototype
    obtain ⟨rfl, hg⟩ := hfresh _ hnew rfl
    rw [h.size_eq] at hnew ⊢
    rw [hprotoq] at hnew ⊢
    have hchild (i : Nat) : ws.length ∈ m.children i ↔ i = q := by
      rw [hm.mem_children]
      constructor
      · rintro ⟨p', hp', hi⟩
        cases hp.symm.trans hp'
        exact Option.some.inj (hi.symm.trans hq)
      · rintro rfl
        exact ⟨p, hp, hq⟩
    constructor
    · rw [Array.size_modify, size_withChild, h.size_eq, List.length_append, List.length_singleton]
    · intro i w' p' hw' hp'
      rw [List.length_append, List.length_singleton, Array.getElem?_modify]
      rcases Nat.lt_trichotomy i ws.length with hi | rfl | hi
      · rw [List.getElem?_append_left hi] at hw'
        obtain ⟨hproto, hplaces, hP⟩ := h.prototypes i w' p' hw' hp'
        refine ⟨hproto, hplaces, ?_⟩
        rw [if_neg (Nat.ne_of_gt hi), getElem?_withChild (h.size_eq ▸ hi), hP, Option.map_some,
          filter_children_succ hm, h.size_eq]
        simp only [hchild]
        by_cases hiq : i = q
        · simp [hiq, Proc.prototype]
        · simp [hiq]
      · rw [List.getElem?_concat_length] at hw'
        cases hw'
        cases hp.symm.trans hp'
        refine ⟨rfl, rfl, ?_⟩
        rw [if_pos rfl, hnew, filter_children_self hm]
        simp [Proc.prototype, prepared, hq, hg, written]
      · simp [List.getElem?_append_right (Nat.le_of_lt hi), Nat.sub_ne_zero_of_lt hi] at hw'

/-- On a fresh host, the first proc gets the only prototype. -/
theorem Mirrors.first (hm : m.Numbered) (hp : m.procs[0]? = some p) (hparent : p.parent = none)
    (hfresh : places = p.stringPlaces ∧ g [] = p.strings) :
    Mirrors m [written options p 0 places frame unit]
      ((#[{}] : Array Prototype).modify 0 (prepared p g frame.size)) := by
  obtain ⟨rfl, hg⟩ := hfresh
  refine ⟨by simp, fun i w' p' hw' hp' => ?_⟩
  rcases i with _ | i
  · cases hw'
    cases hp.symm.trans hp'
    refine ⟨rfl, rfl, ?_⟩
    rw [Array.getElem?_modify_of_some (a := {}) rfl, List.length_singleton, filter_children_self hm]
    simp [Proc.prototype, prepared, hparent, hg, written]
  · simp at hw'

/-- The prototypes mirror the procs so far, and before the first the host is fresh. -/
structure Faithful (m : Module) (root : Nat) (ws : List Written) (A : Array Prototype) : Prop where
  fresh : ws = [] → A = #[{}] ∧ root = 0
  mirrors : ws ≠ [] → Mirrors m ws A

theorem Faithful.add (h : Faithful m root ws A) (hm : m.Numbered)
    (hp : m.procs[ws.length]? = some p) (hl : Located p root ws A proto B)
    (hfresh : ∀ P, B[proto]? = some P → P.strings = [] →
      places = p.stringPlaces ∧ g [] = p.strings) :
    Faithful m root (ws ++ [written options p proto places frame unit])
      (B.modify proto (prepared p g frame.size)) := by
  refine ⟨by simp, fun _ => ?_⟩
  by_cases hempty : ws = []
  · obtain ⟨rfl, rfl⟩ := h.fresh hempty
    subst hempty
    cases hl with
    | root _ hparent => exact .first hm hp hparent (hfresh {} rfl rfl)
    | child _ hw => cases hw
  · exact (h.mirrors hempty).add hm hp hl hempty hfresh

/-- One proc after the other is generated. -/
theorem Progress.step (h : Progress options m source ws A u) (hm : m.Numbered)
    (hp : m.procs[ws.length]? = some p) (hnodup : p.strings.Nodup) :
    Runs (fun _ => True) (Has A u) (do proc options m p (← prototype root p)) fun _ s =>
      ∃ w B v, Progress options m source (ws ++ [w]) B v ∧
        (Faithful m root ws A → Faithful m root (ws ++ [w]) B) ∧ Has B v s := by
  refine (h.located hm hp).bind fun proto s₀ hs₀ => ?_
  obtain ⟨B, hl, hs₀⟩ := hs₀
  refine (runs_prepared hnodup).post ?_ s₀ hs₀
  rintro _ s ⟨places, g, frame, unit, hlt, hprod, hfresh, hs⟩
  exact ⟨_, _, _, h.add hm hp hl hlt hprod, fun hf => hf.add hm hp hl hfresh, hs⟩

theorem Progress.run (h : Progress options m source ws A u) (hm : m.Numbered)
    (hnodup : ∀ p ∈ m.procs, p.strings.Nodup) (n : Nat) :
    Runs (fun _ => True) (Has A u) (procs options m root (List.range' ws.length n)) fun _ s =>
      ∃ ws' B v, ws'.length = ws.length + n ∧ Progress options m source ws' B v ∧
        (Faithful m root ws A → Faithful m root ws' B) ∧ Has B v s := by
  induction n generalizing ws A u with
  | zero => exact runs_pure fun s hs => ⟨ws, A, u, rfl, h, id, hs⟩
  | succ n ih =>
    rw [List.range'_succ]
    change Runs _ _ (_ >>= fun _ => procs options m root (List.range' (ws.length + 1) n)) _
    beta_reduce
    cases hp : m.procs[ws.length]? with
    | none => exact fun _ _ => trivial
    | some p =>
      refine (h.step hm hp (hnodup p (Array.mem_of_getElem? hp))).bind fun _ s₀ hs₀ => ?_
      obtain ⟨w, B, v, hprogress, hfaithful, hs₀⟩ := hs₀
      have hrest := ih hprogress
      rw [List.length_append, List.length_singleton] at hrest
      refine hrest.post ?_ s₀ hs₀
      rintro _ s ⟨ws', B', v', hlength, hprogress', hfaithful', hs⟩
      exact ⟨ws', B', v', by omega, hprogress', hfaithful' ∘ hfaithful, hs⟩

end Generate

end ScriptC
