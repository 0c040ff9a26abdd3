import ScriptC.Proofs.Mirror.Progress
import ScriptC.Proofs.Resources.Functions

/-! # Prototypes of compiled trees

Once a tree is compiled on a fresh host, the prototypes of the host mirror the procs: prototype `i` is
that of proc `i`, with its parent, its children, its parameters, its upvalues, its strings and the
slots of its frame, and the function of the proc is attached to it. What the code says about children
and strings by their index is right about the prototype.
-/

namespace ScriptC

section Installation

namespace GeneratedUnit

/-- Every function is attached to its prototype, and nothing else changes. -/
theorem prototypes_attachAll {source : String} {host host' : Host} {fs : List GeneratedFunction}
    (h : attachAll source host fs = (host', .ok ())) (hnodup : (fs.map (·.prototype)).Nodup) :
    host'.prototypes.size = host.prototypes.size ∧
      (∀ f ∈ fs, host'.prototypes[f.prototype]? = (host.prototypes[f.prototype]?).map
        fun P => { P with function := some f.name }) ∧
      ∀ i ∉ fs.map (·.prototype), host'.prototypes[i]? = host.prototypes[i]? := by
  induction fs generalizing host with
  | nil =>
    cases h
    exact ⟨rfl, List.forall_mem_nil _, fun _ _ => rfl⟩
  | cons f fs ih =>
    unfold attachAll Host.lookup at h
    split at h
    · cases h
    · rename_i looked hlookup
      split at h
      · cases h
      · rename_i attached hattach
        have hlooked : looked.prototypes = host.prototypes := by
          rw [← (Prod.mk.inj hlookup).1]
          rfl
        have hattached : attached.prototypes = host.prototypes.modify f.prototype
            fun P => { P with function := some f.name } := by
          unfold Host.attach Host.update at hattach
          split at hattach
          · cases hattach
            rw [← hlooked]
            rfl
          · cases hattach
        obtain ⟨hf, hfs⟩ := List.nodup_cons.mp hnodup
        obtain ⟨hsize, hin, hout⟩ := ih h hfs
        refine ⟨?_, List.forall_mem_cons.mpr ⟨?_, fun g hg => ?_⟩, fun i hi => ?_⟩
        · rw [hsize, hattached, Array.size_modify]
        · rw [hout _ hf, hattached, Array.getElem?_modify, if_pos rfl]
        · have hne : f.prototype ≠ g.prototype := fun he => hf (List.mem_map.mpr ⟨g, hg, he.symm⟩)
          rw [hin g hg, hattached, Array.getElem?_modify, if_neg hne]
        · obtain ⟨hne, hi⟩ := not_or.mp (mt List.mem_cons.mpr hi)
          rw [hout i hi, hattached, Array.getElem?_modify, if_neg (Ne.symm hne)]

/-- Functions that the C defines can be attached to the prototypes there are. -/
theorem attachAll_eq_ok {source : String} {host : Host} {fs : List GeneratedFunction}
    (h : ∀ f ∈ fs, Text.contains (Host.definition f.name).toList source.toList = true ∧
      f.prototype < host.prototypes.size) : ∃ host', attachAll source host fs = (host', .ok ()) := by
  induction fs generalizing host with
  | nil => exact ⟨host, rfl⟩
  | cons f fs ih =>
    obtain ⟨⟨hdefined, hlt⟩, hfs⟩ := List.forall_mem_cons.mp h
    simp only [attachAll, Host.lookup, hdefined, if_true, Host.attach, Host.update, Host.record, hlt]
    refine ih fun g hg => ⟨(hfs g hg).1, ?_⟩
    rw [Array.size_modify]
    exact (hfs g hg).2

/-- A unit that is installed was compiled before its functions were attached. -/
theorem exists_of_install {u : GeneratedUnit} {host host' : Host}
    (h : u.install host = (host', .ok ())) : attachAll u.source
      (Host.record { host with source := some u.source } (.compile u.source.utf8ByteSize))
      u.functions = (host', .ok ()) := by
  unfold install Host.compile at h
  split at h
  · cases h
  · rename_i hcompiled
    split at hcompiled
    · cases hcompiled
    · cases hcompiled
      exact h

end GeneratedUnit

/-- The text of a function starts with its definition. -/
theorem CodeUnit.exists_text_eq (unit : CodeUnit) :
    ∃ rest, unit.text = Host.definition unit.name ++ rest := by
  have hbrace : toString "(ravel_State *L) \x7b\n" = toString "(ravel_State *L)" ++ " \x7b\n" := rfl
  rw [text, prologue, Host.definition]
  generalize linesAt 1 _ = opening
  generalize String.join _ = blocks
  refine ⟨" \x7b\n" ++ (opening ++ (blocks ++ epilogue)), ?_⟩
  simp only [hbrace, String.append_assoc]

end Installation

/-- What a unit starts with. -/
def Options.heading (options : Options) : String :=
  if options.hasPreamble then options.preamble ++ "\n" else ""

section Units

open Generate

variable {options : Options} {host host' : Host} {root : Nat} {stats stats' : Stats}

/-- A unit that is generated is what the run over all procs, in order, ends with. -/
theorem Module.exists_of_generate {m : Module} {unit : GeneratedUnit} (hm : m.Numbered)
    (h0 : 0 < m.procs.size) (h : m.generate options host root stats = (host', stats', .ok unit)) :
    ∃ s, Generate.procs options m root (List.range' 0 m.procs.size)
      { host, stats, unit := { source := options.heading } } = .ok () s ∧
      s.host = host' ∧ s.unit = unit := by
  have hroot : m.root? = some 0 := by
    rw [Module.root?, if_neg]
    simpa [Array.isEmpty_iff_size_eq_zero] using Nat.ne_of_gt h0
  unfold Module.generate at h
  simp only [hroot, hm.preorder_eq_range h0, List.range_eq_range'] at h
  rw [← Options.heading] at h
  split at h
  · rename_i hs
    cases h
    exact ⟨_, hs, rfl, rfl⟩
  · cases h

/-- A unit that is generated has the functions of all procs, in order. -/
theorem Module.progress_of_generate {m : Module} {unit : GeneratedUnit} (hm : m.Numbered)
    (h0 : 0 < m.procs.size) (hnodup : ∀ p ∈ m.procs, p.strings.Nodup)
    (h : m.generate options host root stats = (host', stats', .ok unit)) :
    ∃ ws, ws.length = m.procs.size ∧
      Progress options m options.heading ws host'.prototypes unit ∧
      (host.prototypes = #[{}] → root = 0 → Mirrors m ws host'.prototypes) := by
  have hstart : Progress options m options.heading [] host.prototypes { source := options.heading } :=
    ⟨rfl, by simp, by simp, by simp, List.nodup_nil⟩
  have hprocs : Runs _ _ (Generate.procs options m root (List.range' 0 m.procs.size)) _ :=
    hstart.run hm hnodup m.procs.size
  have hrun := hprocs { host, stats, unit := { source := options.heading } } ⟨rfl, rfl⟩
  obtain ⟨s, hs, rfl, rfl⟩ := exists_of_generate hm h0 h
  rw [hs] at hrun
  obtain ⟨ws, A, v, hlength, hprogress, hfaithful, rfl, rfl⟩ := hrun
  rw [List.length_nil, Nat.zero_add] at hlength
  refine ⟨ws, hlength, hprogress, fun hfresh h0' => (hfaithful ?_).mirrors ?_⟩
  · exact ⟨fun _ => ⟨hfresh, h0'⟩, fun hne => absurd rfl hne⟩
  · rintro rfl
    exact absurd hlength (Nat.ne_of_lt h0)

/-- A unit can be installed on a host that does not refuse to compile. -/
theorem Generate.Progress.install_eq_ok {m : Module} {source : String} {ws : List Written}
    {u : GeneratedUnit} (h : Progress options m source ws host.prototypes u) (hm : m.Numbered)
    (hrefusal : host.refusal = none) : ∃ host', u.install host = (host', .ok ()) := by
  simp only [GeneratedUnit.install, Host.compile, hrefusal]
  refine GeneratedUnit.attachAll_eq_ok fun f hf => ?_
  rw [h.functions_eq] at hf
  obtain ⟨w, hw, rfl⟩ := List.mem_map.mp hf
  constructor
  · obtain ⟨i, hi⟩ := List.mem_iff_getElem?.mp hw
    obtain ⟨p, hp, -, hname, hprod⟩ := h.produces i w hi
    have hsame : w.unit.name = w.function.name := by
      rw [(CodeContext.unit_eq hprod.unit_eq).1, hname, ← hm.ids i p hp]
    obtain ⟨rest, hrest⟩ := w.unit.exists_text_eq
    obtain ⟨before, after, rfl⟩ := List.append_of_mem hw
    rw [h.source_eq, List.map_append, List.map_cons, String.join_append, String.join_cons, hrest,
      hsame]
    simp only [String.toList_append, List.append_assoc]
    rw [← List.append_assoc, ← List.append_assoc]
    exact Text.contains_iff.mpr (List.infix_append _ _ _)
  · obtain ⟨P, hP, -⟩ := h.slots w hw
    exact (Array.getElem?_eq_some_iff.mp hP).1

end Units

namespace Module.Populated

variable {m : Module} {symbols : SymbolTable} {f : Function} {placements : List Placement}
  (h : m.Populated symbols f [] placements)
include h

theorem size_pos : 0 < m.procs.size := by
  have hlength := h.assigned.length_eq
  have hroot := (List.getElem?_eq_some_iff.mp h.assigned.root).1
  omega

theorem strings_nodup : ∀ p ∈ m.procs, p.strings.Nodup := by
  intro p hp
  obtain ⟨i, hi⟩ := Array.mem_iff_getElem?.mp hp
  obtain ⟨pl, hpl⟩ := h.assigned.placement? (Array.getElem?_eq_some_iff.mp hi).1
  exact Proc.strings_nodup (h.finished i p pl hi hpl).constants

end Module.Populated

namespace Tree

open Generate

variable {t : Tree} {options : Options} {host host' : Host} {root : Nat} {stats stats' stats'' : Stats}
  {m : Module} {unit : GeneratedUnit} {u : CompiledUnit}

theorem progress_of_analyse (ha : (t.analyse stats).2 = .ok m)
    (hg : m.generate options host root stats' = (host', stats'', .ok unit)) :
    ∃ placements ws, m.Populated t.symbols t.main [] placements ∧ ws.length = m.procs.size ∧
      Progress options m options.heading ws host'.prototypes unit ∧
      (host.prototypes = #[{}] → root = 0 → Mirrors m ws host'.prototypes) := by
  obtain ⟨placements, hpop⟩ := populated_of_analyse ha
  obtain ⟨ws, hws⟩ :=
    Module.progress_of_generate hpop.numbered hpop.size_pos hpop.strings_nodup hg
  exact ⟨placements, ws, hpop, hws⟩

/-- A compilation that succeeds went through all of its stages. -/
theorem exists_of_compile (h : (t.compile options host root stats).result = .ok u) :
    ∃ stats' stats'' generated, (t.analyse stats) = (stats', .ok u.module) ∧
      u.module.generate options host root stats' = (generated, stats'', .ok u.unit) ∧
      u.unit.install generated = ((t.compile options host root stats).host, .ok ()) := by
  unfold compile at h ⊢
  rcases ha : t.analyse stats with ⟨stats', e | m⟩
  · simp [ha] at h
  rcases hg : m.generate options host root stats' with ⟨host₁, stats₁, e | unit⟩
  · simp [ha, hg] at h
  rcases hi : unit.install host₁ with ⟨host₂, e | _⟩
  · simp [ha, hg, hi] at h
  simp only [ha, hg, hi] at h ⊢
  cases h
  exact ⟨stats', stats₁, host₁, rfl, hg, hi⟩

/-- A compilation that succeeds has generated the functions of all procs in order, and attached them
to their prototypes. -/
theorem progress_of_compile (h : (t.compile options host root stats).result = .ok u) :
    ∃ placements ws A, u.module.Populated t.symbols t.main [] placements ∧
      ws.length = u.module.procs.size ∧ Progress options u.module options.heading ws A u.unit ∧
      (host.prototypes = #[{}] → root = 0 → Mirrors u.module ws A) ∧
      (t.compile options host root stats).host.prototypes.size = A.size ∧
      ∀ w ∈ ws, (t.compile options host root stats).host.prototypes[w.function.prototype]? =
        (A[w.function.prototype]?).map fun P => { P with function := some w.function.name } := by
  obtain ⟨stats', stats'', generated, ha, hg, hi⟩ := exists_of_compile h
  obtain ⟨placements, ws, hpop, hlength, hprogress, hmirrors⟩ :=
    progress_of_analyse (congrArg Prod.snd ha) hg
  have hdistinct : (u.unit.functions.map (·.prototype)).Nodup := by
    rw [hprogress.functions_eq, List.map_map]
    exact hprogress.nodup
  obtain ⟨hsize, hattached, -⟩ :=
    GeneratedUnit.prototypes_attachAll (GeneratedUnit.exists_of_install hi) hdistinct
  refine ⟨placements, ws, generated.prototypes, hpop, hlength, hprogress, hmirrors, hsize, ?_⟩
  intro w hw
  apply hattached w.function
  rw [hprogress.functions_eq]
  exact List.mem_map_of_mem hw

/-- A tree whose unit was generated is compiled, unless the host refuses to. -/
theorem compile_eq_ok (ha : t.analyse stats = (stats', .ok m))
    (hg : m.generate options host root stats' = (host', stats'', .ok unit))
    (hrefusal : host'.refusal = none) :
    (t.compile options host root stats).result = .ok ⟨m, unit⟩ := by
  obtain ⟨placements, ws, hpop, -, hprogress, -⟩ := progress_of_analyse (congrArg Prod.snd ha) hg
  obtain ⟨installed, hi⟩ := hprogress.install_eq_ok hpop.numbered hrefusal
  simp only [compile, ha, hg, hi]

end Tree

section Mirror

/-- What code says of a prototype by index is right: a closure is made of the child that it names, and
the address of a string constant is that of an equal string. -/
structure CodeContext.Selects (c : CodeContext) (P : Prototype) : Prop where
  closures : ∀ i ∈ c.proc.instrs, i.opcode = .closure → ∀ child,
    i.operands[0]? = some (.proc child) → ∃ n a,
      c.instr i = .ok [.invoke .closure [.state, .closure, .base, .number n, .address a]] ∧
      P.children[n]? = some child
  constants : ∀ i ∈ c.proc.instrs, ∀ h, .constant h ∈ Code.refsOf none (c.codeOf i) → ∃ k s,
    .constant k ∈ i.operands ++ i.targets ∧ c.proc.constants.get? k = some (.string s) ∧
      P.strings[h]? = some s
  addresses : ∀ k s, c.proc.constants.get? k = some (.string s) → ∃ h,
    c.address? (.constant k) = .ok (some (.constant h)) ∧ P.strings[h]? = some s

variable {c : CodeContext} {i : Instr}

/-- A closure passes on the index of its child. -/
theorem CodeContext.yields_closure (hi : i.opcode = .closure) {child : Nat}
    (ho : i.operands[0]? = some (.proc child)) :
    Yields (c.instr i) fun code => ∃ n a,
      code = [.invoke .closure [.state, .closure, .base, .number n, .address a]] ∧
        c.children[n]? = some child := by
  unfold CodeContext.instr
  rw [hi]
  refine (yields_operand i 0).bind fun o ho' => ?_
  cases ho.symm.trans ho'
  dsimp only
  split
  · rename_i n hn
    refine yields_bind_any fun dest => yields_bind_any fun a => yields_ok ⟨n, a, rfl, ?_⟩
    obtain ⟨hlt, hchild, -⟩ := List.idxOf?_eq_some_iff.mp hn
    exact List.getElem?_eq_some_iff.mpr ⟨hlt, hchild⟩
  · exact yields_error

/-- The constants that the code of an instruction refers to are those of its operands. -/
theorem CodeContext.exists_of_constant_mem {code : List Code} (hcode : c.instr i = .ok code) {h : Nat}
    (hh : .constant h ∈ Code.refsOf none code) : ∃ k s, .constant k ∈ i.operands ++ i.targets ∧
      c.proc.constants.get? k = some (.string s) ∧ c.strings.lookup k = some h := by
  have hcovers (o : Operand) (ho : o ∈ i.operands ++ i.targets) :
      c.Covers (fun x => ∀ h, x = .constant h → ∃ k s, .constant k ∈ i.operands ++ i.targets ∧
        c.proc.constants.get? k = some (.string s) ∧ c.strings.lookup k = some h) o := by
    refine ⟨fun _ _ => nofun, fun _ _ => nofun, fun _ _ => nofun, ?_⟩
    rintro k h s rfl hs hh _ ⟨⟩
    exact ⟨k, s, ho, hs, hh⟩
  have hinstr : c.CoversInstr _ i := ⟨fun o ho => hcovers o (List.mem_append_left _ ho),
    fun o ho => hcovers o (List.mem_append_right _ ho), fun _ _ => nofun⟩
  have hkeep := hinstr.instr (fun _ _ _ _ _ => ⟨fun _ _ => nofun, fun _ _ _ _ => nofun⟩)
    (fun _ _ _ _ _ => nofun) code hcode
  exact Code.forall_mem_refsOf hkeep.1 _ hh h rfl

/-- Code that was made for a prototype selects what it means to. -/
theorem CodeContext.selects {symbols : SymbolTable} {f : Function} {name : String} {unit : CodeUnit}
    {P : Prototype} (hfin : c.proc.Finished symbols f) (hunit : c.unit name = .ok unit)
    (hplaces : c.strings = c.proc.stringPlaces) (hstrings : P.strings = c.proc.strings)
    (hchildren : P.children = c.children) : c.Selects P := by
  have hcode (i : Instr) (hi : i ∈ c.proc.instrs) : c.instr i = .ok (c.codeOf i) := by
    obtain ⟨b, _, _, _, hlt, hne, _, _, hmem⟩ := hfin.exists_block hi
    exact (unit_eq hunit).2 b (mem_liveBlocks.mpr ⟨hlt, hne⟩) i hmem
  constructor
  · intro i hi hop child ho
    obtain ⟨n, a, he, hn⟩ := yields_closure hop ho _ (hcode i hi)
    exact ⟨n, a, he ▸ hcode i hi, hchildren ▸ hn⟩
  · intro i hi h hh
    obtain ⟨k, s, hk, hs, hplace⟩ := exists_of_constant_mem (hcode i hi) hh
    rw [hplaces] at hplace
    obtain ⟨s', hs', hP⟩ := Proc.getElem?_strings hplace
    cases hs.symm.trans hs'
    exact ⟨k, s, hk, hs, hstrings ▸ hP⟩
  · intro k s hs
    obtain ⟨h, hplace⟩ := Proc.exists_place hs
    obtain ⟨s', hs', hP⟩ := Proc.getElem?_strings hplace
    cases hs.symm.trans hs'
    refine ⟨h, ?_, hstrings ▸ hP⟩
    have hconst : c.proc.constant? (.constant k) = some (.string s) := hs
    rw [address?, hconst, hplaces]
    dsimp only
    rw [hplace]

/-- The prototypes of a host mirror the procs of a unit one by one, and the code of each proc is right
about its prototype. -/
structure CompiledUnit.MirroredBy (u : CompiledUnit) (options : Options) (host : Host) : Prop where
  size_eq : host.prototypes.size = u.module.procs.size
  procs_eq : u.unit.functions.map (·.proc) = List.range u.module.procs.size
  prototypes : ∀ i p, u.module.procs[i]? = some p → ∃ frame, Frame.compute p = .ok frame ∧
    host.prototypes[i]? =
      some (p.prototype (u.module.children i) frame.size (some (options.stem ++ toString i)))
  code : ∃ units : List CodeUnit, units.length = u.module.procs.size ∧
    u.unit.source = options.heading ++ String.join (units.map fun unit => unit.text ++ "\n") ∧
    ∀ (i : Nat) p P, u.module.procs[i]? = some p → host.prototypes[i]? = some P →
      ∃ (c : CodeContext) (unit : CodeUnit), c.proc = p ∧
        c.unit (options.stem ++ toString i) = .ok unit ∧ units[i]? = some unit ∧ c.Selects P

end Mirror

namespace Tree

variable {t : Tree} {options : Options} {host : Host} {stats : Stats} {u : CompiledUnit}

/-- Compiling on a fresh host makes its prototypes mirror the procs. -/
theorem compile_mirrored (hfresh : host.prototypes = #[{}])
    (h : (t.compile options host Host.root stats).result = .ok u) :
    u.MirroredBy options (t.compile options host Host.root stats).host := by
  obtain ⟨placements, ws, A, hpop, hlength, hprogress, hmirrors, hsize, hattached⟩ :=
    progress_of_compile h
  have hmirrors := hmirrors hfresh rfl
  have hwritten {i : Nat} {p : Proc} (hp : u.module.procs[i]? = some p) : ∃ w, ws[i]? = some w ∧
      w.places = p.stringPlaces ∧
      Generate.Produces options u.module p w.places w.function.frame w.unit ∧
      (t.compile options host Host.root stats).host.prototypes[i]? = some
        (p.prototype (u.module.children i) w.function.frame.size
          (some (options.stem ++ toString i))) := by
    have hlt : i < ws.length := hlength ▸ (Array.getElem?_eq_some_iff.mp hp).1
    have hw : ws[i]? = some ws[i] := List.getElem?_eq_getElem hlt
    obtain ⟨p', hp', -, hname, hprod⟩ := hprogress.produces i _ hw
    cases hp.symm.trans hp'
    obtain ⟨hproto, hplaces, hA⟩ := hmirrors.prototypes i _ p hw hp
    have hchildren : (u.module.children i).filter (· < ws.length) = u.module.children i := by
      refine List.filter_eq_self.mpr fun child hchild => ?_
      obtain ⟨q, hq, -⟩ := hpop.numbered.mem_children.mp hchild
      rw [hlength, decide_eq_true_eq]
      exact (Array.getElem?_eq_some_iff.mp hq).1
    have hfinal := hattached _ (List.getElem_mem hlt)
    rw [hproto, hA, hchildren, hname] at hfinal
    exact ⟨_, hw, hplaces, hprod, hfinal⟩
  constructor
  · rw [hsize, hmirrors.size_eq, hlength]
  · rw [hprogress.functions_eq, List.map_map]
    refine List.ext_getElem (by simp [hlength]) fun i hi _ => ?_
    obtain ⟨p, -, hproc, -⟩ := hprogress.produces i _ (List.getElem?_eq_getElem (by simpa using hi))
    simpa using hproc
  · intro i p hp
    obtain ⟨w, -, -, hprod, hfinal⟩ := hwritten hp
    exact ⟨_, hprod.frame_eq, hfinal⟩
  · refine ⟨ws.map (·.unit), by rw [List.length_map, hlength], ?_, fun i p P hp hP => ?_⟩
    · rw [hprogress.source_eq, List.map_map]
      rfl
    · obtain ⟨w, hw, hplaces, hprod, hfinal⟩ := hwritten hp
      cases hP.symm.trans hfinal
      obtain ⟨pl, hpl⟩ := hpop.assigned.placement? (Array.getElem?_eq_some_iff.mp hp).1
      have hid := hpop.numbered.ids i p hp
      have hname : options.functionName p.id = options.stem ++ toString i := by
        rw [hid]
        rfl
      have hselects := CodeContext.selects (P := p.prototype (u.module.children i)
        w.function.frame.size (some (options.stem ++ toString i))) (hpop.finished i p pl hp hpl)
        hprod.unit_eq hplaces rfl (by rw [hid]; rfl)
      refine ⟨_, w.unit, rfl, hname ▸ hprod.unit_eq, ?_, hselects⟩
      rw [List.getElem?_map, hw, Option.map_some]

/-- A tree is compiled once its unit can be generated. -/
theorem exists_compile (h : (match t.analyse {} with
    | (stats, .ok m) => match m.generate {} {} Host.root stats with
      | (host, _, .ok _) => host.refusal.isNone
      | _ => false
    | _ => false) = true) :
    ∃ m unit, (t.analyse {}).2 = .ok m ∧ (t.compile {} {} Host.root {}).result = .ok ⟨m, unit⟩ := by
  rcases ha : t.analyse {} with ⟨stats, e | m⟩
  · simp [ha] at h
  rcases hg : m.generate {} {} Host.root stats with ⟨host, _, e | unit⟩
  · simp [ha, hg] at h
  simp only [ha, hg, Option.isNone_iff_eq_none] at h
  exact ⟨m, unit, rfl, compile_eq_ok ha hg h⟩

theorem sumOfArray_compiles : ∃ m unit, (sumOfArray.analyse {}).2 = .ok m ∧
    (sumOfArray.compile {} {} Host.root {}).result = .ok ⟨m, unit⟩ :=
  exists_compile (by decide +kernel)

theorem sumOfArray_mirrored : ({} : Host).prototypes = #[{}] ∧
    ∃ u, (sumOfArray.compile {} {} Host.root {}).result = .ok u ∧
      u.MirroredBy {} (sumOfArray.compile {} {} Host.root {}).host ∧
      ∃ P, (sumOfArray.compile {} {} Host.root {}).host.prototypes[0]? = some P ∧
        P.children = [1] ∧ P.strings = ["out", "write", "sum"] := by
  obtain ⟨m, unit, hm, hu⟩ := sumOfArray_compiles
  have hmain : (match (sumOfArray.analyse {}).2 with
      | .ok m => m.procs[0]?.map fun p => (m.children 0, p.strings)
      | .error _ => none) = some ([1], ["out", "write", "sum"]) := by decide +kernel
  simp only [hm, Option.map_eq_some_iff, Prod.mk.injEq] at hmain
  obtain ⟨p, hp, hchildren, hstrings⟩ := hmain
  have hmirrored := compile_mirrored rfl hu
  obtain ⟨frame, -, hP⟩ := hmirrored.prototypes 0 p hp
  exact ⟨rfl, _, hu, hmirrored, _, hP, hchildren, hstrings⟩

end Tree

end ScriptC
