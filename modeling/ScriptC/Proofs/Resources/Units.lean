import ScriptC.Proofs.Mirror.Units

/-! # Resources of compiled trees

Once a tree is compiled, on whatever host, the function of every proc stays within its resources: the
native variables and scratch values that it declares, and the slots that its prototype was told to
reserve. Operands on the stack share a slot exactly if they share storage.
-/

namespace ScriptC

section Declarations

/-- How a native variable is declared. -/
def Ref.declaration? : Ref → Option String
  | int r => some s!"ravel_int i_{r} = 0;"
  | float r => some s!"ravel_num f_{r} = 0.0;"
  | _ => none

/-- The text is part of the prologue of a function. -/
def CodeUnit.Declares (unit : CodeUnit) (text : String) : Prop :=
  ∃ before after, unit.prologue = before ++ text ++ after

theorem exists_append_linesAt_eq (start : String) {depth : Nat} {text : String} {texts : List String}
    (h : text ∈ texts) : ∃ before after, start ++ linesAt depth texts = before ++ text ++ after := by
  obtain ⟨first, rest, rfl⟩ := List.append_of_mem h
  rw [linesAt, List.map_append, List.map_cons, String.join_append, String.join_cons, indented]
  generalize String.join (first.map _) = lines
  generalize String.join (List.replicate depth _) = margin
  refine ⟨start ++ lines ++ margin, "\n" ++ String.join (rest.map (indented depth)), ?_⟩
  simp only [String.append_assoc]

/-- The native variables of a function are declared in its prologue. -/
theorem Ref.Within.declares {unit : CodeUnit} {slots : Nat} {x : Ref} (h : x.Within unit slots)
    {text : String} (hx : x.declaration? = some text) : unit.Declares text := by
  refine exists_append_linesAt_eq _ ?_
  simp only [List.mem_append, List.mem_map, List.mem_range]
  cases x with
  | int r =>
    obtain rfl := Option.some.inj hx
    exact .inl (.inl (.inr ⟨r, h, rfl⟩))
  | float r =>
    obtain rfl := Option.some.inj hx
    exact .inl (.inr ⟨r, h, rfl⟩)
  | _ => cases hx

end Declarations

/-- The function of a proc stays within what it declares and within some slots, and its frame keeps
storage apart that is not shared. -/
structure CodeUnit.StaysWithin (unit : CodeUnit) (p : Proc) (frame : Frame) (slots : Nat) : Prop where
  refs : ∀ x ∈ unit.refs, x.Within unit slots
  declared : ∀ x ∈ unit.refs, ∀ text, x.declaration? = some text → unit.Declares text
  numLocals_eq : frame.numLocals = p.numLocals
  seated : ∀ i ∈ p.instrs, ∀ o ∈ i.operands ++ i.targets, frame.OnStack o →
    ∃ s < slots, frame.slot? o = .ok (some s)
  shared : ∀ a b s r, frame.OnStack a → frame.OnStack b → frame.slot? a = .ok (some s) →
    frame.slot? b = .ok (some r) → a.sharesStorage b = .ok (decide (s = r))

/-- The C of a unit is made of the functions of its procs, and each stays within what it declares and
within the slots that its prototype reserves for its frame. -/
def CompiledUnit.StaysWithin (u : CompiledUnit) (options : Options) (host : Host) : Prop :=
  ∃ units : List CodeUnit, units.length = u.module.procs.size ∧
    u.unit.source = options.heading ++ String.join (units.map fun unit => unit.text ++ "\n") ∧
    ∀ (i : Nat) p, u.module.procs[i]? = some p →
      ∃ (f : GeneratedFunction) (c : CodeContext) (unit : CodeUnit) (P : Prototype),
        u.unit.functions[i]? = some f ∧ f.proc = i ∧ Frame.compute p = .ok f.frame ∧
        c.proc = p ∧ c.frame = f.frame ∧ c.unit f.name = .ok unit ∧ units[i]? = some unit ∧
        host.prototypes[f.prototype]? = some P ∧ P.slots = f.frame.size ∧
        unit.StaysWithin p f.frame P.slots

/-- The function of a finished proc stays within its frame. -/
theorem CodeContext.staysWithin {c : CodeContext} {symbols : SymbolTable} {f : Function} {name : String}
    {unit : CodeUnit} (h : c.proc.Finished symbols f) (hframe : Frame.compute c.proc = .ok c.frame)
    (hunit : c.unit name = .ok unit) : unit.StaysWithin c.proc c.frame c.frame.size := by
  have hf := Frame.accommodates_of_compute hframe
  have hrefs := refs_within h hf hunit
  refine ⟨hrefs, fun x hx text => (hrefs x hx).declares, hf.numLocals_eq,
    fun i hi o ho hstack => ?_, ?_⟩
  · obtain ⟨s, hs⟩ : ∃ s, c.frame.position o = some s := by
      rcases hstack.cases with ⟨r, -, -, hr⟩ | ⟨r, -, hr⟩ <;> exact ⟨_, hr⟩
    obtain ⟨hlt, hnumber⟩ := hf.position_lt hi ho (h.code i hi o ho) hs
    exact ⟨s, hlt, Frame.slot?_eq_some_iff.mpr ⟨hs, hnumber⟩⟩
  · intro a b s r ha hb hs hr
    exact Frame.sharesStorage_eq ha hb hs hr

namespace Tree

variable {t : Tree} {options : Options} {host : Host} {root : Nat} {stats : Stats} {u : CompiledUnit}

/-- Generated code stays inside of its declared resources. -/
theorem compile_staysWithin (h : (t.compile options host root stats).result = .ok u) :
    u.StaysWithin options (t.compile options host root stats).host := by
  obtain ⟨placements, ws, A, hpop, hlength, hprogress, -, -, hattached⟩ := progress_of_compile h
  refine ⟨ws.map (·.unit), by rw [List.length_map, hlength], ?_, fun i p hp => ?_⟩
  · rw [hprogress.source_eq, List.map_map]
    rfl
  · have hlt := (Array.getElem?_eq_some_iff.mp hp).1
    have hw : ws[i]? = some ws[i] := List.getElem?_eq_getElem (hlength ▸ hlt)
    have hmem : ws[i] ∈ ws := List.getElem_mem _
    generalize ws[i] = w at hw hmem
    obtain ⟨p', hp', hproc, hname, hprod⟩ := hprogress.produces i w hw
    cases hp.symm.trans hp'
    obtain ⟨P, hP, hslots⟩ := hprogress.slots w hmem
    have hfinal := hattached w hmem
    rw [hP, Option.map_some] at hfinal
    obtain ⟨pl, hpl⟩ := hpop.assigned.placement? hlt
    have hstays := CodeContext.staysWithin (hpop.finished i p pl hp hpl) hprod.frame_eq hprod.unit_eq
    refine ⟨w.function, ⟨p, u.module.children p.id, w.function.frame, w.places⟩, w.unit, _, ?_, hproc,
      hprod.frame_eq, rfl, rfl, ?_, ?_, hfinal, hslots, ?_⟩
    · rw [hprogress.functions_eq, List.getElem?_map, hw, Option.map_some]
    · rw [hname, ← hpop.numbered.ids i p hp]
      exact hprod.unit_eq
    · rw [List.getElem?_map, hw, Option.map_some]
    · rw [← hslots] at hstays
      exact hstays

theorem sumOfArray_staysWithin : ∃ u, (sumOfArray.compile {} {} Host.root {}).result = .ok u ∧
    u.StaysWithin {} (sumOfArray.compile {} {} Host.root {}).host := by
  obtain ⟨m, unit, -, hu⟩ := sumOfArray_compiles
  exact ⟨_, hu, compile_staysWithin hu⟩

end Tree

end ScriptC
