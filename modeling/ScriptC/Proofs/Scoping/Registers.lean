import ScriptC.Proc
import ScriptC.Proofs.Scoping.Uses

/-! # Registers of locals

While a function is lowered, the locals in scope have the registers from 0 on, in the order of their
declarations. The history of a function lists the locals in scope after each change.
-/

namespace ScriptC

/-- Locals that were in scope, the newest first, with their registers. -/
abbrev History := List (List (SymbolId × Nat))

/-- If the operand names a local, it has the register of the innermost binding of a symbol among
locals that were in scope. -/
def Operand.Bound (symbols : SymbolTable) (history : History) : Operand → Prop
  | symbol (.localVar name reg tag) => ∃ id sym, symbols.get? id = some sym ∧ sym.name = name ∧
      sym.ty.tag = tag ∧ ∃ visible ∈ history, visible.lookup id = some reg
  | _ => True

theorem Operand.Bound.cons {symbols : SymbolTable} {history : History} {o : Operand}
    (h : o.Bound symbols history) (visible : List (SymbolId × Nat)) :
    o.Bound symbols (visible :: history) := by
  unfold Bound at h ⊢
  split at h
  · obtain ⟨id, sym, hs, hn, ht, v, hv, hr⟩ := h
    exact ⟨id, sym, hs, hn, ht, v, List.mem_cons_of_mem _ hv, hr⟩
  · trivial

/-- What the history of its function says about the registers of a proc. -/
structure Proc.Numbers (symbols : SymbolTable) (f : Function) (p : Proc) (history : History) :
    Prop where
  registers : ∀ visible ∈ history, (visible.map Prod.snd).reverse = List.range visible.length
  /-- The parameters are declared before anything else. -/
  params : ∀ visible ∈ history, f.params <+: (visible.map Prod.fst).reverse ∨
    (visible.map Prod.fst).reverse <+: f.params
  all_params : ∃ visible ∈ history, visible.reverse = f.params.zipIdx
  numLocals : (history.map List.length).max? = some p.numLocals
  operands : ∀ i ∈ p.instrs, ∀ o ∈ i.operands ++ i.targets, o.Bound symbols history

section Numbered

theorem map_fst_numbered (locals : List SymbolId) : (numbered locals).map Prod.fst = locals := by
  induction locals with
  | nil => rfl
  | cons x locals ih => rw [numbered, List.map_cons, ih]

theorem length_numbered (locals : List SymbolId) : (numbered locals).length = locals.length := by
  rw [← List.length_map Prod.fst, map_fst_numbered]

theorem reverse_numbered (locals : List SymbolId) :
    (numbered locals).reverse = locals.reverse.zipIdx := by
  induction locals with
  | nil => rfl
  | cons x locals ih => simp [numbered, ih, List.zipIdx_append]

theorem map_snd_numbered (locals : List SymbolId) :
    ((numbered locals).map Prod.snd).reverse = List.range locals.length := by
  rw [← List.map_reverse, reverse_numbered, List.zipIdx_map_snd, List.length_reverse,
    List.range_eq_range']

/-- The registers of older locals do not depend on newer ones. -/
theorem drop_numbered (newer older : List SymbolId) :
    (numbered (newer ++ older)).drop newer.length = numbered older := by
  induction newer with
  | nil => rfl
  | cons x newer ih => exact ih

end Numbered

/-- The locals begin with the parameters, as far as these are declared. -/
def Function.Admits (f : Function) (locals : List SymbolId) : Prop :=
  f.params.reverse <:+ locals ∨ locals <:+ f.params.reverse

/-- The history of a function with these locals in scope, of which at most `n` were in scope at the
same time. -/
structure Chronicle (f : Function) (locals : List SymbolId) (history : History) (n : Nat) :
    Prop where
  numbered : ∀ visible ∈ history, ∃ l, visible = ScriptC.numbered l ∧ l.length ≤ n ∧ f.Admits l
  attained : ∃ visible ∈ history, visible.length = n
  /-- Every local in scope was once the newest. -/
  mem : ∀ l, l <:+ locals → ScriptC.numbered l ∈ history

namespace Chronicle

variable {f : Function} {locals l : List SymbolId} {history : History} {n : Nat}

theorem start (f : Function) : Chronicle f [] [[]] 0 where
  numbered := List.forall_mem_singleton.mpr ⟨[], rfl, Nat.le_refl 0, .inr List.nil_suffix⟩
  attained := by simp
  mem := by simp [ScriptC.numbered]

theorem declare (h : Chronicle f locals history n) {id : SymbolId} (ha : f.Admits (id :: locals)) :
    Chronicle f (id :: locals) (ScriptC.numbered (id :: locals) :: history)
      (max n (locals.length + 1)) where
  numbered := by
    refine List.forall_mem_cons.mpr ⟨⟨_, rfl, Nat.le_max_right _ _, ha⟩, fun v hv => ?_⟩
    obtain ⟨l, rfl, hl, ha'⟩ := h.numbered v hv
    exact ⟨l, rfl, Nat.le_trans hl (Nat.le_max_left _ _), ha'⟩
  attained := by
    obtain ⟨v, hv, hn⟩ := h.attained
    rcases Nat.le_total n (locals.length + 1) with hle | hle
    · refine ⟨_, List.mem_cons_self, ?_⟩
      rw [length_numbered, List.length_cons, Nat.max_eq_right hle]
    · exact ⟨v, List.mem_cons_of_mem _ hv, hn.trans (Nat.max_eq_left hle).symm⟩
  mem l hl := by
    rcases List.suffix_cons_iff.mp hl with rfl | hl
    · exact List.mem_cons_self
    · exact List.mem_cons_of_mem _ (h.mem l hl)

/-- The newest locals go out of scope. -/
theorem drop (h : Chronicle f locals history n) (hl : l <:+ locals) : Chronicle f l history n :=
  { h with mem := fun l' hl' => h.mem l' (hl'.trans hl) }

/-- What is in scope after older locals have become the newest is noted. -/
theorem note (h : Chronicle f locals history n) (hl : l <:+ locals) :
    Chronicle f locals (ScriptC.numbered l :: history) n where
  numbered := List.forall_mem_cons.mpr ⟨h.numbered _ (h.mem l hl), h.numbered⟩
  attained := by
    obtain ⟨v, hv, hn⟩ := h.attained
    exact ⟨v, List.mem_cons_of_mem _ hv, hn⟩
  mem l' hl' := List.mem_cons_of_mem _ (h.mem l' hl')

theorem numbers {symbols : SymbolTable} {p : Proc} (h : Chronicle f locals history p.numLocals)
    (hp : ScriptC.numbered f.params.reverse ∈ history)
    (ho : ∀ i ∈ p.instrs, ∀ o ∈ i.operands ++ i.targets, o.Bound symbols history) :
    p.Numbers symbols f history where
  registers v hv := by
    obtain ⟨l, rfl, -⟩ := h.numbered v hv
    rw [map_snd_numbered, length_numbered]
  params v hv := by
    obtain ⟨l, rfl, -, ha⟩ := h.numbered v hv
    have hp := ha.imp List.reverse_prefix.mpr List.reverse_prefix.mpr
    rwa [List.reverse_reverse, ← map_fst_numbered l] at hp
  all_params := ⟨_, hp, by rw [reverse_numbered, List.reverse_reverse]⟩
  numLocals := by
    rw [List.max?_eq_some_iff]
    refine ⟨List.mem_map.mpr h.attained, List.forall_mem_map.mpr fun v hv => ?_⟩
    obtain ⟨l, rfl, hl, -⟩ := h.numbered v hv
    rwa [length_numbered]
  operands := ho

end Chronicle

end ScriptC
