import ScriptC.Proofs.Runs
import ScriptC.Proofs.Scoping.Uses

/-! # Placements of functions

Every proc is the code of a function that is written somewhere in the tree: the root of the main
function, any other proc of a function in the body of its parent. Procs are numbered as their
functions are met, so that a function and all that is nested in it have consecutive numbers.
-/

namespace ScriptC

/-- A function as it is written in a tree. -/
structure Placement where
  function : Function
  /-- The locals of the enclosing function in scope there, the newest first. -/
  locals : List SymbolId
  /-- The locals that the function captures, in the order of its upvalues. -/
  captures : List SymbolId

/-- The local that a symbol captures. -/
def SymbolTable.target? (symbols : SymbolTable) (id : SymbolId) : Option SymbolId :=
  match symbols.get? id with
  | some ⟨_, _, .upvalue target _⟩ => some target
  | _ => none

/-- The descriptor has the name and the type of the symbol. -/
def SymbolTable.Names (symbols : SymbolTable) (id : SymbolId) (u : Upvalue) : Prop :=
  ∃ sym, symbols.get? id = some sym ∧ u.name = sym.name ∧ u.tag = sym.ty.tag

namespace Placement

/-- The main function captures nothing. -/
def root (main : Function) : Placement := ⟨main, [], []⟩

variable (symbols : SymbolTable)

/-- The descriptor reaches the captured local from `outer`: in a register where the function is
written, or among the upvalues of `outer`. -/
def Reaches (outer inner : Placement) (target : SymbolId) (u : Upvalue) : Prop :=
  if u.inParentLocal then
    (∃ name ty, symbols.get? target = some ⟨name, ty, .localOf outer.function.id⟩) ∧
      register? inner.locals target = some u.source
  else outer.captures[u.source]? = some target

/-- The descriptors have the names and the types of the upvalues of `inner`, and reach what they
capture. -/
structure Describes (outer inner : Placement) (upvalues : List Upvalue) : Prop where
  names : List.Forall₂ symbols.Names inner.function.upvalues upvalues
  reaches : List.Forall₂ (outer.Reaches symbols inner) inner.captures upvalues

/-- The function `inner` is written in the body of `outer`, and captures what its upvalues name. -/
structure Nested (outer inner : Placement) : Prop where
  written : (.function inner.function, inner.locals) ∈ outer.function.uses
  captures : inner.function.upvalues.map symbols.target? = inner.captures.map some

end Placement

/-- The proc has the name and the parameters of the function. -/
structure Proc.Heads (p : Proc) (f : Function) : Prop where
  name_eq : p.name = f.name
  params_eq : p.params = f.params.length
  isVararg_eq : p.isVararg = f.isVararg

namespace Module

/-- Every proc is the code of its placement, apart from the `active` ones, which are still being
lowered. -/
structure Assigned (m : Module) (symbols : SymbolTable) (main : Function)
    (placements : List Placement) (active : List Nat) : Prop where
  length_eq : placements.length = m.procs.size
  root : placements[0]? = some (.root main)
  ids : ∀ (i : Nat) (p : Proc), m.procs[i]? = some p → p.id = i
  orphan : ∀ (i : Nat) (p : Proc), m.procs[i]? = some p → p.parent = none → i = 0
  nested : ∀ (i q : Nat) (p : Proc) (outer inner : Placement), m.procs[i]? = some p →
    p.parent = some q → placements[q]? = some outer → placements[i]? = some inner →
      outer.Nested symbols inner
  /-- All procs between a proc and its parent are nested in the parent too. -/
  order : ∀ (i q : Nat) (p : Proc), m.procs[i]? = some p → p.parent = some q → q < i ∧
    ∀ (j : Nat) (p' : Proc), q < j → j < i → m.procs[j]? = some p' →
      ∃ q', p'.parent = some q' ∧ q ≤ q'
  header : ∀ (i : Nat) (p : Proc) (inner : Placement), m.procs[i]? = some p →
    placements[i]? = some inner → i ∉ active → p.Heads inner.function ∧
      (p.parent = none → p.upvalues = []) ∧ ∀ q outer, p.parent = some q →
        placements[q]? = some outer → outer.Describes symbols inner p.upvalues
  active_lt : ∀ q ∈ active, q < m.procs.size
  later : ∀ q ∈ active, ∀ (j : Nat) (p : Proc), q < j → m.procs[j]? = some p →
    ∃ q', p.parent = some q' ∧ q ≤ q'

namespace Assigned

variable {m : Module} {symbols : SymbolTable} {main : Function} {placements : List Placement}
  {active : List Nat}

theorem placement? (h : m.Assigned symbols main placements active) {i : Nat}
    (hi : i < m.procs.size) : ∃ pl, placements[i]? = some pl :=
  ⟨_, List.getElem?_eq_getElem (h.length_eq ▸ hi)⟩

/-- The root is the first proc. -/
theorem start (main : Function) :
    Assigned ⟨#[{ id := 0, parent := none }]⟩ symbols main [.root main] [0] := by
  have hget {i : Nat} {p : Proc} (h : (#[{ id := 0, parent := none }] : Array Proc)[i]? = some p) :
      i = 0 ∧ p = { id := 0, parent := none } := by
    rcases i with _ | i
    · exact ⟨rfl, (Option.some.inj h).symm⟩
    · simp at h
  constructor
  · rfl
  · rfl
  · intro i p hp
    obtain ⟨rfl, rfl⟩ := hget hp
    rfl
  · intro i p hp _
    exact (hget hp).1
  · intro i q p outer inner hp hparent
    obtain ⟨-, rfl⟩ := hget hp
    cases hparent
  · intro i q p hp hparent
    obtain ⟨-, rfl⟩ := hget hp
    cases hparent
  · intro i p inner hp _ hi
    obtain ⟨rfl, -⟩ := hget hp
    simp at hi
  · simp
  · intro q hq j p hlt hp
    obtain ⟨rfl, -⟩ := hget hp
    omega

/-- A function in the body of the one that was begun last becomes the next proc. -/
theorem push (h : m.Assigned symbols main placements active) {current : Nat} {outer inner : Placement}
    (hc : current ∈ active) (hmax : ∀ q ∈ active, q ≤ current)
    (ho : placements[current]? = some outer) (hn : outer.Nested symbols inner) :
    Assigned ⟨m.procs.push { id := m.procs.size, parent := some current }⟩ symbols main
      (placements ++ [inner]) (m.procs.size :: active) := by
  have hlt := h.active_lt current hc
  have hlen := h.length_eq
  have hget {i : Nat} {p : Proc} (hp : (m.procs.push
      { id := m.procs.size, parent := some current })[i]? = some p) :
      m.procs[i]? = some p ∧ i < m.procs.size ∨
        i = m.procs.size ∧ p = { id := m.procs.size, parent := some current } := by
    rw [Array.getElem?_push] at hp
    split at hp
    · rename_i he
      exact Or.inr ⟨he, (Option.some.inj hp).symm⟩
    · exact Or.inl ⟨hp, (Array.getElem?_eq_some_iff.mp hp).1⟩
  have hold {i : Nat} (hi : i < m.procs.size) : (placements ++ [inner])[i]? = placements[i]? :=
    List.getElem?_append_left (by omega)
  constructor
  · simp [hlen]
  · rw [hold (by omega)]
    exact h.root
  · intro i p hp
    rcases hget hp with ⟨hp, -⟩ | ⟨rfl, rfl⟩
    · exact h.ids i p hp
    · rfl
  · intro i p hp hparent
    rcases hget hp with ⟨hp, -⟩ | ⟨rfl, rfl⟩
    · exact h.orphan i p hp hparent
    · cases hparent
  · intro i q p outer' inner' hp hparent ho' hi'
    rcases hget hp with ⟨hp, hi⟩ | ⟨rfl, rfl⟩
    · have hq := (h.order i q p hp hparent).1
      rw [hold (by omega)] at ho' hi'
      exact h.nested i q p outer' inner' hp hparent ho' hi'
    · cases hparent
      rw [hold hlt, ho] at ho'
      cases ho'
      rw [← hlen, List.getElem?_concat_length] at hi'
      cases hi'
      exact hn
  · intro i q p hp hparent
    have hrest {j : Nat} {p' : Proc} (hj : j < m.procs.size) (hp' : (m.procs.push
        { id := m.procs.size, parent := some current })[j]? = some p') : m.procs[j]? = some p' := by
      rcases hget hp' with ⟨hp', -⟩ | ⟨rfl, -⟩
      · exact hp'
      · omega
    rcases hget hp with ⟨hp, hi⟩ | ⟨rfl, rfl⟩
    · obtain ⟨hq, hbetween⟩ := h.order i q p hp hparent
      exact ⟨hq, fun j p' hj hji hp' => hbetween j p' hj hji (hrest (by omega) hp')⟩
    · cases hparent
      exact ⟨hlt, fun j p' hj hji hp' => h.later current hc j p' hj (hrest hji hp')⟩
  · intro i p inner' hp hi' hnot
    simp only [List.mem_cons, not_or] at hnot
    rcases hget hp with ⟨hp, hi⟩ | ⟨rfl, -⟩
    · rw [hold hi] at hi'
      obtain ⟨hhead, hroot, hreach⟩ := h.header i p inner' hp hi' hnot.2
      refine ⟨hhead, hroot, fun q outer' hparent ho' => ?_⟩
      have hq := (h.order i q p hp hparent).1
      rw [hold (by omega)] at ho'
      exact hreach q outer' hparent ho'
    · exact absurd rfl hnot.1
  · intro q hq
    rw [Array.size_push]
    rcases List.mem_cons.mp hq with rfl | hq
    · omega
    · have := h.active_lt q hq
      omega
  · intro q hq j p hj hp
    rcases hget hp with ⟨hp, hi⟩ | ⟨rfl, rfl⟩
    · rcases List.mem_cons.mp hq with rfl | hq
      · omega
      · exact h.later q hq j p hj hp
    · rcases List.mem_cons.mp hq with rfl | hq
      · omega
      · exact ⟨current, rfl, hmax q hq⟩

/-- A function that was lowered gets its code. -/
theorem finish {i : Nat} {q : Proc} {inner : Placement}
    (h : m.Assigned symbols main placements (i :: active)) (hid : q.id = i)
    (hparent : ∀ p, m.procs[i]? = some p → q.parent = p.parent)
    (hi : placements[i]? = some inner) (hhead : q.Heads inner.function)
    (hroot : q.parent = none → q.upvalues = [])
    (hreach : ∀ k outer, q.parent = some k → placements[k]? = some outer →
      outer.Describes symbols inner q.upvalues) :
    Assigned ⟨m.procs.setIfInBounds i q⟩ symbols main placements active := by
  have hget {j : Nat} {p : Proc} (hp : (m.procs.setIfInBounds i q)[j]? = some p) :
      ∃ p', m.procs[j]? = some p' ∧ p.parent = p'.parent ∧ p.id = p'.id ∧
        (j ≠ i ∧ p = p' ∨ j = i ∧ p = q) := by
    by_cases hj : j = i
    · subst hj
      have hlt := h.active_lt j List.mem_cons_self
      rw [Array.getElem?_setIfInBounds_self_of_lt hlt] at hp
      cases hp
      have hp' : m.procs[j]? = some m.procs[j] := Array.getElem?_eq_getElem hlt
      exact ⟨_, hp', hparent _ hp', hid.trans (h.ids j _ hp').symm, Or.inr ⟨rfl, rfl⟩⟩
    · rw [Array.getElem?_setIfInBounds_ne (Ne.symm hj)] at hp
      exact ⟨p, hp, rfl, rfl, Or.inl ⟨hj, rfl⟩⟩
  have hparents {j k : Nat} {p : Proc} (hp : (m.procs.setIfInBounds i q)[j]? = some p)
      (hk : ∀ p', m.procs[j]? = some p' → ∃ k', p'.parent = some k' ∧ k ≤ k') :
      ∃ k', p.parent = some k' ∧ k ≤ k' := by
    obtain ⟨p', hp', he, -⟩ := hget hp
    rw [he]
    exact hk p' hp'
  constructor
  · rw [Array.size_setIfInBounds]
    exact h.length_eq
  · exact h.root
  · intro j p hp
    obtain ⟨p', hp', -, he, -⟩ := hget hp
    exact he.trans (h.ids j p' hp')
  · intro j p hp hnone
    obtain ⟨p', hp', he, -⟩ := hget hp
    exact h.orphan j p' hp' (he ▸ hnone)
  · intro j k p outer inner' hp hk
    obtain ⟨p', hp', he, -⟩ := hget hp
    exact h.nested j k p' outer inner' hp' (he ▸ hk)
  · intro j k p hp hk
    obtain ⟨p', hp', he, -⟩ := hget hp
    obtain ⟨hlt, hbetween⟩ := h.order j k p' hp' (he ▸ hk)
    exact ⟨hlt, fun l p'' hl hlj hp'' => hparents hp'' fun p₀ => hbetween l p₀ hl hlj⟩
  · intro j p inner' hp hinner hnot
    obtain ⟨p', hp', -, -, ⟨hne, rfl⟩ | ⟨rfl, rfl⟩⟩ := hget hp
    · exact h.header j p inner' hp' hinner (by simp [hne, hnot])
    · cases hinner.symm.trans hi
      exact ⟨hhead, hroot, hreach⟩
  · intro k hk
    rw [Array.size_setIfInBounds]
    exact h.active_lt k (List.mem_cons_of_mem i hk)
  · intro k hk j p hj hp
    exact hparents hp fun p' => h.later k (List.mem_cons_of_mem i hk) j p' hj

end Assigned

end Module

end ScriptC
