import ScriptC.Proofs.Regularity.Trees

/-! # Resolution of upvalues

A captured local is found by following descriptors from proc to proc, until one names a register of
the function that declares the local. Every step up captures the same local, and the register is the
one that the local has where the closure on the way is written. A tree whose symbols know their
position among the upvalues of their function therefore reads the locals that it means to.
-/

namespace ScriptC

namespace Tree

/-- The functions of a tree: the main one, and whatever is written in the body of another. -/
inductive Contains (t : Tree) : Function → Prop
  | main : t.Contains t.main
  | nested {f g : Function} {locals : List SymbolId} : t.Contains f →
    (Use.function g, locals) ∈ f.uses → t.Contains g

/-- The index of an upvalue is its position in the upvalue list of every function that uses it. -/
def IndexesUpvalues (t : Tree) : Prop :=
  ∀ f, t.Contains f → ∀ id locals, (Use.variable id, locals) ∈ f.uses →
    ∀ name ty target index, t.symbols.get? id = some ⟨name, ty, .upvalue target index⟩ →
      f.upvalues[index.toNat]? = some id

end Tree

/-- Entry `j` of the upvalues of the function captures the local. -/
def Function.Captures (f : Function) (symbols : SymbolTable) (j : Nat) (target : SymbolId) : Prop :=
  ∃ id, f.upvalues[j]? = some id ∧ symbols.target? id = some target

namespace Placement.Nested

variable {symbols : SymbolTable} {outer inner : Placement} {j : Nat} {target : SymbolId}

theorem captures_iff (h : outer.Nested symbols inner) :
    inner.captures[j]? = some target ↔ inner.function.Captures symbols j target := by
  have hget : (inner.function.upvalues[j]?).map symbols.target? = (inner.captures[j]?).map some := by
    rw [← List.getElem?_map, ← List.getElem?_map, h.captures]
  unfold Function.Captures
  cases hid : inner.function.upvalues[j]? with
  | none =>
    rw [hid, Option.map_none, eq_comm, Option.map_eq_none_iff] at hget
    simp [hget]
  | some id =>
    rw [hid, Option.map_some, eq_comm, Option.map_eq_some_iff] at hget
    obtain ⟨target', hcaptured, htarget⟩ := hget
    simp [hcaptured, ← htarget]

end Placement.Nested

/-- The descriptor of an upvalue has its name and its type. -/
theorem Placement.Describes.entry_of_symbol {symbols : SymbolTable} {outer inner : Placement}
    {upvalues : List Upvalue} (h : outer.Describes symbols inner upvalues) {j : Nat} {id : SymbolId}
    {sym : Symbol} (hid : inner.function.upvalues[j]? = some id) (hsym : symbols.get? id = some sym) :
    ∃ u, upvalues[j]? = some u ∧ u.name = sym.name ∧ u.tag = sym.ty.tag := by
  obtain ⟨hlength, hnames⟩ := List.forall₂_iff_get.mp h.names
  obtain ⟨hlt, rfl⟩ := List.getElem?_eq_some_iff.mp hid
  have hlt' : j < upvalues.length := hlength ▸ hlt
  obtain ⟨sym', hsym', hname, htag⟩ := hnames j hlt hlt'
  cases hsym.symm.trans hsym'
  exact ⟨_, List.getElem?_eq_getElem hlt', hname, htag⟩

namespace Module

/-- How many procs enclose a proc. -/
inductive HasDepth (m : Module) : Nat → Nat → Prop
  | root {i : Nat} {p : Proc} : m.procs[i]? = some p → p.parent = none → m.HasDepth i 0
  | nested {i q d : Nat} {p : Proc} : m.procs[i]? = some p → p.parent = some q → m.HasDepth q d →
    m.HasDepth i (d + 1)

/-- Every proc is the code of a function of the tree: the first of the main one, any other of a
function that is written in the body of its parent's. -/
structure Codes (m : Module) (t : Tree) (placements : List Placement) : Prop where
  length_eq : placements.length = m.procs.size
  root : placements[0]? = some (.root t.main)
  orphan : ∀ (i : Nat) (p : Proc), m.procs[i]? = some p → p.parent = none → i = 0
  nested : ∀ (i q : Nat) (p : Proc), m.procs[i]? = some p → p.parent = some q → q < i ∧
    ∃ outer inner, placements[q]? = some outer ∧ placements[i]? = some inner ∧
      outer.Nested t.symbols inner ∧ List.Forall₂ t.symbols.Names inner.function.upvalues p.upvalues
  heads : ∀ (i : Nat) (p : Proc) (pl : Placement), m.procs[i]? = some p → placements[i]? = some pl →
    p.Heads pl.function

/-- Entry `j` of the upvalues of proc `i` is the descriptor `u`, and captures `target`. The proc is
the code of `inner`, and that of its parent `q` the code of `outer`. -/
structure Captured (m : Module) (symbols : SymbolTable) (placements : List Placement)
    (target : SymbolId) (i j q : Nat) (outer inner : Placement) (u : Upvalue) : Prop where
  entry : ∃ p, m.procs[i]? = some p ∧ p.parent = some q ∧ p.upvalues[j]? = some u
  outer_eq : placements[q]? = some outer
  inner_eq : placements[i]? = some inner
  captures : inner.function.Captures symbols j target

/-- Following the descriptors upwards from entry `j` of proc `i`, all capture `target`, and the
`n`-th one names the register `r` of proc `owner`, where the local is bound at the point where the
closure of that step is written. -/
inductive Resolves (m : Module) (symbols : SymbolTable) (placements : List Placement)
    (target : SymbolId) : (i j n owner r : Nat) → Prop
  | here {i j q : Nat} {outer inner : Placement} {u : Upvalue} {name : String} {ty : Ty} :
    m.Captured symbols placements target i j q outer inner u → u.inParentLocal = true →
    symbols.get? target = some ⟨name, ty, .localOf outer.function.id⟩ →
    register? inner.locals target = some u.source →
    Resolves m symbols placements target i j 1 q u.source
  | above {i j q n owner r : Nat} {outer inner : Placement} {u : Upvalue} :
    m.Captured symbols placements target i j q outer inner u → u.inParentLocal = false →
    Resolves m symbols placements target q u.source n owner r →
    Resolves m symbols placements target i j (n + 1) owner r

namespace Populated

variable {m : Module} {symbols : SymbolTable} {main : Function} {t : Tree}
  {placements : List Placement} {i j d : Nat} {p : Proc}

/-- A proc and its parent, as they stand in the tree. -/
theorem describes (h : m.Populated symbols main [] placements) {q : Nat} (hp : m.procs[i]? = some p)
    (hq : p.parent = some q) : ∃ outer inner, placements[q]? = some outer ∧
      placements[i]? = some inner ∧ outer.Nested symbols inner ∧
      outer.Describes symbols inner p.upvalues := by
  have hi := (Array.getElem?_eq_some_iff.mp hp).1
  have hlt := (h.assigned.order i q p hp hq).1
  obtain ⟨inner, hinner⟩ := h.assigned.placement? hi
  obtain ⟨outer, houter⟩ := h.assigned.placement? (Nat.lt_trans hlt hi)
  have hheader := h.assigned.header i p inner hp hinner List.not_mem_nil
  exact ⟨outer, inner, houter, hinner, h.assigned.nested i q p outer inner hp hq houter hinner,
    hheader.2.2 q outer hq houter⟩

theorem codes (h : m.Populated t.symbols t.main [] placements) : m.Codes t placements where
  length_eq := h.assigned.length_eq
  root := h.assigned.root
  orphan := h.assigned.orphan
  nested i q p hp hq := by
    obtain ⟨outer, inner, houter, hinner, hnested, hdescribes⟩ := h.describes hp hq
    exact ⟨(h.assigned.order i q p hp hq).1, outer, inner, houter, hinner, hnested, hdescribes.names⟩
  heads i p pl hp hpl := (h.assigned.header i p pl hp hpl List.not_mem_nil).1

theorem hasDepth (h : m.Populated symbols main [] placements) (hi : i < m.procs.size) :
    ∃ d, m.HasDepth i d := by
  induction i using Nat.strongRecOn with
  | ind i ih =>
    have hp : m.procs[i]? = some m.procs[i] := Array.getElem?_eq_getElem hi
    cases hq : m.procs[i].parent with
    | none => exact ⟨0, .root hp hq⟩
    | some q =>
      have hlt := (h.assigned.order i q _ hp hq).1
      obtain ⟨d, hd⟩ := ih q hlt (Nat.lt_trans hlt hi)
      exact ⟨d + 1, .nested hp hq hd⟩

/-- Each step up finds the captured local in a register or among what the parent captures, and the
main function captures nothing. -/
theorem resolves (h : m.Populated symbols main [] placements) (hd : m.HasDepth i d)
    {inner : Placement} (hinner : placements[i]? = some inner) {target : SymbolId}
    (hj : inner.captures[j]? = some target) :
    ∃ n owner r, n ≤ d ∧ m.Resolves symbols placements target i j n owner r := by
  induction hd generalizing j inner with
  | root hp hnone =>
    cases h.assigned.orphan _ _ hp hnone
    cases hinner.symm.trans h.assigned.root
    simp [Placement.root] at hj
  | @nested i q d p hp hq _ ih =>
    obtain ⟨outer, inner', houter, hinner', hnested, hdescribes⟩ := h.describes hp hq
    cases hinner.symm.trans hinner'
    obtain ⟨hlength, hreaches⟩ := List.forall₂_iff_get.mp hdescribes.reaches
    obtain ⟨hlt, rfl⟩ := List.getElem?_eq_some_iff.mp hj
    have hlt' : j < p.upvalues.length := hlength ▸ hlt
    have hcaptured : m.Captured symbols placements inner.captures[j] i j q outer inner
        p.upvalues[j] :=
      ⟨⟨p, hp, hq, List.getElem?_eq_getElem hlt'⟩, houter, hinner, hnested.captures_iff.mp hj⟩
    have hreach : outer.Reaches symbols inner inner.captures[j] p.upvalues[j] := hreaches j hlt hlt'
    unfold Placement.Reaches at hreach
    cases hlocal : p.upvalues[j].inParentLocal with
    | true =>
      rw [hlocal, if_pos rfl] at hreach
      obtain ⟨⟨name, ty, hsym⟩, hreg⟩ := hreach
      exact ⟨1, q, _, Nat.le_add_left 1 d, .here hcaptured hlocal hsym hreg⟩
    | false =>
      rw [hlocal, if_neg Bool.false_ne_true] at hreach
      obtain ⟨n, owner, r, hn, hresolves⟩ := ih houter hreach
      exact ⟨n + 1, owner, r, Nat.succ_le_succ hn, .above hcaptured hlocal hresolves⟩

end Populated

theorem Codes.contains {m : Module} {t : Tree} {placements : List Placement}
    (h : m.Codes t placements) {i : Nat} {pl : Placement} (hpl : placements[i]? = some pl) :
    t.Contains pl.function := by
  induction i using Nat.strongRecOn generalizing pl with
  | ind i ih =>
    have hi : i < m.procs.size := h.length_eq ▸ (List.getElem?_eq_some_iff.mp hpl).1
    have hp : m.procs[i]? = some m.procs[i] := Array.getElem?_eq_getElem hi
    cases hq : m.procs[i].parent with
    | none =>
      cases h.orphan i _ hp hq
      cases hpl.symm.trans h.root
      exact .main
    | some q =>
      obtain ⟨hlt, outer, inner, houter, hinner, hnested, -⟩ := h.nested i q _ hp hq
      cases hpl.symm.trans hinner
      exact .nested (ih q hlt houter) hnested.written

end Module

namespace Tree

variable {t : Tree} {stats : Stats} {m : Module}

/-- The upvalues of a proc, and what its instructions read of them, are locals of enclosing
functions. -/
theorem lower_resolves_upvalues (h : (t.lower stats).2 = .ok m) :
    ∃ placements, m.Codes t placements ∧
      ∀ (i : Nat) (p : Proc), m.procs[i]? = some p → p.parent ≠ none →
        ∃ d, m.HasDepth i d ∧
          (∀ j < p.upvalues.length, ∃ target n owner r, n ≤ d ∧
            m.Resolves t.symbols placements target i j n owner r) ∧
          (t.IndexesUpvalues → ∀ instr ∈ p.instrs, ∀ name index tag,
            .symbol (.upvalue name index tag) ∈ instr.operands ++ instr.targets →
              ∃ id ty target k u, t.symbols.get? id = some ⟨name, ty, .upvalue target k⟩ ∧
                k.toNat = index ∧ ty.tag = tag ∧
                p.upvalues[index]? = some u ∧ u.name = name ∧ u.tag = tag ∧
                ∃ n owner r, n ≤ d ∧ m.Resolves t.symbols placements target i index n owner r) := by
  obtain ⟨placements, hpop⟩ := populated_of_lower h
  refine ⟨placements, hpop.codes, fun i p hp hparent => ?_⟩
  obtain ⟨q, hq⟩ := Option.ne_none_iff_exists'.mp hparent
  obtain ⟨d, hd⟩ := hpop.hasDepth (Array.getElem?_eq_some_iff.mp hp).1
  obtain ⟨outer, inner, -, hinner, hnested, hdescribes⟩ := hpop.describes hp hq
  refine ⟨d, hd, fun j hj => ?_, fun hindexes instr hinstr name index tag ho => ?_⟩
  · have hj' : j < inner.captures.length := hdescribes.reaches.length_eq ▸ hj
    exact ⟨inner.captures[j], hpop.resolves hd hinner (List.getElem?_eq_getElem hj')⟩
  · obtain ⟨id, locals, ty, target, k, huse, hsym, rfl, rfl⟩ :=
      (hpop.finished i p inner hp hinner).code instr hinstr _ ho
    have hid := hindexes _ (hpop.codes.contains hinner) id locals huse name ty target k hsym
    obtain ⟨u, hu, hname, htag⟩ := hdescribes.entry_of_symbol hid hsym
    have hcaptured : inner.captures[k.toNat]? = some target :=
      hnested.captures_iff.mpr ⟨id, hid, by simp [SymbolTable.target?, hsym]⟩
    exact ⟨id, ty, target, k, u, hsym, rfl, rfl, hu, hname, htag, hpop.resolves hd hinner hcaptured⟩

/-- The innermost function reads the second local of the main one, through the function between
them. -/
def twoLevels : Tree where
  symbols := ⟨#[⟨"x", .any, .localOf 0⟩, ⟨"y", .any, .localOf 0⟩, ⟨"x", .any, .upvalue 0 0⟩,
    ⟨"y", .any, .upvalue 1 1⟩, ⟨"y", .any, .upvalue 1 0⟩]⟩
  main :=
    { id := 0, name := none, params := [], isVararg := false, upvalues := []
      body := [.declare [0, 1] [], .ret [⟨.any, .function middle⟩]] }
where
  middle : Function :=
    { id := 1, name := some "middle", params := [], isVararg := false, upvalues := [2, 3]
      body := [.ret [⟨.any, .function innermost⟩]] }
  innermost : Function :=
    { id := 2, name := some "innermost", params := [], isVararg := false, upvalues := [4]
      body := [.ret [⟨.any, .symbol 4⟩]] }

theorem twoLevels_indexesUpvalues : twoLevels.IndexesUpvalues := by
  have hmain : twoLevels.main.uses = [(.function twoLevels.middle, [1, 0])] := rfl
  have hmiddle : twoLevels.middle.uses = [(.function twoLevels.innermost, [])] := rfl
  have hinnermost : twoLevels.innermost.uses = [(.variable 4, [])] := rfl
  have hcontains {f : Function} (hf : twoLevels.Contains f) :
      f = twoLevels.main ∨ f = twoLevels.middle ∨ f = twoLevels.innermost := by
    induction hf with
    | main => exact .inl rfl
    | nested _ hg ih =>
      rcases ih with rfl | rfl | rfl
      · simp only [hmain, List.mem_singleton, Prod.mk.injEq, Use.function.injEq] at hg
        exact .inr (.inl hg.1)
      · simp only [hmiddle, List.mem_singleton, Prod.mk.injEq, Use.function.injEq] at hg
        exact .inr (.inr hg.1)
      · simp [hinnermost] at hg
  intro f hf id locals hid name ty target index hsym
  rcases hcontains hf with rfl | rfl | rfl
  · simp [hmain] at hid
  · simp [hmiddle] at hid
  · simp only [hinnermost, List.mem_singleton, Prod.mk.injEq, Use.variable.injEq] at hid
    obtain ⟨rfl, -⟩ := hid
    cases hsym
    rfl

theorem twoLevels_resolves_upvalues : twoLevels.IndexesUpvalues ∧
    ∃ m, (twoLevels.lower {}).2 = .ok m ∧ ∃ placements, m.Codes twoLevels placements ∧
      ∃ p, m.procs[2]? = some p ∧ p.parent = some 1 ∧ p.upvalues = [⟨"y", .any, 1, false⟩] ∧
        ∃ target n owner r, m.Resolves twoLevels.symbols placements target 2 0 n owner r := by
  refine ⟨twoLevels_indexesUpvalues, ?_⟩
  have hprocs : ((twoLevels.lower {}).2.toOption.bind fun m =>
      (m.procs[2]?).map fun p => (p.parent, p.upvalues)) = some (some 1, [⟨"y", .any, 1, false⟩]) := by
    decide +kernel
  cases hm : (twoLevels.lower {}).2 with
  | error e => simp [hm, Except.toOption] at hprocs
  | ok m =>
    simp only [hm, Except.toOption, Option.bind_some, Option.map_eq_some_iff, Prod.mk.injEq] at hprocs
    obtain ⟨p, hp, hparent, hupvalues⟩ := hprocs
    obtain ⟨placements, hcodes, hresolves⟩ := lower_resolves_upvalues hm
    obtain ⟨d, -, hentries, -⟩ := hresolves 2 p hp (by simp [hparent])
    obtain ⟨target, n, owner, r, -, hr⟩ := hentries 0 (by simp [hupvalues])
    exact ⟨m, rfl, placements, hcodes, p, hp, hparent, hupvalues, target, n, owner, r, hr⟩

end Tree

end ScriptC
