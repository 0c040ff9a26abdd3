import ScriptC.Proofs.Assignments.Conflicts

/-! # Code of assignments

The targets of an assignment are evaluated first, then the values, which are copied if there are
several targets. The code ends with one write for each target. Nothing that was there before the
statement is changed or moved.
-/

namespace ScriptC

theorem Proc.Extends.constant? {p q : Proc} (h : p.Extends q) {o : Operand} {c : Constant}
    (hc : p.constant? o = some c) : q.constant? o = some c := by
  cases o <;> first | exact h.constants _ _ hc | cases hc

namespace Lower

variable {s s' : LoweringState}

section Copies

/-- The values that are written: copies of variables if there are several targets. -/
def copies (ts : List Target) (list : ValueList) : Lower ValueList :=
  if 1 < ts.length then do
    let copies ← snapshots list.values
    return ⟨copies.values, list.owned ++ copies.owned⟩
  else return list

theorem store_eq (ts : List Target) (list : ValueList) :
    store ts list = (do
      let taken ← copies ts list
      writeAll ts taken.values
      freeAll taken.owned
      ts.reverse.forM releaseTarget) := by
  unfold store copies
  split <;> simp only [bind_assoc, pure_bind]

/-- A value that is no variable is taken as it is. A variable was moved to a temporary before, by an
instruction after the `fresh` first ones. -/
def IsSnapshot (p : Proc) (fresh : Nat) (entry taken : Operand × TypeTag) : Prop :=
  (entry.1.isVariable = false ∧ taken = entry) ∨
    entry.1.isVariable = true ∧ ∃ r i b, taken = (.temp (copyKind entry.2) r, entry.2) ∧
      fresh ≤ i ∧ p.instrs[i]? =
        some ⟨moveOpcode (destTag taken.1) entry.2, [entry.1], [taken.1], b⟩

theorem IsCopied.isSnapshot {ids : List Nat} {copies : List Write} {entry taken : Operand × TypeTag}
    (h : IsCopied copies entry taken) (hs : Appends s [] ids copies s') :
    IsSnapshot s'.fn.proc s.fn.proc.instrs.size entry taken := by
  rcases h with h | ⟨he, r, ht, hm⟩
  · exact .inl h
  · obtain ⟨k, hk, hw⟩ := List.mem_iff_getElem.mp hm
    have hstands := hs.stand.get (by simpa [hs.stand.length_eq] using hk) hk
    rw [List.get_eq_getElem, List.get_eq_getElem, hw] at hstands
    exact .inr ⟨he, r, _, _, ht, hstands.fresh rfl, hstands.instr⟩

end Copies

section Targets

variable {symbols : SymbolTable}

theorem Target.Denotes.retained {p q : Proc} {e : Expr} {t : Target} (h : t.Denotes symbols p e)
    (hq : p.Extends q) : t.Denotes symbols q e := by
  cases h with
  | localVar hs hk => exact .localVar hs hk
  | upvalue hs hk => exact .upvalue hs hk
  | global hs hk hc hi => exact .global hs hk (hq.constant? hc) (hq.instrs _ _ hi)
  | element ho hk hc hi => exact .element ho hk hc (hq.instrs _ _ hi)

/-- What a target stands for is not changed by the evaluation of the next ones. -/
theorem ends_ofTargets_denote (es : List Expr)
    (hs : ∀ b, ∀ i ∈ s.fn.proc.ids b, i < s.fn.proc.instrs.size) :
    Ends ((ofTargets symbols es).mapM id) s
      (fun ts s' => List.Forall₂ (Target.Denotes symbols s'.fn.proc) es ts) fun _ _ => True := by
  induction es generalizing s with
  | nil => exact .nil
  | cons e es ih =>
    have hfirst := ((lawful_upkeep hs symbols).ofTarget (t := e) (i := ()) trivial
      fun _ object key _ => ⟨evaluates_upkeep hs symbols object,
        evaluates_upkeep hs symbols key⟩).keeps (.refl hs (List.forall_mem_nil _))
    rw [ofTargets, List.mapM_cons, ends_bind]
    refine ((ends_ofTarget_denotes e s).and hfirst).mono ?_ fun _ _ h => h.1
    rintro t s₁ ⟨ht, h₁, -⟩
    have hrest := ((lawful_upkeep h₁.ids_lt symbols).ofTargets (i := ()) es
      (fun _ _ => trivial) fun _ _ _ object key _ => ⟨evaluates_upkeep h₁.ids_lt symbols object,
        evaluates_upkeep h₁.ids_lt symbols key⟩).keeps (.refl h₁.ids_lt (List.forall_mem_nil _))
    rw [← ofTargets_eq_map] at hrest
    rw [ends_bind]
    refine ((ih h₁.ids_lt).and hrest).mono ?_ fun _ _ h => h.1
    rintro ts s₂ ⟨hts, h₂, -⟩
    exact .cons (ht.retained h₂.toExtends) hts

end Targets

section Statements

variable {symbols : SymbolTable} {targets exprs : List Expr} {loads ids : List Nat}
  {writes : List Write}

/-- Since the state `s`, the writes have been appended, and the loads among them were taken from
where they stood. -/
structure Rewrites (s : LoweringState) (loads ids : List Nat) (writes : List Write)
    (s' : LoweringState) : Prop extends Appends s loads ids writes s' where
  lists : ∀ b, s'.fn.proc.ids b = (s.fn.proc.ids b).filter (· ∉ loads) ++
    if b = s'.fn.block then ids else []

theorem Rewrites.count_eq (h : Rewrites s loads ids writes s') {load : Nat}
    (hl : load ∈ loads) (b : Nat) :
    (s'.fn.proc.ids b).count load = if b = s'.fn.block then 1 else 0 := by
  have hnot : load ∉ (s.fn.proc.ids b).filter (· ∉ loads) := by simp [hl]
  rw [h.lists, List.count_append, List.count_eq_zero_of_not_mem hnot, Nat.zero_add]
  split
  · have hle := List.nodup_iff_count.mp h.nodup load
    have hpos := List.count_pos_iff.mpr ((h.mem_ids load).mpr (.inl hl))
    omega
  · rfl


/-- The code of an assignment. Its targets and values are evaluated up to `s₁`, the values are copied
up to `s₂`, and the writes have the `ids`. -/
structure Assigned (symbols : SymbolTable) (targets exprs : List Expr) (s : LoweringState)
    (ts : List Target) (list : ValueList) (s₁ : LoweringState) (taken : ValueList)
    (s₂ : LoweringState) (ids : List Nat) (s' : LoweringState) : Prop where
  operands : assignOperands (ofTargets symbols targets) (ofExprs symbols exprs) s
    = .ok (ts, list) s₁
  copies : copies ts list s₁ = .ok taken s₂
  denote : List.Forall₂ (Target.Denotes symbols s₂.fn.proc) targets ts
  snapshots : 1 < ts.length → List.Forall₂
    (IsSnapshot s₂.fn.proc s₁.fn.proc.instrs.size) list.values taken.values
  /-- Each global or element has a load of its own. -/
  nodup : (ts.filterMap Target.load?).Nodup
  /-- The writes are instructions at the end of the block. -/
  stand : List.Forall₂ (fun i w =>
    w.StandsAt s'.fn.proc s'.fn.block s₂.fn.proc.instrs.size i) ids
    (writesTo s₂.fn.proc.instrs ts taken.values)
  lists : ∀ b, s'.fn.proc.ids b =
    (s₂.fn.proc.ids b).filter (· ∉ ts.filterMap Target.load?) ++
      if b = s'.fn.block then ids else []
  block_eq : s₂.fn.proc.isTerminated s₂.fn.block = false → s'.fn.block = s₂.fn.block
  /-- What was a load is listed once. -/
  count : ∀ load ∈ ts.filterMap Target.load?, ∀ b,
    (s'.fn.proc.ids b).count load = if b = s'.fn.block then 1 else 0
  others : ∀ i < s₂.fn.proc.instrs.size, i ∉ ts.filterMap Target.load? →
    s'.fn.proc.instrs[i]? = s₂.fn.proc.instrs[i]?
  new : ∀ i, s₂.fn.proc.instrs.size ≤ i → i < s'.fn.proc.instrs.size → i ∈ ids
  /-- What was there before the statement is unchanged and in the same place. -/
  before : ∀ i < s.fn.proc.instrs.size, s'.fn.proc.instrs[i]? = s.fn.proc.instrs[i]?
  order : ∀ b, s.fn.proc.ids b <+: s'.fn.proc.ids b

/-- Evaluating the operands keeps up the code before, and loads come after it. -/
theorem ends_assignOperands_upholds (symbols : SymbolTable) (targets exprs : List Expr)
    (hs : ∀ b, ∀ i ∈ s.fn.proc.ids b, i < s.fn.proc.instrs.size) :
    Ends (assignOperands (ofTargets symbols targets) (ofExprs symbols exprs)) s (fun r s' =>
      s.fn.proc.Upholds [] s'.fn.proc ∧ (∀ t ∈ r.1, (s.fn.proc.upkeep []).Aims t) ∧
        (s.fn.proc.upkeep []).Collects symbols (fun _ => True) r.2) fun _ _ => True := by
  have h : Policy.Lawful symbols (fun _ => True) fun _ : Unit => s.fn.proc.upkeep [] :=
    lawful_upkeep hs symbols
  have hops : (s.fn.proc.upkeep []).Observes True (assignOperands
      (targets.map (ofTarget symbols)) (exprs.map (ofExpr symbols))) fun r =>
        (∀ t ∈ r.1, (s.fn.proc.upkeep []).Aims t) ∧
          (s.fn.proc.upkeep []).Collects symbols (fun _ => True) r.2 := by
    refine (h.ofTargets (i := ()) _ (fun _ _ => trivial) fun _ _ _ object key _ =>
      ⟨evaluates_upkeep hs symbols object, evaluates_upkeep hs symbols key⟩).bind fun ts => ?_
    exact (h.values (i := ()) _ _ fun e _ => evaluates_upkeep hs symbols e).bind fun list =>
        Policy.observes_pure fun hP => ⟨hP.1.2, hP.2⟩
  rw [ofTargets_eq_map, ofExprs_eq_map]
  exact hops.keeps (.refl hs (List.forall_mem_nil _))

theorem ends_assignOperands_denote (symbols : SymbolTable) (targets exprs : List Expr)
    (hs : ∀ b, ∀ i ∈ s.fn.proc.ids b, i < s.fn.proc.instrs.size) :
    Ends (assignOperands (ofTargets symbols targets) (ofExprs symbols exprs)) s (fun r s' =>
      List.Forall₂ (Target.Denotes symbols s'.fn.proc) targets r.1) fun _ _ => True := by
  have htargets := ((lawful_upkeep hs symbols).ofTargets (i := ()) targets
    (fun _ _ => trivial) fun _ _ _ object key _ => ⟨evaluates_upkeep hs symbols object,
      evaluates_upkeep hs symbols key⟩).keeps (.refl hs (List.forall_mem_nil _))
  rw [← ofTargets_eq_map] at htargets
  rw [assignOperands, ends_bind]
  refine ((ends_ofTargets_denote targets hs).and htargets).mono ?_ fun _ _ h => h.1
  rintro ts s₁ ⟨hts, h₁, -⟩
  have hvalues := ((lawful_upkeep h₁.ids_lt symbols).values (i := ()) ts.length exprs
    fun e _ => evaluates_upkeep h₁.ids_lt symbols e).keeps (.refl h₁.ids_lt (List.forall_mem_nil _))
  rw [← ofExprs_eq_map] at hvalues
  rw [ends_bind]
  refine hvalues.imp ?_
  rintro list s₂ ⟨h₂, -⟩
  exact hts.imp fun _ _ ht => ht.retained h₂.toExtends

theorem ends_copies_upholds {p : Proc} {list : ValueList} (ts : List Target)
    (hp : ∀ b, ∀ i ∈ p.ids b, i < p.instrs.size) (hs : p.Upholds [] s.fn.proc)
    (hl : ∀ entry ∈ list.values,
      Origin.IsEntry symbols (fun _ => True) (p.upkeep []).Leads entry.1 entry.2) :
    Ends (copies ts list) s (fun _ s' => p.Upholds [] s'.fn.proc) fun _ _ => True := by
  have hcopies : (p.upkeep []).Observes True (copies ts list) fun _ => True := by
    unfold copies
    split
    · exact ((lawful_upkeep hp symbols).snapshots (i := ()) fun _ => hl).seq fun _ =>
        Policy.observes_pure fun _ => trivial
    · exact Policy.observes_pure fun _ => trivial
  exact (hcopies.keeps hs).imp fun _ _ h => h.1

theorem ends_copies (ts : List Target) (list : ValueList) (s : LoweringState) :
    Ends (copies ts list) s (fun taken s' => 1 < ts.length → List.Forall₂
      (IsSnapshot s'.fn.proc s.fn.proc.instrs.size) list.values taken.values) fun _ _ => True := by
  unfold copies
  split
  · rw [ends_bind]
    refine ((Appends.refl s).snapshots list.values).imp ?_
    rintro taken s' ⟨ids, copies, h, htaken, -⟩ -
    exact htaken.imp fun _ _ ht => ht.isSnapshot h
  · rename_i h
    exact fun h' => absurd h' h

/-- A load that was emitted since is where its block lists it. -/
theorem shelves_of_upholds {p q : Proc} (h : p.Upholds [] q) {load : Nat}
    (hl : p.instrs.size ≤ load) : q.Shelves load := by
  intro instr b hi hb
  obtain ⟨instr', hi', hb'⟩ := h.shelved b load hb hl
  cases hi.symm.trans hi'
  exact hb'

theorem ends_assign_steps (symbols : SymbolTable) (targets exprs : List Expr)
    (hs : ∀ b, ∀ i ∈ s.fn.proc.ids b, i < s.fn.proc.instrs.size) :
    Ends (ofStmt symbols (.assign targets exprs)) s (fun _ s' => ∃ ts list s₁ taken s₂ ids,
      assignOperands (ofTargets symbols targets) (ofExprs symbols exprs) s = .ok (ts, list) s₁ ∧
      copies ts list s₁ = .ok taken s₂ ∧
      List.Forall₂ (Target.Denotes symbols s₂.fn.proc) targets ts ∧
      (1 < ts.length → List.Forall₂
        (IsSnapshot s₂.fn.proc s₁.fn.proc.instrs.size) list.values taken.values) ∧
      (ts.filterMap Target.load?).Nodup ∧
      Rewrites s₂ (ts.filterMap Target.load?) ids (writesTo s₂.fn.proc.instrs ts taken.values) s')
      fun _ _ => True := by
  rw [ofStmt, assign_eq, ends_bind]
  refine (((ends_run _ s).and (ends_assignOperands symbols targets exprs s)).and
    ((ends_assignOperands_upholds symbols targets exprs hs).and
      (ends_assignOperands_denote symbols targets exprs hs))).mono ?_ fun _ _ _ => trivial
  rintro ⟨ts, list⟩ s₁ ⟨⟨hrun, hreads, hnodup⟩, ⟨h₁, haims, hlist⟩, hdenote⟩
  rw [store_eq, ends_bind]
  refine (((ends_run _ s₁).and (ends_copies ts list s₁)).and
    ((ends_copies_upholds ts hs h₁ hlist.entries).and (ends_copies_upholds ts h₁.ids_lt
      (.refl h₁.ids_lt (List.forall_mem_nil _)) hlist.entries))).mono ?_ fun _ _ _ => trivial
  rintro taken s₂ ⟨⟨hcopies, hsnap⟩, h₂, hext⟩
  have hshelved : ∀ load ∈ ts.filterMap Target.load?, s₂.fn.proc.Shelves load := by
    intro load hl
    obtain ⟨t, ht, hl⟩ := List.mem_filterMap.mp hl
    have haim := haims t ht
    obtain dest | ⟨_, result, held⟩ := t
    · cases hl
    · cases hl
      exact shelves_of_upholds h₂ haim.1
  have hreads₂ (t : Target) (ht : t ∈ ts) := (hreads t ht).retained hext.instrs
  refine (ends_writeAll_release (.refl s₂) hreads₂ hnodup taken).imp ?_
  rintro _ s' ⟨ids, h⟩
  exact ⟨ts, list, s₁, taken, s₂, ids, hrun, hcopies,
    hdenote.imp fun _ _ ht => ht.retained hext.toExtends, hsnap, hnodup, ⟨h, h.lists_of hshelved⟩⟩

/-- An assignment turns the load of each global or element into the store of its value. The stores
and the moves to variables end the block that is current afterwards, the last target first. Whatever
was there before the statement is as it was. -/
theorem ofStmt_assign_rewrites (symbols : SymbolTable) (targets exprs : List Expr)
    (s : LoweringState) (hs : ∀ b, ∀ i ∈ s.fn.proc.ids b, i < s.fn.proc.instrs.size) :
    Ends (ofStmt symbols (.assign targets exprs)) s (fun _ s' => ∃ ts list s₁ taken s₂ ids,
      Assigned symbols targets exprs s ts list s₁ taken s₂ ids s') fun _ _ => True := by
  have hwhole := (executes_upkeep hs symbols (.assign targets exprs) ()).keeps
    (.refl hs (List.forall_mem_nil _))
  refine (hwhole.and (ends_assign_steps symbols targets exprs hs)).mono ?_ fun _ _ _ => trivial
  rintro _ s' ⟨⟨hup, -⟩, ts, list, s₁, taken, s₂, ids, hops, hcopies, hdenote, hsnap, hnodup, h⟩
  refine ⟨ts, list, s₁, taken, s₂, ids, ?_⟩
  constructor
  case operands => exact hops
  case copies => exact hcopies
  case denote => exact hdenote
  case snapshots => exact hsnap
  case nodup => exact hnodup
  case stand => exact h.stand
  case lists => exact h.lists
  case block_eq => exact h.block_eq
  case count => exact fun load hl b => h.count_eq hl b
  case others => exact h.same
  case new => exact fun i hle hlt => (h.mem_ids i).mpr (.inr ⟨hle, hlt⟩)
  case before =>
    intro i hi
    rw [Array.getElem?_eq_getElem hi]
    exact hup.instrs i _ (Array.getElem?_eq_getElem hi)
  case order => exact hup.ids

end Statements

/-- A table in a local and a global. -/
def rotationSymbols : SymbolTable := ⟨#[⟨"t", .table, .localOf 0⟩, ⟨"g", .any, .global⟩]⟩

/-- The local has been set to a new table. -/
def beforeRotation : LoweringState where
  stats := {}
  module := {}
  fn :=
    { proc := { id := 0, parent := none, locals := ⟨1, []⟩, anys := ⟨1, [0]⟩, blocks := #[[0, 1], []]
                instrs := #[⟨.newTable, [], [.tempAny 0], 0⟩,
                  ⟨.mov, [.tempAny 0], [.symbol (.localVar "t" 0 .table)], 0⟩] }
      function := 0
      scopes := [[(0, 0)]] }

def rotationTargets : List Expr :=
  [⟨.any, .index ⟨.table, .symbol 0⟩ ⟨.integer, .integer 1⟩⟩, ⟨.any, .symbol 1⟩,
    ⟨.table, .symbol 0⟩]

/-- The first value takes several blocks, and there is none for the last target. -/
def rotationValues : List Expr :=
  [⟨.any, .binary .and ⟨.any, .symbol 1⟩ ⟨.integer, .integer 2⟩⟩, ⟨.table, .symbol 0⟩]

/-- An element, a global and a variable at once. -/
theorem rotation_rewrites : (∀ b, ∀ i ∈ beforeRotation.fn.proc.ids b,
      i < beforeRotation.fn.proc.instrs.size) ∧ ∃ s' ts list s₁ taken s₂ ids,
    ofStmt rotationSymbols (.assign rotationTargets rotationValues) beforeRotation = .ok () s' ∧
    Assigned rotationSymbols rotationTargets rotationValues beforeRotation ts list s₁ taken s₂ ids
      s' := by
  have hids : ∀ b, ∀ i ∈ beforeRotation.fn.proc.ids b,
      i < beforeRotation.fn.proc.instrs.size := by
    intro b i hi
    rcases b with _ | _ | b
    · revert i
      decide
    · cases hi
    · rw [Proc.ids_of_size_le (by simp [beforeRotation])] at hi
      cases hi
  obtain ⟨_, s', hrun⟩ := exists_run (x := ofStmt rotationSymbols
    (.assign rotationTargets rotationValues)) (s := beforeRotation) (by decide +kernel)
  obtain ⟨ts, list, s₁, taken, s₂, ids, h⟩ := (ofStmt_assign_rewrites rotationSymbols
    rotationTargets rotationValues beforeRotation hids).of_ok hrun
  exact ⟨hids, s', ts, list, s₁, taken, s₂, ids, hrun, h⟩

end Lower

end ScriptC
