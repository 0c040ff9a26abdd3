import ScriptC.Proofs.Calls.Statements
import ScriptC.Proofs.Policies.Expressions

/-! # Policies and statements

The code of every form of statement observes a lawful family of policies if that of its parts does.
-/

namespace ScriptC

open Lower

theorem Lower.Gave.single {Leads : LoweringState → Prop} {v : Value} {o : Operand} {call base : Nat}
    {count : Int} (h : Gave Leads (single v) o) (hc : v.call = some call)
    (ho : v.operand = .range base count) : o = .select base 0 := by
  refine h.of_ends (Q := (· = .select base 0)) (E := fun _ _ => True) fun s => ?_
  simp only [Lower.single, hc, ho, ends_bind, ends_pure]
  unfold Ends
  split <;> trivial

theorem Ty.eq_integer_of_isInteger {ty : Ty} (h : ty.isInteger = true) : ty = .integer := by
  cases ty <;> first | rfl | cases h

namespace Policy

open Origin (IsEntry IsSource ArePassed)

/-- The values of a list are known under their tags, and what is owned was taken. -/
structure Collects (π : Policy) (symbols : SymbolTable) (Occurs : Expr → Prop) (list : ValueList) :
    Prop where
  entries : ∀ entry ∈ list.values, IsEntry symbols Occurs π.Leads entry.1 entry.2
  owned : ∀ o ∈ list.owned, π.Owns o

theorem Collects.append {π : Policy} {symbols : SymbolTable} {Occurs : Expr → Prop}
    {a b : ValueList} (ha : π.Collects symbols Occurs a) (hb : π.Collects symbols Occurs b) :
    π.Collects symbols Occurs (a ++ b) where
  entries := List.forall_mem_append.mpr ⟨ha.entries, hb.entries⟩
  owned := List.forall_mem_append.mpr ⟨ha.owned, hb.owned⟩

/-- A target that may be written. -/
def Aims (π : Policy) : Target → Prop
  | .variable dest => π.Owns dest ∧ dest.Takes (copyKind (destTag dest))
  | .element load result held => π.Emitted load ∧ π.Owns result ∧ ∀ o ∈ held, π.Owns o

/-- The code of a statement observes all policies. -/
def Executes {ι : Type} (F : ι → Policy) (x : Lower Unit) : Prop :=
  ∀ i, (F i).Observes True x fun _ => True

namespace Lawful

variable {ι : Type} {symbols : SymbolTable} {Occurs : Expr → Prop} {F : ι → Policy}
  (h : Lawful symbols Occurs F) {i : ι} {P : Prop}

section Values

variable {e : Expr} {exprs : List Expr} {v : Value}

include h

theorem spread {call base : Nat} (count : Nat) (hc : P → (F i).Emitted call) :
    (F i).Observes P (spread call base count) ((F i).Collects symbols Occurs) := by
  refine (h.setExpected _ hc).seq fun _ =>
    (observes_forM fun reg _ => (h.reserveTemp i reg).given).seq fun _ => observes_pure fun _ => ?_
  constructor
  · rintro entry hm
    obtain ⟨n, -, rfl⟩ := List.mem_map.mp hm
    exact .result base n
  · refine List.forall_mem_cons.mpr ⟨h.owns i (by simp), ?_⟩
    rintro o hm
    obtain ⟨reg, -, rfl⟩ := List.mem_map.mp hm
    exact h.owns i (by simp)

theorem contribution (wanted : Nat) (isLast : Bool) (he : Occurs e)
    (hv : P → (F i).Delivers v ∧ Gave (F i).Leads (ofExpr symbols e).value v) :
    (F i).Observes P (contribution wanted isLast e.ty.tag v) ((F i).Collects symbols Occurs) := by
  have dropped : (F i).Observes P (pure ⟨[], [v.operand]⟩) ((F i).Collects symbols Occurs) :=
    observes_pure fun hP => ⟨by simp, List.forall_mem_singleton.mpr (hv hP).1.owns⟩
  unfold Lower.contribution
  split
  · split
    · rename_i call hc
      exact (h.setExpected 0 fun hP => ((hv hP).1.call call hc).1).seq fun _ => dropped
    · exact dropped
  · split
    · rename_i call base count hc ho
      split
      · exact h.spread _ fun hP => ((hv hP).1.call call hc).1
      · refine (h.single fun hP => (hv hP).1).gave.bind fun o =>
          (valueTag o _).bind fun tag => observes_pure ?_
        rintro ⟨⟨hP, hown, hg⟩, s, s', hr, -⟩
        obtain rfl := hg.single hc ho
        cases hr
        exact ⟨List.forall_mem_singleton.mpr (.result base 0), List.forall_mem_singleton.mpr hown⟩
    · rename_i hne
      refine (valueTag v.operand e.ty.tag).bind fun tag => observes_pure ?_
      rintro ⟨hP, ht⟩
      obtain ⟨hd, hg⟩ := hv hP
      exact ⟨List.forall_mem_singleton.mpr (.value ⟨he, hg.one hne⟩ ht),
        List.forall_mem_singleton.mpr hd.owns⟩

theorem values (wanted : Nat) (exprs : List Expr)
    (he : ∀ e ∈ exprs, Evaluates symbols Occurs F e) :
    (F i).Observes P (values wanted (exprs.map (ofExpr symbols)))
      ((F i).Collects symbols Occurs) := by
  induction exprs generalizing wanted P with
  | nil => exact observes_pure fun _ => ⟨by simp, by simp⟩
  | cons e rest ih =>
    obtain ⟨he, hrest⟩ := List.forall_mem_cons.mp he
    simp only [List.map_cons, Lower.values, ofExpr_ty]
    exact (he.value i).given.gave.bind fun v => (h.contribution _ _ he.occurs And.right).bind
      fun head => (ih _ hrest).bind fun tail => observes_pure fun hP => hP.1.2.append hP.2

end Values

section Scopes

variable {body : Lower Unit}

include h

theorem closeScope : (F i).Observes P closeScope fun _ => True := by
  refine observes_get_bind fun s => ?_
  split
  · exact observes_pure fun _ => trivial
  · exact (h.modify (by simp)).seq fun _ =>
      observes_forM fun entry _ => (h.freeLocal i entry.2).given

theorem inScope (hb : (F i).Observes True body fun _ => True) :
    (F i).Observes P (inScope body) fun _ => True :=
  (h.modify (by simp)).seq fun _ => hb.given.seq fun _ => h.closeScope

theorem withExit (exit : Nat) (hb : (F i).Observes True body fun _ => True) :
    (F i).Observes P (withExit exit body) fun _ => True :=
  (h.modify (by simp)).seq fun _ => hb.given.seq fun _ => h.modify (by simp)

omit h in
theorem sequence {l : List (Lower Unit)} (hl : ∀ x ∈ l, Executes F x) :
    (F i).Observes P (Lower.sequence l) fun _ => True := by
  induction l with
  | nil => exact observes_pure fun _ => trivial
  | cons x l ih =>
    obtain ⟨hx, hl⟩ := List.forall_mem_cons.mp hl
    refine observes_get_bind fun s => ?_
    change (F i).Observes P (if _ then _ else _) _
    split
    · exact observes_pure fun _ => trivial
    · exact (hx i).given.seq fun _ => ih hl

theorem test {cond : Expr} {onTrue onFalse : Nat} (hc : Evaluates symbols Occurs F cond) :
    (F i).Observes P (test (ofExpr symbols cond) onTrue onFalse) fun _ => True :=
  (h.one hc).bind fun _ => (h.free i fun hP => hP.2.1).seq fun _ =>
    h.emitCbr fun hP => .generic hP.2.2

theorem declareLocal (id : SymbolId) :
    (F i).Observes P (declareLocal symbols id) fun o => (F i).Owns o ∧ o.isVariable = true := by
  refine (symbol id).seq fun s => (h.allocLocal i).given.seq fun reg => observes_get_bind fun s => ?_
  split
  · exact observes_invalid
  · exact (h.modify (by simp)).seq fun _ => observes_pure fun _ => ⟨h.owns i (by simp), rfl⟩

end Scopes

section Declarations

variable {exprs : List Expr}

include h

theorem defaultValue (dest : Operand) : (F i).Observes P (defaultValue dest) fun r =>
    IsSource symbols Occurs (F i).Leads r.1 r.2 ∧ ¬ (destTag dest = .number ∧ r.2 = .integer) := by
  unfold Lower.defaultValue
  split
  · rename_i hd
    exact (h.intern _).bind fun _ => observes_pure fun hP => ⟨.constant hP.2.2, by simp [hd]⟩
  · exact (h.intern _).bind fun _ => observes_pure fun hP => ⟨.constant hP.2.2, by simp⟩
  · exact observes_pure fun _ => ⟨.entry .nil, by simp⟩

theorem initialise {locals : List Operand} {entries : List (Operand × TypeTag)}
    (hl : P → ∀ o ∈ locals, (F i).Owns o ∧ o.isVariable = true)
    (hv : P → ∀ entry ∈ entries, IsEntry symbols Occurs (F i).Leads entry.1 entry.2) :
    (F i).Observes P (initialise locals entries) fun _ => True := by
  induction locals generalizing entries with
  | nil => exact observes_pure fun _ => trivial
  | cons dest rest ih =>
    have hd (hP : P) := (List.forall_mem_cons.mp (hl hP)).1
    have hrest (hP : P) := (List.forall_mem_cons.mp (hl hP)).2
    cases entries with
    | nil =>
      refine ((h.defaultValue dest).bind fun r => ?_)
      exact (h.movePlain (fun hP => ⟨(hd hP.1).1, .inr (hd hP.1).2⟩) (fun hP => hP.2.1)
        fun hP => hP.2.2).seq fun _ =>
        (ih hrest (by simp)).mono And.left fun _ _ _ => trivial
    | cons entry entries =>
      exact (h.moveEntry (fun hP => ⟨(hd hP).1, .inr (hd hP).2⟩) fun hP =>
        (List.forall_mem_cons.mp (hv hP)).1).seq fun _ =>
        ih hrest fun hP => (List.forall_mem_cons.mp (hv hP)).2

theorem declare (vars : List SymbolId) (he : ∀ e ∈ exprs, Evaluates symbols Occurs F e) :
    (F i).Observes P (declare symbols vars (exprs.map (ofExpr symbols))) fun _ => True :=
  (h.values _ _ he).bind fun _ => (observes_mapM fun id _ => h.declareLocal id).bind fun _ =>
    (h.initialise (fun hP => hP.2) fun hP => hP.1.2.entries).seq fun _ =>
      h.freeAll fun hP => hP.1.2.owned

theorem declareFunction (var : SymbolId) {func : Lower Nat}
    (hf : (F i).Observes True func (F i).Child) :
    (F i).Observes P (declareFunction symbols var func) fun _ => True := by
  refine (h.declareLocal var).bind fun dest => (h.closure hf).bind fun function =>
    (h.free i fun hP => hP.2.1).seq fun _ => ?_
  refine h.moveEntry (fun hP => ⟨hP.1.2.1, .inr hP.1.2.2⟩) ?_
  rintro ⟨-, -, r, rfl⟩
  exact .temp .closure r

end Declarations

section Assignments

variable {targets exprs : List Expr}

include h

theorem symbolTarget (id : SymbolId) :
    (F i).Observes P (symbolTarget symbols id) (F i).Aims := by
  refine (symbol id).seq fun s => ?_
  split
  · exact (h.loadGlobal _).bind fun _ => observes_pure fun hP => ⟨hP.2.2.2, hP.2.1, by simp⟩
  · exact (h.readSymbol id).bind fun _ => observes_pure fun hP => hP.2

theorem indexTarget {ty : Ty} {object key : Expr} (he : Occurs ⟨ty, .index object key⟩)
    (ho : Evaluates symbols Occurs F object) (hk : Evaluates symbols Occurs F key) :
    (F i).Observes P (indexTarget (ofExpr symbols object) (ofExpr symbols key)) (F i).Aims := by
  simp only [Lower.indexTarget, ofExpr_ty]
  refine (h.one ho).bind fun container => (h.one hk).bind fun k =>
    (keyClass k key.ty).bind fun c => h.newTemp fun r => ?_
  refine (h.emitId (fun hP => List.forall_mem_singleton.mpr hP.2) fun hP =>
    .load he hP.1.1.1.2.2 hP.1.1.2.2 hP.1.2 r).bind fun load => observes_pure ?_
  rintro ⟨⟨⟨⟨⟨-, hc, -⟩, hk, -⟩, -⟩, hr⟩, hl⟩
  exact ⟨hl, hr, List.forall_mem_cons.mpr ⟨hc, List.forall_mem_singleton.mpr hk⟩⟩

theorem ofTarget {t : Expr} (he : Occurs t) (ht : ∀ ty object key, t = ⟨ty, .index object key⟩ →
      Evaluates symbols Occurs F object ∧ Evaluates symbols Occurs F key) :
    (F i).Observes P (ofTarget symbols t) (F i).Aims := by
  unfold Lower.ofTarget
  split
  · exact h.symbolTarget _
  · obtain ⟨ho, hk⟩ := ht _ _ _ rfl
    exact h.indexTarget he ho hk
  · exact observes_invalid

theorem snapshot {entry : Operand × TypeTag}
    (hs : P → IsEntry symbols Occurs (F i).Leads entry.1 entry.2) :
    (F i).Observes P (snapshot entry) ((F i).Collects symbols Occurs) := by
  obtain ⟨value, tag⟩ := entry
  cases hv : value.isVariable with
  | false =>
    rw [snapshot_of_not_isVariable tag hv]
    exact observes_pure fun hP => ⟨List.forall_mem_singleton.mpr (hs hP), by simp⟩
  | true =>
    rw [snapshot_of_isVariable tag hv]
    refine h.newTemp fun r => (h.moveEntry (fun hP => ⟨hP.2, .inl ⟨r, ?_⟩⟩) fun hP => hs hP.1).seq
      fun _ => observes_pure fun hP => ⟨List.forall_mem_singleton.mpr (.temp tag r),
        List.forall_mem_singleton.mpr hP.2⟩
    cases tag <;> rfl

theorem snapshots {entries : List (Operand × TypeTag)}
    (hs : P → ∀ entry ∈ entries, IsEntry symbols Occurs (F i).Leads entry.1 entry.2) :
    (F i).Observes P (snapshots entries) ((F i).Collects symbols Occurs) := by
  induction entries generalizing P with
  | nil => exact observes_pure fun _ => ⟨by simp, by simp⟩
  | cons entry rest ih =>
    exact (h.snapshot fun hP => (List.forall_mem_cons.mp (hs hP)).1).bind fun head =>
      (ih fun hP => (List.forall_mem_cons.mp (hs hP.1)).2).bind fun tail =>
        observes_pure fun hP => hP.1.2.append hP.2

theorem write {t : Target} {value : Operand} {tag : TypeTag} (ht : P → (F i).Aims t)
    (hs : P → IsEntry symbols Occurs (F i).Leads value tag) :
    (F i).Observes P (write t value tag) fun _ => True := by
  obtain dest | ⟨load, result, held⟩ := t
  · exact h.moveEntry ht hs
  · exact h.turnIntoStore i fun hP => ⟨(ht hP).1, .entry (hs hP)⟩

theorem writeAll {ts : List Target} {entries : List (Operand × TypeTag)}
    (ht : P → ∀ t ∈ ts, (F i).Aims t)
    (hs : P → ∀ entry ∈ entries, IsEntry symbols Occurs (F i).Leads entry.1 entry.2) :
    (F i).Observes P (writeAll ts entries) fun _ => True := by
  induction ts generalizing entries with
  | nil => exact observes_pure fun _ => trivial
  | cons t ts ih =>
    refine (ih (fun hP => (List.forall_mem_cons.mp (ht hP)).2) fun hP entry hm =>
      hs hP entry (List.mem_of_mem_tail hm)).seq fun _ => ?_
    refine h.write (fun hP => (List.forall_mem_cons.mp (ht hP)).1) fun hP => ?_
    cases entries with
    | nil => exact .nil
    | cons entry entries => exact hs hP entry List.mem_cons_self

theorem releaseTarget {t : Target} (ht : P → (F i).Aims t) :
    (F i).Observes P (releaseTarget t) fun _ => True := by
  obtain dest | ⟨load, result, held⟩ := t
  · exact observes_pure fun _ => trivial
  · exact (h.free i fun hP => (ht hP).2.1).seq fun _ => h.freeAll fun hP => (ht hP).2.2

theorem ofTargets (targets : List Expr) (hot : ∀ t ∈ targets, Occurs t)
    (ht : ∀ t ∈ targets, ∀ ty object key, t = ⟨ty, .index object key⟩ →
      Evaluates symbols Occurs F object ∧ Evaluates symbols Occurs F key) :
    (F i).Observes P ((targets.map (Lower.ofTarget symbols)).mapM id)
      fun ts => ∀ t ∈ ts, (F i).Aims t := by
  refine observes_mapM fun x hx => ?_
  obtain ⟨t, hm, rfl⟩ := List.mem_map.mp hx
  exact h.ofTarget (hot t hm) (ht t hm)

/-- The values are taken as they are, or copied if there are several targets. -/
theorem assign (hot : ∀ t ∈ targets, Occurs t)
    (ht : ∀ t ∈ targets, ∀ ty object key, t = ⟨ty, .index object key⟩ →
      Evaluates symbols Occurs F object ∧ Evaluates symbols Occurs F key)
    (he : ∀ e ∈ exprs, Evaluates symbols Occurs F e) :
    (F i).Observes P (assign (targets.map (Lower.ofTarget symbols)) (exprs.map (ofExpr symbols)))
      fun _ => True := by
  refine (h.ofTargets _ hot ht).bind fun ts => (h.values _ _ he).bind fun list => ?_
  have finish {R : Prop} {taken : ValueList} (hR : R → ∀ t ∈ ts, (F i).Aims t)
      (hl : R → (F i).Collects symbols Occurs taken) : (F i).Observes R (do
        Lower.writeAll ts taken.values
        Lower.freeAll taken.owned
        ts.reverse.forM Lower.releaseTarget) fun _ => True :=
    (h.writeAll hR fun hP => (hl hP).entries).seq fun _ =>
      (h.freeAll fun hP => (hl hP).owned).seq fun _ =>
        observes_forM fun t hm => h.releaseTarget fun hP => hR hP t (List.mem_reverse.mp hm)
  split
  · refine (h.snapshots fun hP => hP.2.entries).bind fun copies => ?_
    exact finish (fun hP => hP.1.1.2) fun hP =>
      ⟨hP.2.entries, List.forall_mem_append.mpr ⟨hP.1.2.owned, hP.2.owned⟩⟩
  · exact finish (fun hP => hP.1.2) fun hP => hP.2

end Assignments

section Simple

variable {e : Expr} {exprs : List Expr}

include h

theorem eval (he : Evaluates symbols Occurs F e) :
    (F i).Observes P (eval (ofExpr symbols e)) fun _ => True := by
  refine (he.value i).given.bind fun v => ?_
  split
  · rename_i call hc
    exact (h.setExpected 0 fun hP => (hP.2.call call hc).1).seq fun _ =>
      h.free i fun hP => hP.2.owns
  · exact h.free i fun hP => hP.2.owns

theorem results (he : ∀ e ∈ exprs, Evaluates symbols Occurs F e) :
    (F i).Observes P (results (exprs.map (ofExpr symbols))) fun os =>
      ArePassed symbols Occurs (F i).Leads os ∧ ∀ o ∈ os, (F i).Owns o := by
  induction exprs generalizing P with
  | nil => exact observes_pure fun _ => ⟨.nil, by simp⟩
  | cons e rest ih =>
    obtain ⟨hfirst, hrest⟩ := List.forall_mem_cons.mp he
    cases rest with
    | nil =>
      exact (hfirst.value i).given.gave.bind fun v => observes_pure fun hP =>
        ⟨passed_of_delivers hfirst.occurs hP.2.1 hP.2.2, List.forall_mem_singleton.mpr hP.2.1.owns⟩
    | cons e' rest =>
      exact (h.one hfirst).bind fun o => (ih hrest).bind fun os => observes_pure fun hP =>
        ⟨.cons (.generic hP.1.2.2) hP.2.1, List.forall_mem_cons.mpr ⟨hP.1.2.1, hP.2.2⟩⟩

theorem ret (he : ∀ e ∈ exprs, Evaluates symbols Occurs F e) :
    (F i).Observes P (ret (exprs.map (ofExpr symbols))) fun _ => True :=
  (h.results he).bind fun _ => (h.emitTo (fun _ => h.owns_block) fun hP => .ret _ hP.2.1).seq
    fun _ => h.freeAll fun hP => hP.2.2

theorem leave : (F i).Observes P leave fun _ => True := by
  refine observes_get_bind fun s => ?_
  split
  · exact h.emitBr
  · exact observes_invalid

end Simple

section Branches

include h

theorem clause {cond : Expr} {contents : Lower Unit} {body otherwise done : Nat}
    (hc : Evaluates symbols Occurs F cond) (hb : Executes F contents) :
    (F i).Observes P (clause (ofExpr symbols cond) contents body otherwise done) fun _ => True :=
  (h.test hc).seq fun _ => h.startBlock.seq fun _ => (h.inScope (hb i)).seq fun _ => h.branchTo

theorem clauses {cases : List Clause} {otherwise done : Nat} (bodies tests : List Nat)
    (hc : ∀ c ∈ cases, Evaluates symbols Occurs F c.cond ∧ Executes F (ofBlock symbols c.body)) :
    (F i).Observes P (clauses otherwise done
      (cases.map fun c => (ofExpr symbols c.cond, ofBlock symbols c.body)) bodies tests)
      fun _ => True := by
  induction cases generalizing bodies tests with
  | nil => exact observes_pure fun _ => trivial
  | cons c rest ih =>
    obtain ⟨⟨hcond, hbody⟩, hrest⟩ := List.forall_mem_cons.mp hc
    cases bodies with
    | nil => exact observes_pure fun _ => trivial
    | cons body bodies =>
      cases tests with
      | nil => exact h.clause hcond hbody
      | cons next tests =>
        exact (h.clause hcond hbody).seq fun _ => h.startBlock.seq fun _ => ih bodies tests hrest

theorem branch {cases : List Clause} {otherwise : Option (List Stmt)}
    (hc : ∀ c ∈ cases, Evaluates symbols Occurs F c.cond ∧ Executes F (ofBlock symbols c.body))
    (ho : ∀ body ∈ otherwise, Executes F (ofBlock symbols body)) :
    (F i).Observes P (branch
      (cases.map fun c => (ofExpr symbols c.cond, ofBlock symbols c.body))
      (otherwise.map (ofBlock symbols))) fun _ => True := by
  refine (h.newBlock i).given.seq fun done => (h.newBlocks _).seq fun bodies =>
    (h.newBlocks _).seq fun tests => ?_
  cases otherwise with
  | none => exact (h.clauses bodies tests hc).seq fun _ => h.startBlock
  | some body =>
    exact (h.newBlock i).given.seq fun _ => (h.clauses bodies tests hc).seq fun _ =>
      h.startBlock.seq fun _ => (h.inScope (ho body rfl i)).seq fun _ =>
        h.branchTo.seq fun _ => h.startBlock

end Branches

section Loops

variable {start limit cond : Expr} {contents : Lower Unit}

include h

theorem whileLoop (hc : Evaluates symbols Occurs F cond) (hb : Executes F contents) :
    (F i).Observes P (whileLoop (ofExpr symbols cond) contents) fun _ => True :=
  (h.newBlock i).given.seq fun _ => (h.newBlock i).given.seq fun _ =>
    (h.newBlock i).given.seq fun _ => h.startBlock.seq fun _ => (h.test hc).seq fun _ =>
    h.startBlock.seq fun _ => (h.withExit _ (h.inScope (hb i))).seq fun _ =>
    h.branchTo.seq fun _ => h.startBlock

theorem repeatLoop (hb : Executes F contents) (hc : Evaluates symbols Occurs F cond) :
    (F i).Observes P (repeatLoop contents (ofExpr symbols cond)) fun _ => True :=
  (h.newBlock i).given.seq fun _ => (h.newBlock i).given.seq fun _ => h.startBlock.seq fun _ =>
    (h.withExit _ (h.inScope ((hb i).seq fun _ => h.test hc))).seq fun _ => h.startBlock

/-- The index is moved to the loop variable, whatever that is declared as. -/
theorem loopBody (var : SymbolId) {index : Operand} {tag : TypeTag} {exit : Nat}
    (hs : IsEntry symbols Occurs (F i).Leads index tag) (hb : Executes F contents) :
    (F i).Observes P (loopBody symbols var index tag contents exit) fun _ => True :=
  (h.modify (by simp)).seq fun _ => ((h.declareLocal var).bind fun _ =>
    (h.moveEntry (fun hP => ⟨hP.2.1, .inr hP.2.2⟩) fun _ => hs).seq fun _ =>
    h.withExit exit (hb i)).seq fun _ => h.closeScope

theorem compare {opcode : Opcode} {reads : List Demand} {operands : List Operand}
    {onTrue onFalse : Nat} (hp : opcode.isPlain = true)
    (hs : opcode.signature = some ⟨reads, some .any⟩)
    (hr : P → List.Forall₂ (Origin.Answers symbols Occurs (F i).Leads) reads operands) :
    (F i).Observes P (compare opcode operands onTrue onFalse) fun _ => True :=
  h.newTemp fun r => (h.emitTo And.right fun hP => .writes hp hs (hr hP.1) (.inl ⟨r, rfl⟩)).seq
    fun _ => (h.free i And.right).seq fun _ => h.emitCbr fun _ => .entry (.tempAny r)

theorem advance {opcode : Opcode} {kind : TempKind} {reads : List Demand} {r : Nat} {step : Operand}
    {testBlock : Nat} (hp : opcode.isPlain = true)
    (hs : opcode.signature = some ⟨reads, some kind⟩)
    (hr : P → List.Forall₂ (Origin.Answers symbols Occurs (F i).Leads) reads [.temp kind r, step])
    (hi : P → (F i).Owns (.temp kind r)) :
    (F i).Observes P (advance opcode (.temp kind r) step testBlock) fun _ => True := by
  refine observes_get_bind fun s => ?_
  change (F i).Observes P (if _ then _ else _) _
  split
  · exact observes_pure fun _ => trivial
  · exact (h.emitTo hi fun hP => .writes hp hs (hr hP) (.inl ⟨r, rfl⟩)).seq fun _ => h.emitBr

omit h in
theorem answers_int (r : Nat) : Origin.Answers symbols Occurs (F i).Leads .int (.tempInt r) :=
  .source (.entry (.temp .integer r)) rfl

omit h in
theorem answers_value (r : Nat) : Origin.Answers symbols Occurs (F i).Leads .value (.tempAny r) :=
  IsSource.value (.entry (.tempAny r))

theorem integerFor (var : SymbolId) (step : Int64) (hs : Evaluates symbols Occurs F start)
    (hl : Evaluates symbols Occurs F limit) (hst : start.ty = .integer) (hlt : limit.ty = .integer)
    (hb : Executes F contents) :
    (F i).Observes P (integerFor symbols var (ofExpr symbols start) (ofExpr symbols limit) step
      contents) fun _ => True := by
  refine (h.one hs).bind fun first => (h.one hl).bind fun last => h.newTemp fun index =>
    h.newTemp fun bound => ?_
  have hints : List.Forall₂ (Origin.Answers symbols Occurs (F i).Leads) [.int, .int]
      (if 0 ≤ step then [.temp .int index, .temp .int bound]
        else [.temp .int bound, .temp .int index]) := by
    split
    · exact .cons (answers_int index) (.cons (answers_int bound) .nil)
    · exact .cons (answers_int bound) (.cons (answers_int index) .nil)
  have hint {e : Expr} {o : Operand} (he : e.ty = .integer)
      (ho : Origin.IsValue symbols Occurs (F i).Leads e o) :
      IsSource symbols Occurs (F i).Leads o .integer := by
    rw [show TypeTag.integer = e.ty.tag by rw [he]; rfl]
    exact .declared ho
  refine (h.movePlain (fun hP => ⟨hP.1.2, .inl ⟨index, rfl⟩⟩)
      (fun hP => hint hst hP.1.1.1.2.2) fun _ => by simp [Operand.temp, destTag]).seq fun _ =>
    (h.movePlain (fun hP => ⟨hP.2, .inl ⟨bound, rfl⟩⟩)
      (fun hP => hint hlt hP.1.1.2.2) fun _ => by simp [Operand.temp, destTag]).seq fun _ =>
    (h.free i fun hP => hP.1.1.2.1).seq fun _ => (h.free i fun hP => hP.1.1.1.2.1).seq fun _ =>
    (h.intern _).bind fun stride => (h.newBlock i).given.seq fun testBlock =>
    (h.newBlock i).given.seq fun body => (h.newBlock i).given.seq fun done =>
    h.startBlock.seq fun _ => (h.compare rfl rfl fun _ => hints).seq fun _ =>
    h.startBlock.seq fun _ => (h.loopBody var (.temp .integer index) hb).seq fun _ =>
    (h.advance rfl rfl (fun hP => .cons (answers_int index) (.cons (.source (.constant hP.2.2) rfl)
      .nil)) fun hP => hP.1.1.2).seq fun _ => h.startBlock.seq fun _ =>
    (h.free i fun hP => hP.1.2).seq fun _ => h.free i fun hP => hP.1.1.2

theorem taggedFor (var : SymbolId) {step : Option Expr} (hs : Evaluates symbols Occurs F start)
    (hl : Evaluates symbols Occurs F limit) (ht : ∀ e ∈ step, Evaluates symbols Occurs F e)
    (hb : Executes F contents) :
    (F i).Observes P (taggedFor symbols var (ofExpr symbols start) (ofExpr symbols limit)
      (step.map (ofExpr symbols)) contents) fun _ => True := by
  have hdeclared {e : Expr} {o : Operand} (ho : Origin.IsValue symbols Occurs (F i).Leads e o) :
      IsSource symbols Occurs (F i).Leads o (ofExpr symbols e).ty.tag := by
    rw [ofExpr_ty]
    exact .declared ho
  refine (h.one hs).bind fun first => (h.one hl).bind fun last => ?_
  extract_lets rest
  have hrest (increment : Operand) (tag : TypeTag) : (F i).Observes
      (((P ∧ (F i).Owns first ∧ Origin.IsValue symbols Occurs (F i).Leads start first) ∧
        (F i).Owns last ∧ Origin.IsValue symbols Occurs (F i).Leads limit last) ∧
        (F i).Owns increment ∧ IsSource symbols Occurs (F i).Leads increment tag)
      (rest (increment, tag)) fun _ => True := by
    refine h.newTemp fun index => h.newTemp fun bound => h.newTemp fun stride => ?_
    refine (h.moveTemp (fun hP => hP.1.1.2) fun hP => hdeclared hP.1.1.1.1.1.2.2).seq fun _ =>
      (h.moveTemp (fun hP => hP.1.2) fun hP => hdeclared hP.1.1.1.1.2.2).seq fun _ =>
      (h.moveTemp And.right fun hP => hP.1.1.1.2.2).seq fun _ =>
      (h.free i fun hP => hP.1.1.1.2.1).seq fun _ => (h.free i fun hP => hP.1.1.1.1.2.1).seq fun _ =>
      (h.free i fun hP => hP.1.1.1.1.1.2.1).seq fun _ => (h.intern _).bind fun zero =>
      (h.newBlock i).given.seq fun testBlock => (h.newBlock i).given.seq fun ascending =>
      (h.newBlock i).given.seq fun descending => (h.newBlock i).given.seq fun body =>
      (h.newBlock i).given.seq fun done => h.startBlock.seq fun _ => ?_
    refine (h.compare rfl rfl fun hP => .cons (answers_value stride)
        (.cons (IsSource.value (.constant hP.2.2)) .nil)).seq fun _ => h.startBlock.seq fun _ =>
      (h.compare rfl rfl fun _ => .cons (answers_value index)
        (.cons (answers_value bound) .nil)).seq fun _ => h.startBlock.seq fun _ =>
      (h.compare rfl rfl fun _ => .cons (answers_value bound)
        (.cons (answers_value index) .nil)).seq fun _ => h.startBlock.seq fun _ => ?_
    exact (h.loopBody var (.tempAny index) hb).seq fun _ =>
      (h.advance rfl rfl (fun _ => .cons (answers_value index) (.cons (answers_value stride) .nil))
        fun hP => hP.1.1.1.2).seq fun _ => h.startBlock.seq fun _ =>
      (h.free i fun hP => hP.1.2).seq fun _ => (h.free i fun hP => hP.1.1.2).seq fun _ =>
      h.free i fun hP => hP.1.1.1.2
  cases step with
  | some e =>
    exact (h.one (ht e rfl)).bind fun o => (hrest o (ofExpr symbols e).ty.tag).mono
      (fun hP => ⟨hP.1, hP.2.1, hdeclared hP.2.2⟩) fun _ _ h' => h'
  | none =>
    exact (h.intern _).bind fun o => (hrest o .integer).mono
      (fun hP => ⟨hP.1, hP.2.1, .constant hP.2.2⟩) fun _ _ h' => h'

theorem numericFor (var : SymbolId) {step : Option Expr} (constant : Option Int64)
    (hs : Evaluates symbols Occurs F start) (hl : Evaluates symbols Occurs F limit)
    (ht : ∀ e ∈ step, Evaluates symbols Occurs F e) (hb : Executes F contents) :
    (F i).Observes P (numericFor symbols var (ofExpr symbols start) (ofExpr symbols limit)
      (step.map (ofExpr symbols)) constant contents) fun _ => True := by
  unfold Lower.numericFor
  split
  · split
    · rename_i hint
      rw [ofExpr_ty, ofExpr_ty] at hint
      exact h.integerFor var _ hs hl (Ty.eq_integer_of_isInteger hint.1)
        (Ty.eq_integer_of_isInteger hint.2) hb
    · exact h.taggedFor var hs hl ht hb
  · exact h.taggedFor var hs hl ht hb

end Loops

section Functions

include h

omit h in
theorem isPlain_guardOpcode {tag : TypeTag} {guard : Opcode} (hg : guardOpcode? tag = some guard) :
    guard.isPlain = true := by
  cases tag <;> simp [guardOpcode?] at hg <;> subst hg <;> rfl

theorem functionCode (params : List SymbolId) {body : Lower Unit} (hb : Executes F body) :
    (F i).Observes P (functionCode symbols params body) fun _ => True := by
  have hparams : (F i).Observes P (declareParams symbols params) fun _ => True := by
    refine observes_forM fun id _ => (h.declareLocal id).bind fun o => ?_
    split
    · rename_i guard hg
      exact h.emitTo (fun hP => hP.2.1) fun hP => .writes (isPlain_guardOpcode hg)
        (signature_guardOpcode? hg) (.cons (IsSource.value (.variable hP.2.2)) .nil) (.inr hP.2.2)
    · exact observes_pure fun _ => trivial
  have hreturn : (F i).Observes P returnAtEnd fun _ => True := by
    refine observes_get_bind fun s => ?_
    change (F i).Observes P (if _ then _ else _) _
    split
    · exact observes_pure fun _ => trivial
    · exact h.emitTo (fun _ => h.owns_block) fun _ => .ret _ .nil
  exact (h.modify (by simp)).seq fun _ => hparams.seq fun _ => (hb i).given.seq fun _ =>
    hreturn.seq fun _ => h.closeScope

theorem ofFunction (f : Function) (hb : Executes F (ofBlock symbols f.body)) :
    (F i).Observes True (ofFunction symbols f) (F i).Child := by
  obtain ⟨id, name, params, isVararg, upvalues, body⟩ := f
  exact h.function i _ fun j => h.functionCode params hb

end Functions

end Lawful

end Policy

end ScriptC
