import ScriptC.Proofs.Assignments.Targets

/-! # Loads that become stores

An assignment evaluates its targets and its values, and only then appends copies, moves and stores.
The load of a global or an element turns into the store of the value and moves to the end of the
block in which the values were evaluated. All writes stand there, those of the last target first,
and nothing else changes.
-/

namespace ScriptC

/-- The instruction is listed in the block that it names, and nowhere else. -/
def Proc.Shelves (p : Proc) (i : Nat) : Prop :=
  ∀ instr b, p.instrs[i]? = some instr → i ∈ p.ids b → instr.block = b

namespace Lower

variable {s s' s'' : LoweringState} {loads ids : List Nat}

section Writes

/-- One of the instructions that an assignment ends with: a new move, or a load that becomes a
store. -/
structure Write where
  load : Option Nat
  opcode : Opcode
  operands : List Operand
  targets : List Operand

/-- The instruction in a block. -/
def Write.instr (w : Write) (block : Nat) : Instr := ⟨w.opcode, w.operands, w.targets, block⟩

def Write.access (w : Write) : Access := ⟨w.operands, w.targets⟩

/-- The instruction stands in the block. The store has the id of its load and a move a new one. -/
structure Write.StandsAt (w : Write) (p : Proc) (block fresh i : Nat) : Prop where
  instr : p.instrs[i]? = some (w.instr block)
  load : ∀ load ∈ w.load, i = load
  fresh : w.load = none → fresh ≤ i

/-- How a target is written. A variable that is its own value is not. -/
def Target.write? (code : Array Instr) (entry : Operand × TypeTag) : Target → Option Write
  | .variable dest =>
    if entry.1.sameStorage dest then none
    else some ⟨none, moveOpcode (destTag dest) entry.2, [entry.1], [dest]⟩
  | .element load _ _ => do
    let instr ← code[load]?
    let store ← instr.opcode.storeCounterpart?
    return ⟨load, store, instr.operands ++ [entry.1], []⟩

/-- How the targets are written, the last first; one without a value is set to nil. -/
def writesTo (code : Array Instr) : List Target → List (Operand × TypeTag) → List Write
  | [], _ => []
  | t :: ts, vs =>
    writesTo code ts vs.tail ++ (t.write? code (vs.headD (.nil, .nil))).toList

end Writes

section Appending

variable {writes : List Write}

/-- Since the state `s`, the instructions with `ids` have been appended, among them the loads that
were turned into stores. -/
structure Appends (s : LoweringState) (loads ids : List Nat) (writes : List Write)
    (s' : LoweringState) : Prop where
  ids_eq : ∃ kept, s'.fn.proc.ids s'.fn.block = kept ++ ids ∧
    kept.Sublist (s.fn.proc.ids s'.fn.block)
  size_le : s.fn.proc.instrs.size ≤ s'.fn.proc.instrs.size
  same : ∀ i < s.fn.proc.instrs.size, i ∉ loads →
    s'.fn.proc.instrs[i]? = s.fn.proc.instrs[i]?
  loads_lt : ∀ i ∈ loads, i < s.fn.proc.instrs.size
  mem_ids : ∀ i, i ∈ ids ↔
    i ∈ loads ∨ s.fn.proc.instrs.size ≤ i ∧ i < s'.fn.proc.instrs.size
  isEnd : ∀ i ∈ ids, s'.fn.proc.isEnd i = false
  stand : List.Forall₂ (fun i w =>
    w.StandsAt s'.fn.proc s'.fn.block s.fn.proc.instrs.size i) ids writes
  nodup : ids.Nodup
  block_eq : s.fn.proc.isTerminated s.fn.block = false → s'.fn.block = s.fn.block
  /-- Nothing is left of a load that was listed where it says. -/
  lists_of : (∀ load ∈ loads, s.fn.proc.Shelves load) → ∀ b, s'.fn.proc.ids b =
    (s.fn.proc.ids b).filter (· ∉ loads) ++ if b = s'.fn.block then ids else []

theorem Appends.refl (s : LoweringState) : Appends s [] [] [] s where
  ids_eq := ⟨_, (List.append_nil _).symm, List.Sublist.refl _⟩
  size_le := Nat.le_refl _
  same _ _ _ := rfl
  loads_lt := by simp
  mem_ids i := by simp
  isEnd := by simp
  stand := .nil
  nodup := .nil
  block_eq _ := rfl
  lists_of _ b := by simp

theorem Appends.sameCode (h : Appends s loads ids writes s') (hc : SameCode s'.fn s''.fn) :
    Appends s loads ids writes s'' := by
  have hend (i : Nat) : s''.fn.proc.isEnd i = s'.fn.proc.isEnd i := by
    rw [Proc.isEnd, Proc.isEnd, hc.instrs_eq]
  constructor
  · rw [hc.block_eq, hc.ids_eq]
    exact h.ids_eq
  · rw [hc.instrs_eq]
    exact h.size_le
  · rw [hc.instrs_eq]
    exact h.same
  · exact h.loads_lt
  · rw [hc.instrs_eq]
    exact h.mem_ids
  · simpa only [hend] using h.isEnd
  · refine h.stand.imp fun i w hw => ⟨?_, hw.load, hw.fresh⟩
    rw [hc.instrs_eq, hc.block_eq]
    exact hw.instr
  · exact h.nodup
  · exact fun ho => hc.block_eq.trans (h.block_eq ho)
  · intro hl b
    rw [hc.ids_eq, hc.block_eq, h.lists_of hl]

/-- Without writes, the code is what it was. -/
theorem Appends.isTerminated_eq (h : Appends s loads [] writes s') (b : Nat) :
    s'.fn.proc.isTerminated b = s.fn.proc.isTerminated b := by
  obtain rfl : loads = [] := List.eq_nil_iff_forall_not_mem.mpr fun i hi =>
    List.not_mem_nil ((h.mem_ids i).mpr (.inl hi))
  have hinstrs (i : Nat) : s'.fn.proc.instrs[i]? = s.fn.proc.instrs[i]? := by
    by_cases hi : i < s.fn.proc.instrs.size
    · exact h.same i hi List.not_mem_nil
    · have hi' : ¬ i < s'.fn.proc.instrs.size := fun hlt =>
        List.not_mem_nil ((h.mem_ids i).mpr (.inr ⟨Nat.not_lt.mp hi, hlt⟩))
      rw [Array.getElem?_eq_none (Nat.not_lt.mp hi), Array.getElem?_eq_none (Nat.not_lt.mp hi')]
  have hids : s'.fn.proc.ids b = s.fn.proc.ids b := by
    simp [h.lists_of (List.forall_mem_nil _)]
  have hend : s'.fn.proc.isEnd = s.fn.proc.isEnd := by
    funext i
    rw [Proc.isEnd, Proc.isEnd, hinstrs]
  rw [Proc.isTerminated_eq, Proc.isTerminated_eq, hids, hend]

/-- What was appended does not end the block, so a fresh block is only opened before. -/
theorem Appends.opened (h : Appends s loads ids writes s') :
    Appends s loads ids writes s'.opened := by
  by_cases ht : s'.fn.proc.isTerminated s'.fn.block = true
  · have hnil : ids = [] := by
      obtain ⟨kept, hkept, -⟩ := h.ids_eq
      by_contra hne
      rw [Proc.isTerminated_eq, hkept, List.getLast?_append_of_ne_nil _ hne,
        List.getLast?_eq_some_getLast hne] at ht
      simp [h.isEnd _ (List.getLast_mem hne)] at ht
    subst hnil
    have hs : s'.opened.fn = { s'.fn with
        proc := s'.fn.proc.newBlock.1, block := s'.fn.proc.blocks.size } := if_pos ht
    cases h.stand
    constructor
    · refine ⟨[], ?_, List.nil_sublist _⟩
      rw [hs]
      simp [Proc.ids_of_size_le]
    · rw [hs]
      exact h.size_le
    · rw [hs]
      exact h.same
    · exact h.loads_lt
    · rw [hs]
      exact h.mem_ids
    · simp
    · exact .nil
    · exact .nil
    · intro ho
      rw [h.isTerminated_eq, h.block_eq ho, ho] at ht
      cases ht
    · intro hl b
      rw [hs]
      simpa using h.lists_of hl b
  · have hs : s'.opened.fn = s'.fn := if_neg ht
    exact h.sameCode ⟨by rw [hs], fun _ => by rw [hs], by rw [hs]⟩

theorem Appends.lt_size (h : Appends s loads ids writes s') {i : Nat} (hi : i ∈ ids) :
    i < s'.fn.proc.instrs.size := by
  rcases (h.mem_ids i).mp hi with hl | ⟨-, hlt⟩
  · exact Nat.lt_of_lt_of_le (h.loads_lt i hl) h.size_le
  · exact hlt

/-- One more write leaves those before it where they are. -/
theorem Appends.stand_snoc (h : Appends s loads ids writes s') {w : Write} {i : Nat} (hi : i ∉ ids)
    (ho : w.opcode.isTerminator = false) (hblock : s''.fn.block = s'.fn.block)
    (hsame : ∀ j ∈ ids, s''.fn.proc.instrs[j]? = s'.fn.proc.instrs[j]?)
    (hw : w.StandsAt s''.fn.proc s''.fn.block s.fn.proc.instrs.size i) :
    (∀ j ∈ ids ++ [i], s''.fn.proc.isEnd j = false) ∧
      List.Forall₂ (fun j w => w.StandsAt s''.fn.proc s''.fn.block s.fn.proc.instrs.size j)
        (ids ++ [i]) (writes ++ [w]) ∧ (ids ++ [i]).Nodup := by
  refine ⟨?_, List.rel_append ?_ (.cons hw .nil), ?_⟩
  · intro j hj
    rcases List.mem_append.mp hj with hj | hj
    · rw [Proc.isEnd, hsame j hj]
      exact h.isEnd j hj
    · rw [List.mem_singleton.mp hj, Proc.isEnd, hw.instr]
      exact ho
  · refine ((List.forall₂_and_left ids writes).mpr ⟨hsame, h.stand⟩).imp ?_
    rintro j w' ⟨hj, hw'⟩
    refine ⟨?_, hw'.load, hw'.fresh⟩
    rw [hj, hblock]
    exact hw'.instr
  · refine List.nodup_append.mpr ⟨h.nodup, by simp, ?_⟩
    rintro j hj _ hm rfl
    exact hi (List.mem_singleton.mp hm ▸ hj)

theorem Appends.push (h : Appends s loads ids writes s') {w : Write} (hw : w.load = none)
    (ho : w.opcode.isTerminator = false) (hb : s'.fn.block < s'.fn.proc.blocks.size)
    (hp : s''.fn.proc = s'.fn.proc.appended s'.fn.block (w.instr s'.fn.block))
    (hblock : s''.fn.block = s'.fn.block) :
    Appends s loads (ids ++ [s'.fn.proc.instrs.size]) (writes ++ [w]) s'' := by
  have hsize : s''.fn.proc.instrs.size = s'.fn.proc.instrs.size + 1 := by
    rw [hp]
    simp [Proc.appended]
  have hold {i : Nat} (hi : i < s'.fn.proc.instrs.size) :
      s''.fn.proc.instrs[i]? = s'.fn.proc.instrs[i]? := by
    rw [hp, Proc.appended, Array.getElem?_push_lt hi, Array.getElem?_eq_getElem hi]
  have hnew : w.StandsAt s''.fn.proc s''.fn.block s.fn.proc.instrs.size
      s'.fn.proc.instrs.size := by
    refine ⟨?_, by simp [hw], fun _ => h.size_le⟩
    rw [hp, hblock]
    exact Array.getElem?_push_size
  obtain ⟨hend, hstand, hnodup⟩ := h.stand_snoc (fun hi => Nat.lt_irrefl _ (h.lt_size hi)) ho hblock
    (fun _ hj => hold (h.lt_size hj)) hnew
  constructor
  case isEnd => exact hend
  case stand => exact hstand
  case nodup => exact hnodup
  case ids_eq =>
    obtain ⟨kept, hids, hsub⟩ := h.ids_eq
    refine ⟨kept, ?_, hblock ▸ hsub⟩
    rw [hblock, hp, Proc.ids_appended hb, if_pos rfl, hids, List.append_assoc]
  case size_le => exact hsize ▸ Nat.le_succ_of_le h.size_le
  case same =>
    intro i hi hl
    rw [hold (Nat.lt_of_lt_of_le hi h.size_le), h.same i hi hl]
  case loads_lt => exact h.loads_lt
  case mem_ids =>
    intro i
    have := h.size_le
    rw [List.mem_append, List.mem_singleton, h.mem_ids, hsize, or_assoc]
    refine or_congr_right ?_
    omega
  case block_eq => exact fun ho => hblock.trans (h.block_eq ho)
  case lists_of =>
    intro hl b
    rw [hp, hblock, Proc.ids_appended hb, h.lists_of hl, h.lists_of hl]
    split
    · rename_i he
      simp [he]
    · simp

theorem Appends.move (h : Appends s loads ids writes s') (entry : Operand × TypeTag)
    (dest : Operand) :
    Ends (move entry.1 entry.2 dest) s' (fun _ s'' => ∃ ids', Appends s loads (ids ++ ids')
      (writes ++ ((Target.variable dest).write? s.fn.proc.instrs entry).toList) s'')
      fun _ _ => True := by
  unfold Lower.move
  split
  · rename_i he
    exact ⟨[], by simpa [Target.write?, he] using h⟩
  · rename_i he
    rw [Target.write?, if_neg he, ends_emit]
    refine ends_append_proc.imp ?_
    rintro _ s'' ⟨hb, -, hblock, hproc, -⟩
    exact ⟨_, h.opened.push (w := ⟨none, moveOpcode (destTag dest) entry.2, [entry.1], [dest]⟩)
      rfl (moveOpcode_isStraight _ _).1 hb hproc hblock⟩

theorem Appends.store (h : Appends s loads ids writes s') {load : Nat} {old : Instr} {w : Write}
    (hi : s.fn.proc.instrs[load]? = some old) (hl : load ∉ loads) (hw : w.load = some load)
    (ho : w.opcode.isTerminator = false)
    (hinstrs : ∀ i, s''.fn.proc.instrs[i]? =
      if load = i then some (w.instr s'.fn.block) else s'.fn.proc.instrs[i]?)
    (hids : ∀ c, s''.fn.proc.ids c = (if c = old.block then (s'.fn.proc.ids c).filter (· != load)
      else s'.fn.proc.ids c) ++ if c = s'.fn.block then [load] else [])
    (hsize : s''.fn.proc.instrs.size = s'.fn.proc.instrs.size)
    (hblock : s''.fn.block = s'.fn.block) :
    Appends s (load :: loads) (ids ++ [load]) (writes ++ [w]) s'' := by
  have hlt : load < s.fn.proc.instrs.size := (Array.getElem?_eq_some_iff.mp hi).1
  have hnot : load ∉ ids := by
    rw [h.mem_ids, not_or]
    exact ⟨hl, by omega⟩
  have hother {i : Nat} (hne : i ≠ load) : s''.fn.proc.instrs[i]? = s'.fn.proc.instrs[i]? := by
    rw [hinstrs, if_neg (Ne.symm hne)]
  have hsame : ids.filter (· != load) = ids := List.filter_eq_self.mpr fun i hi =>
    bne_iff_ne.mpr fun he => hnot (he ▸ hi)
  have hnew : w.StandsAt s''.fn.proc s''.fn.block s.fn.proc.instrs.size load := by
    refine ⟨?_, by simp [hw], by simp [hw]⟩
    rw [hinstrs, if_pos rfl, hblock]
  obtain ⟨hend, hstand, hnodup⟩ := h.stand_snoc hnot ho hblock
    (fun j hj => hother fun he => hnot (he ▸ hj)) hnew
  constructor
  case isEnd => exact hend
  case stand => exact hstand
  case nodup => exact hnodup
  case ids_eq =>
    obtain ⟨kept, hkept, hsub⟩ := h.ids_eq
    rw [hblock, hids, if_pos rfl, hkept]
    split
    · refine ⟨kept.filter (· != load), ?_, List.filter_sublist.trans hsub⟩
      rw [List.filter_append, hsame, List.append_assoc]
    · exact ⟨kept, List.append_assoc .., hsub⟩
  case size_le => exact hsize ▸ h.size_le
  case same =>
    intro i hi hm
    rw [List.mem_cons, not_or] at hm
    rw [hother hm.1, h.same i hi hm.2]
  case loads_lt => exact List.forall_mem_cons.mpr ⟨hlt, h.loads_lt⟩
  case mem_ids =>
    intro i
    rw [List.mem_append, List.mem_singleton, h.mem_ids, hsize, List.mem_cons, or_comm, or_assoc]
  case block_eq => exact fun hopen => hblock.trans (h.block_eq hopen)
  case lists_of =>
    intro hshelved c
    obtain ⟨hload, hrest⟩ := List.forall_mem_cons.mp hshelved
    have hlists := h.lists_of hrest
    -- Where the load was not listed, leaving it out changes nothing.
    have hc : (if c = old.block then (s'.fn.proc.ids c).filter (· != load)
        else s'.fn.proc.ids c) = (s'.fn.proc.ids c).filter (· != load) := by
      split
      · rfl
      · rename_i hne
        refine (List.filter_eq_self.mpr fun i hm => bne_iff_ne.mpr ?_).symm
        rintro rfl
        rw [hlists, List.mem_append, List.mem_filter] at hm
        rcases hm with hm | hm
        · exact hne (hload old c hi hm.1).symm
        · split at hm
          · exact hnot hm
          · cases hm
    have hfilter : ((s.fn.proc.ids c).filter (· ∉ loads)).filter (· != load) =
        (s.fn.proc.ids c).filter (· ∉ load :: loads) := by
      rw [List.filter_filter]
      refine List.filter_congr fun i _ => ?_
      by_cases he : i = load <;> simp [he]
    rw [hids, hc, hlists, List.filter_append, hfilter, hblock, List.append_assoc]
    congr 1
    split
    · rw [hsame]
    · rfl

/-- A load that is still in place becomes a store at the end of the block. -/
theorem Appends.turn (h : Appends s loads ids writes s') {load : Nat} {old : Instr}
    (hi : s.fn.proc.instrs[load]? = some old) (hl : load ∉ loads) (value : Operand) :
    Ends (turnIntoStore load value) s' (fun _ s'' => ∃ store,
      old.opcode.storeCounterpart? = some store ∧ Appends s (load :: loads) (ids ++ [load])
        (writes ++ [⟨load, store, old.operands ++ [value], []⟩]) s'') fun _ _ => True := by
  have h := h.opened
  refine (ends_turnIntoStore load value s').imp ?_
  rintro _ s'' ⟨old', store, hi', hstore, hinstrs, hids, hblock, -⟩
  have hlt : load < s.fn.proc.instrs.size := (Array.getElem?_eq_some_iff.mp hi).1
  obtain rfl : old = old' := Option.some.inj (hi.symm.trans ((h.same load hlt hl).symm.trans hi'))
  refine ⟨store, hstore, h.store (w := ⟨load, store, old.operands ++ [value], []⟩) hi hl rfl
    (Opcode.isStraight_of_storeCounterpart? hstore).2.1 (fun i => ?_) hids ?_ hblock⟩
  · rw [hinstrs, Array.getElem?_modify]
    split
    · rename_i he
      subst he
      rw [hi']
      rfl
    · rfl
  · rw [hinstrs, Array.size_modify]

theorem Appends.write (h : Appends s loads ids writes s') {t : Target}
    (ht : t.ReadsIn s.fn.proc.instrs) (hl : ∀ load ∈ t.load?, load ∉ loads)
    (entry : Operand × TypeTag) :
    Ends (write t entry.1 entry.2) s' (fun _ s'' => ∃ ids',
      Appends s (t.load?.toList ++ loads) (ids ++ ids')
        (writes ++ (t.write? s.fn.proc.instrs entry).toList) s'') fun _ _ => True := by
  obtain dest | ⟨load, result, held⟩ := t
  · exact h.move entry dest
  · obtain ⟨instr, -, hi, -⟩ := ht
    refine (h.turn hi (hl load rfl) entry.1).imp ?_
    rintro _ s'' ⟨store, hstore, h'⟩
    refine ⟨[load], ?_⟩
    simpa [Target.write?, hi, hstore, Target.load?] using h'

theorem Target.filterMap_load?_cons (t : Target) (ts : List Target) :
    (t :: ts).filterMap load? = t.load?.toList ++ ts.filterMap load? := by
  cases h : t.load? <;> simp [h]

theorem Appends.writeAll (h : Appends s loads ids writes s') {ts : List Target}
    (hts : ∀ t ∈ ts, t.ReadsIn s.fn.proc.instrs)
    (hnodup : (ts.filterMap Target.load? ++ loads).Nodup) (vs : List (Operand × TypeTag)) :
    Ends (writeAll ts vs) s' (fun _ s'' => ∃ ids',
      Appends s (ts.filterMap Target.load? ++ loads) (ids ++ ids')
        (writes ++ writesTo s.fn.proc.instrs ts vs) s'') fun _ _ => True := by
  induction ts generalizing vs with
  | nil => exact ⟨[], by simpa [writesTo] using h⟩
  | cons t ts ih =>
    obtain ⟨ht, hts⟩ := List.forall_mem_cons.mp hts
    rw [Target.filterMap_load?_cons, List.append_assoc] at hnodup ⊢
    obtain ⟨-, hrest, hdisj⟩ := List.nodup_append.mp hnodup
    rw [Lower.writeAll, ends_bind]
    refine (ih hts hrest vs.tail).imp ?_
    rintro _ s₁ ⟨ids₁, h₁⟩
    refine (h₁.write ht (fun load hl hm => ?_) _).imp ?_
    · exact hdisj load (by simpa using hl) load hm rfl
    · rintro _ s₂ ⟨ids₂, h₂⟩
      rw [List.append_assoc ids, List.append_assoc writes] at h₂
      exact ⟨ids₁ ++ ids₂, h₂⟩

theorem Appends.accesses (h : Appends s loads ids writes s') :
    ids.map s'.fn.proc.access = writes.map Write.access := by
  have hstand := h.stand
  clear h
  induction hstand with
  | nil => rfl
  | cons hw _ ih =>
    rw [List.map_cons, List.map_cons, ih, Proc.access, hw.instr]
    rfl

end Appending

section Copies

variable {writes : List Write}

/-- A value that is no variable is taken as it is. A variable is moved to a temporary by one of the
copies. -/
def IsCopied (copies : List Write) (entry taken : Operand × TypeTag) : Prop :=
  (entry.1.isVariable = false ∧ taken = entry) ∨
    entry.1.isVariable = true ∧ ∃ r, taken = (.temp (copyKind entry.2) r, entry.2) ∧
      ⟨none, moveOpcode (destTag taken.1) entry.2, [entry.1], [taken.1]⟩ ∈ copies

theorem IsCopied.isVariable {copies : List Write} {entry taken : Operand × TypeTag}
    (h : IsCopied copies entry taken) : taken.1.isVariable = false := by
  rcases h with ⟨h, rfl⟩ | ⟨-, r, rfl, -⟩
  · exact h
  · cases h : copyKind entry.2 <;> rfl

/-- Copies are made in temporaries, one for each variable. -/
theorem Appends.snapshots (h : Appends s loads ids writes s')
    (entries : List (Operand × TypeTag)) :
    Ends (snapshots entries) s' (fun l s'' => ∃ ids' copies,
      Appends s loads (ids ++ ids') (writes ++ copies) s'' ∧
        List.Forall₂ (IsCopied copies) entries l.values ∧
        ∀ w ∈ copies, w.load = none ∧ ∀ t ∈ w.targets, t.isVariable = false) fun _ _ => True := by
  induction entries generalizing s' ids writes with
  | nil => exact ⟨[], [], by simpa using h, .nil, by simp⟩
  | cons entry rest ih =>
    obtain ⟨value, tag⟩ := entry
    cases hv : value.isVariable with
    | true =>
      rw [Lower.snapshots, snapshot_of_isVariable tag hv]
      simp only [bind_assoc, pure_bind]
      rw [ends_bind, allocTemp, ends_onProc]
      generalize hcopy : (s'.fn.proc.allocTemp (copyKind tag)).2 = copy
      obtain ⟨r, rfl⟩ : ∃ r, copy = .temp (copyKind tag) r := ⟨_, hcopy.symm⟩
      have htemp : (Operand.temp (copyKind tag) r).isVariable = false := by
        cases copyKind tag <;> rfl
      have hne : ¬ value.sameStorage (.temp (copyKind tag) r) = true := by
        rw [Operand.sameStorage_iff]
        exact Operand.not_sameStorage hv htemp
      have h₁ : Appends s loads ids writes
          (s'.withProc (s'.fn.proc.allocTemp (copyKind tag)).1) :=
        h.sameCode ⟨rfl, Proc.ids_setPool, Proc.instrs_setPool⟩
      rw [ends_bind]
      refine (h₁.move (value, tag) _).imp ?_
      rintro _ s₂ ⟨ids₂, h₂⟩
      rw [ends_bind]
      refine (ih h₂).imp ?_
      rintro l s₃ ⟨ids₃, copies, h₃, hl, hc⟩
      rw [Target.write?, if_neg hne, List.append_assoc ids, List.append_assoc writes] at h₃
      refine ⟨ids₂ ++ ids₃, _, h₃, .cons (.inr ⟨hv, r, rfl, ?_⟩) (hl.imp ?_), ?_⟩
      · exact List.mem_cons_self
      · rintro entry taken (he | ⟨he, r, ht, hm⟩)
        · exact .inl he
        · exact .inr ⟨he, r, ht, List.mem_cons_of_mem _ hm⟩
      · exact List.forall_mem_cons.mpr ⟨⟨rfl, List.forall_mem_singleton.mpr htemp⟩, hc⟩
    | false =>
      rw [Lower.snapshots, snapshot_of_not_isVariable tag hv, pure_bind, ends_bind]
      refine (ih h).imp ?_
      rintro l s₁ ⟨ids₁, copies, h₁, hl, hc⟩
      exact ⟨ids₁, copies, h₁, .cons (.inl ⟨hv, rfl⟩) hl, hc⟩

end Copies

section Releasing

theorem sameCode_refl (fn : FunctionState) : SameCode fn fn := ⟨rfl, fun _ => rfl, rfl⟩

theorem ends_free_sameCode (o : Operand) (s : LoweringState) :
    Ends (free o) s (fun _ s' => SameCode s.fn s'.fn) fun _ _ => True := by
  rw [free, ends_tryProc]
  cases hf : s.fn.proc.freeTemp o with
  | error b => trivial
  | ok q =>
    rcases Proc.freeTemp_ok hf with ⟨-, rfl⟩ | ⟨kind, reg, r, -, -, rfl⟩
    · exact ⟨rfl, fun _ => rfl, rfl⟩
    · exact ⟨rfl, Proc.ids_setPool, Proc.instrs_setPool⟩

theorem ends_forM_sameCode {α : Type} {f : α → Lower Unit}
    (hf : ∀ a s, Ends (f a) s (fun _ s' => SameCode s.fn s'.fn) fun _ _ => True) (l : List α)
    (s : LoweringState) :
    Ends (l.forM f) s (fun _ s' => SameCode s.fn s'.fn) fun _ _ => True := by
  induction l generalizing s with
  | nil => exact sameCode_refl s.fn
  | cons a l ih =>
    rw [List.forM_eq_forM, List.forM_cons, ends_bind]
    refine (hf a s).imp fun _ s₁ h₁ => ?_
    exact (ih s₁).imp fun _ _ h₂ => h₁.trans h₂

theorem ends_releaseTarget_sameCode (t : Target) (s : LoweringState) :
    Ends (releaseTarget t) s (fun _ s' => SameCode s.fn s'.fn) fun _ _ => True := by
  obtain dest | ⟨load, result, held⟩ := t
  · exact sameCode_refl s.fn
  · rw [releaseTarget, ends_bind]
    refine (ends_free_sameCode result s).imp fun _ s₁ h₁ => ?_
    exact (ends_forM_sameCode ends_free_sameCode _ s₁).imp fun _ _ h₂ => h₁.trans h₂

theorem ends_writeAll_release {writes : List Write} (h : Appends s [] ids writes s')
    {ts : List Target} (hts : ∀ t ∈ ts, t.ReadsIn s.fn.proc.instrs)
    (hnodup : (ts.filterMap Target.load?).Nodup) (list : ValueList) :
    Ends (do
      writeAll ts list.values
      freeAll list.owned
      ts.reverse.forM releaseTarget) s'
      (fun _ s'' => ∃ ids', Appends s (ts.filterMap Target.load?) ids'
        (writes ++ writesTo s.fn.proc.instrs ts list.values) s'') fun _ _ => True := by
  rw [ends_bind]
  refine (h.writeAll hts (by simpa using hnodup) list.values).imp ?_
  rintro _ s₁ ⟨ids', h₁⟩
  rw [List.append_nil] at h₁
  rw [ends_bind]
  refine (ends_forM_sameCode ends_free_sameCode _ s₁).imp fun _ s₂ h₂ => ?_
  refine (ends_forM_sameCode ends_releaseTarget_sameCode _ s₂).imp fun _ s₃ h₃ => ?_
  exact ⟨_, h₁.sameCode (h₂.trans h₃)⟩

end Releasing

end Lower

end ScriptC
