import ScriptC.Proofs.Pools
import ScriptC.Proofs.Runs

/-! # Block discipline

While a function is lowered, its blocks fall into four groups: the exit, which stays empty; the
blocks that were created ahead of their use and are still empty; the current block; and all others,
which end in their only terminator. Every operation on procs respects this order.
-/

namespace ScriptC

/-- Branches name as many blocks as they have outcomes, and only blocks that exist. -/
def Instr.TargetsWithin (n : Nat) (i : Instr) : Prop :=
  match i.opcode with
  | .br => ∃ b < n, i.targets = [.block b]
  | .cbr => ∃ a < n, ∃ b < n, i.targets = [.block a, .block b]
  | .ret => i.targets = [.block exitBlock]
  | _ => ∀ b, .block b ∉ i.targets

theorem Instr.TargetsWithin.mono {n m : Nat} {i : Instr} (h : i.TargetsWithin n) (hn : n ≤ m) :
    i.TargetsWithin m := by
  unfold TargetsWithin at h ⊢
  split at h
  · obtain ⟨b, hb, he⟩ := h
    exact ⟨b, by omega, he⟩
  · obtain ⟨a, ha, b, hb, he⟩ := h
    exact ⟨a, by omega, b, by omega, he⟩
  · exact h
  · exact h

theorem Instr.targetsWithin_of_not_terminator {n : Nat} {i : Instr}
    (hi : i.opcode.isTerminator = false) (h : ∀ b, .block b ∉ i.targets) : i.TargetsWithin n := by
  unfold TargetsWithin
  split <;> rename_i ho <;> first | exact h | simp [ho, Opcode.isTerminator] at hi

namespace Proc

/-- The ids of the instructions of a block. -/
def ids (p : Proc) (b : Nat) : List Nat := p.blocks.getD b []

/-- The instruction at a position of a block. -/
def instrAt? (p : Proc) (b k : Nat) : Option Instr := (p.ids b)[k]?.bind (p.instrs[·]?)

/-- The instruction with this id ends its block. -/
def isEnd (p : Proc) (i : Nat) : Bool := (p.instrs[i]?).any (·.opcode.isTerminator)

def IsOpen (p : Proc) (b : Nat) : Prop := ∀ i ∈ p.ids b, p.isEnd i = false

def IsSealed (p : Proc) (b : Nat) : Prop :=
  ∃ start last, p.ids b = start ++ [last] ∧ p.isEnd last = true ∧ ∀ i ∈ start, p.isEnd i = false

/-- The proc with one more instruction at the end of a block. -/
def appended (p : Proc) (b : Nat) (i : Instr) : Proc :=
  { p with
    instrs := p.instrs.push i
    blocks := p.blocks.modify b (· ++ [p.instrs.size]) }

section Operations

variable {p : Proc} {b c i : Nat} {instr : Instr}

theorem getD_modify {blocks : Array (List Nat)} (hb : b < blocks.size)
    (f : List Nat → List Nat) :
    (blocks.modify b f).getD c [] = if c = b then f (blocks.getD c []) else blocks.getD c [] := by
  simp only [Array.getD_eq_getD_getElem?, Array.getElem?_modify]
  by_cases h : b = c
  · subst h
    simp [hb]
  · simp [h, Ne.symm h]

theorem emit_eq (opcode : Opcode) (operands targets : List Operand) :
    p.emit b opcode operands targets =
      if b < p.blocks.size then .ok (p.appended b ⟨opcode, operands, targets, b⟩, p.instrs.size)
      else .error .outOfBounds := rfl

theorem isTerminated_eq : p.isTerminated b = (p.ids b).getLast?.any p.isEnd := by
  unfold isTerminated lastInstr? ids isEnd
  cases (p.blocks.getD b []).getLast? with
  | none => rfl
  | some i => cases h : p.instrs[i]? <;> simp [h]

theorem IsOpen.isTerminated (h : p.IsOpen b) : p.isTerminated b = false := by
  rw [isTerminated_eq]
  cases hl : (p.ids b).getLast? with
  | none => rfl
  | some i => exact h i (List.mem_of_getLast? hl)

theorem IsSealed.isTerminated (h : p.IsSealed b) : p.isTerminated b = true := by
  obtain ⟨start, last, he, hl, -⟩ := h
  simp [isTerminated_eq, he, hl]

@[simp] theorem ids_newBlock : p.newBlock.1.ids b = p.ids b := by
  simp only [ids, newBlock, Array.getD_eq_getD_getElem?, Array.getElem?_push]
  split <;> rename_i h
  · simp [h]
  · rfl

@[simp] theorem instrs_newBlock : p.newBlock.1.instrs = p.instrs := rfl

@[simp] theorem isEnd_newBlock : p.newBlock.1.isEnd i = p.isEnd i := rfl

@[simp] theorem isOpen_newBlock : p.newBlock.1.IsOpen b ↔ p.IsOpen b := by simp [IsOpen]

@[simp] theorem isSealed_newBlock : p.newBlock.1.IsSealed b ↔ p.IsSealed b := by simp [IsSealed]

theorem ids_appended (hb : b < p.blocks.size) :
    (p.appended b instr).ids c = if c = b then p.ids b ++ [p.instrs.size] else p.ids c := by
  simp only [ids, appended, getD_modify hb]
  split <;> simp_all

theorem instrAt?_appended (hb : b < p.blocks.size) :
    (p.appended b instr).instrAt? b (p.ids b).length = some instr := by
  rw [instrAt?, ids_appended hb, if_pos rfl]
  simp [appended]

theorem isEnd_appended (hi : i < p.instrs.size) : (p.appended b instr).isEnd i = p.isEnd i := by
  simp [isEnd, appended, Array.getElem?_push_lt hi, hi]

@[simp] theorem isEnd_appended_last :
    (p.appended b instr).isEnd p.instrs.size = instr.opcode.isTerminator := by
  simp [isEnd, appended]

theorem isEnd_modify {f : Instr → Instr} (hf : ∀ instr, p.instrs[i]? = some instr →
      (f instr).opcode.isTerminator = instr.opcode.isTerminator) :
    Proc.isEnd { p with instrs := p.instrs.modify i f } = p.isEnd := by
  funext j
  simp only [isEnd, Array.getElem?_modify]
  split <;> rename_i hj
  · subst hj
    cases hp : p.instrs[i]? with
    | none => rfl
    | some instr => simpa using hf instr hp
  · rfl

theorem IsOpen.modify {f : Instr → Instr} (h : p.IsOpen b) (hf : ∀ instr,
      p.instrs[i]? = some instr → (f instr).opcode.isTerminator = instr.opcode.isTerminator) :
    Proc.IsOpen { p with instrs := p.instrs.modify i f } b := by
  intro j hj
  rw [isEnd_modify hf]
  exact h j hj

theorem ids_fresh (hb : p.blocks = #[[], []]) (b : Nat) : p.ids b = [] := by
  rw [ids, hb]
  rcases b with _ | _ | b <;> rfl

theorem ids_of_size_le (h : p.blocks.size ≤ b) : p.ids b = [] := by
  simp [ids, Array.getD_eq_getD_getElem?, h]

/-- What moving an instruction changes: its id leaves the list of its block and ends that of the
other. -/
theorem relocate_ok {q : Proc} (h : p.relocate i b = .ok q) :
    ∃ instr, p.instrs[i]? = some instr ∧
      q.instrs = p.instrs.modify i (fun instr => { instr with block := b }) ∧
      q.blocks.size = p.blocks.size ∧ q.id = p.id ∧ q.pool = p.pool ∧
      ∀ c, q.ids c = (if c = instr.block then (p.ids c).filter (· != i) else p.ids c) ++
        if c = b then [i] else [] := by
  unfold relocate at h
  cases hp : p.instrs[i]? with
  | none => simp [hp] at h
  | some instr =>
    simp only [hp] at h
    split_ifs at h with hb
    cases h
    refine ⟨instr, rfl, rfl, by simp, rfl, rfl, fun c => ?_⟩
    rw [ids, getD_modify (by simpa using hb.2), getD_modify hb.1]
    split <;> simp [ids]

theorem header_relocate {q : Proc} (h : p.relocate i b = .ok q) :
    q.id = p.id ∧ q.parent = p.parent ∧ q.constants = p.constants := by
  unfold relocate at h
  split at h
  · cases h
  · split at h <;> cases h
    exact ⟨rfl, rfl, rfl⟩

end Operations

/-- The order of the blocks while `current` receives instructions and the `pending` blocks wait for
theirs. -/
structure Laid (p : Proc) (current : Nat) (pending : List Nat) : Prop where
  ids_lt : ∀ b, ∀ i ∈ p.ids b, i < p.instrs.size
  exit_lt : exitBlock < p.blocks.size
  exit_empty : p.ids exitBlock = []
  current_lt : current < p.blocks.size
  current_ne : current ≠ exitBlock
  current_cases : p.IsOpen current ∨ p.IsSealed current
  current_fresh : current ∉ pending
  pending_nodup : pending.Nodup
  pending_lt : ∀ b ∈ pending, b < p.blocks.size
  pending_ne : ∀ b ∈ pending, b ≠ exitBlock
  pending_empty : ∀ b ∈ pending, p.ids b = []
  others : ∀ b < p.blocks.size, b ≠ exitBlock → b ≠ current → b ∉ pending → p.IsSealed b
  targets : ∀ (i : Nat) (instr : Instr), p.instrs[i]? = some instr →
    instr.TargetsWithin p.blocks.size

namespace Laid

variable {p q : Proc} {c b i : Nat} {pending rest : List Nat} {instr : Instr}

/-- Only the lists of ids, what ends a block and the targets matter. -/
theorem congr (h : p.Laid c pending) (hb : q.ids = p.ids) (hs : q.blocks.size = p.blocks.size)
    (hn : q.instrs.size = p.instrs.size) (he : q.isEnd = p.isEnd)
    (ht : ∀ (i : Nat) (instr : Instr), q.instrs[i]? = some instr →
      instr.TargetsWithin p.blocks.size) :
    q.Laid c pending := by
  have ho : q.IsOpen = p.IsOpen := by funext b; simp only [IsOpen, hb, he]
  have hc : q.IsSealed = p.IsSealed := by funext b; simp only [IsSealed, hb, he]
  constructor
  · rw [hb, hn]; exact h.ids_lt
  · rw [hs]; exact h.exit_lt
  · rw [hb]; exact h.exit_empty
  · rw [hs]; exact h.current_lt
  · exact h.current_ne
  · rw [ho, hc]; exact h.current_cases
  · exact h.current_fresh
  · exact h.pending_nodup
  · rw [hs]; exact h.pending_lt
  · exact h.pending_ne
  · rw [hb]; exact h.pending_empty
  · rw [hs, hc]; exact h.others
  · rw [hs]; exact ht

theorem of_eq (h : p.Laid c pending) (hb : q.blocks = p.blocks) (hi : q.instrs = p.instrs) :
    q.Laid c pending := by
  refine h.congr ?_ (by rw [hb]) (by rw [hi]) ?_ (by rw [hi]; exact h.targets)
  · funext b; simp only [ids, hb]
  · funext i; simp only [isEnd, hi]

theorem of_perm (h : p.Laid c pending) (hp : pending.Perm rest) : p.Laid c rest where
  __ := h
  current_fresh hc := h.current_fresh (hp.mem_iff.mpr hc)
  pending_nodup := hp.nodup_iff.mp h.pending_nodup
  pending_lt b hb := h.pending_lt b (hp.mem_iff.mpr hb)
  pending_ne b hb := h.pending_ne b (hp.mem_iff.mpr hb)
  pending_empty b hb := h.pending_empty b (hp.mem_iff.mpr hb)
  others b hb he hc hr := h.others b hb he hc fun hb' => hr (hp.mem_iff.mp hb')

/-- A new proc starts in its entry. -/
theorem fresh (hb : p.blocks = #[[], []]) (hi : p.instrs = #[]) :
    p.Laid entryBlock [] := by
  have hids := ids_fresh hb
  constructor
  · simp [hids]
  · simp [hb, exitBlock]
  · exact hids _
  · simp [hb, entryBlock]
  · decide
  · exact Or.inl (by simp [IsOpen, hids])
  · simp
  · simp
  · simp
  · simp
  · simp
  · intro b hlt he hc
    simp only [hb, List.size_toArray, List.length_cons, List.length_nil] at hlt
    simp only [entryBlock, exitBlock] at hc he
    omega
  · simp [hi]

theorem isTerminated_iff (h : p.Laid c pending) : p.isTerminated c = true ↔ p.IsSealed c := by
  constructor
  · intro ht
    rcases h.current_cases with ho | hs
    · simp [ho.isTerminated] at ht
    · exact hs
  · exact IsSealed.isTerminated

theorem isOpen_of_not_terminated (h : p.Laid c pending) (ht : ¬ p.isTerminated c = true) :
    p.IsOpen c :=
  h.current_cases.resolve_right fun hs => ht hs.isTerminated

/-- A new block waits for its instructions. -/
theorem newBlock (h : p.Laid c pending) : p.newBlock.1.Laid c (p.blocks.size :: pending) := by
  have hs : p.newBlock.1.blocks.size = p.blocks.size + 1 := Array.size_push _
  have hnew : p.ids p.blocks.size = [] := ids_of_size_le (Nat.le_refl _)
  constructor
  · simpa using h.ids_lt
  · have := h.exit_lt; omega
  · simpa using h.exit_empty
  · have := h.current_lt; omega
  · exact h.current_ne
  · simpa using h.current_cases
  · have := h.current_lt
    simp only [List.mem_cons, not_or]
    exact ⟨by omega, h.current_fresh⟩
  · refine List.nodup_cons.mpr ⟨fun hm => ?_, h.pending_nodup⟩
    have := h.pending_lt _ hm
    omega
  · intro b hb
    rcases List.mem_cons.mp hb with rfl | hb
    · omega
    · have := h.pending_lt b hb; omega
  · intro b hb
    rcases List.mem_cons.mp hb with rfl | hb
    · have := h.exit_lt; omega
    · exact h.pending_ne b hb
  · intro b hb
    rcases List.mem_cons.mp hb with rfl | hb
    · simpa using hnew
    · simpa using h.pending_empty b hb
  · intro b hb he hc hp
    simp only [List.mem_cons, not_or] at hp
    simpa using h.others b (by omega) he hc hp.2
  · intro i instr hi
    exact (h.targets i instr hi).mono (by omega)

/-- A waiting block becomes current once the block before has ended. -/
theorem start (h : p.Laid c (b :: rest)) (hc : p.IsSealed c) : p.Laid b rest where
  ids_lt := h.ids_lt
  exit_lt := h.exit_lt
  exit_empty := h.exit_empty
  current_lt := h.pending_lt b List.mem_cons_self
  current_ne := h.pending_ne b List.mem_cons_self
  current_cases := Or.inl (by simp [IsOpen, h.pending_empty b List.mem_cons_self])
  current_fresh := (List.nodup_cons.mp h.pending_nodup).1
  pending_nodup := (List.nodup_cons.mp h.pending_nodup).2
  pending_lt x hx := h.pending_lt x (List.mem_cons_of_mem _ hx)
  pending_ne x hx := h.pending_ne x (List.mem_cons_of_mem _ hx)
  pending_empty x hx := h.pending_empty x (List.mem_cons_of_mem _ hx)
  others x hx he hxb hxr := by
    by_cases hxc : x = c
    · exact hxc ▸ hc
    · exact h.others x hx he hxc (by simp [hxb, hxr])
  targets := h.targets

section Append

theorem isEnd_of_mem_appended (h : p.Laid c pending) (hi : i ∈ p.ids b) :
    (p.appended c instr).isEnd i = p.isEnd i :=
  isEnd_appended (h.ids_lt b i hi)

theorem isSealed_appended_of_ne (h : p.Laid c pending) (hb : b ≠ c) (hs : p.IsSealed b) :
    (p.appended c instr).IsSealed b := by
  obtain ⟨start, last, he, hl, hn⟩ := hs
  have hmem : ∀ i ∈ start ++ [last], (p.appended c instr).isEnd i = p.isEnd i :=
    fun i hi => h.isEnd_of_mem_appended (he ▸ hi)
  refine ⟨start, last, by rw [ids_appended h.current_lt, if_neg hb, he], ?_, fun i hi => ?_⟩
  · rw [hmem last (by simp), hl]
  · rw [hmem i (by simp [hi]), hn i hi]

theorem isOpen_appended (h : p.Laid c pending) (ho : p.IsOpen c)
    (hi : instr.opcode.isTerminator = false) : (p.appended c instr).IsOpen c := by
  intro i hm
  rw [ids_appended h.current_lt, if_pos rfl] at hm
  rcases List.mem_append.mp hm with hm | hm
  · rw [h.isEnd_of_mem_appended hm, ho i hm]
  · rw [List.mem_singleton.mp hm, isEnd_appended_last, hi]

theorem isSealed_appended (h : p.Laid c pending) (ho : p.IsOpen c)
    (hi : instr.opcode.isTerminator = true) : (p.appended c instr).IsSealed c := by
  refine ⟨p.ids c, p.instrs.size, by rw [ids_appended h.current_lt, if_pos rfl], ?_, ?_⟩
  · rw [isEnd_appended_last, hi]
  · intro i hm
    rw [h.isEnd_of_mem_appended hm, ho i hm]

/-- An instruction goes to the end of the current block if that is open. -/
theorem append (h : p.Laid c pending) (ho : p.IsOpen c)
    (ht : instr.TargetsWithin p.blocks.size) : (p.appended c instr).Laid c pending := by
  have hs : (p.appended c instr).blocks.size = p.blocks.size := Array.size_modify
  have hne : ∀ b, b ≠ c → (p.appended c instr).ids b = p.ids b := fun b hb => by
    rw [ids_appended h.current_lt, if_neg hb]
  constructor
  · intro b i hi
    have hn : (p.appended c instr).instrs.size = p.instrs.size + 1 := Array.size_push _
    rw [ids_appended h.current_lt] at hi
    split at hi
    · rcases List.mem_append.mp hi with hi | hi
      · have := h.ids_lt c i hi; omega
      · rw [List.mem_singleton.mp hi]; omega
    · have := h.ids_lt b i hi; omega
  · rw [hs]; exact h.exit_lt
  · rw [hne _ h.current_ne.symm]; exact h.exit_empty
  · rw [hs]; exact h.current_lt
  · exact h.current_ne
  · cases hi : instr.opcode.isTerminator with
    | false => exact Or.inl (h.isOpen_appended ho hi)
    | true => exact Or.inr (h.isSealed_appended ho hi)
  · exact h.current_fresh
  · exact h.pending_nodup
  · rw [hs]; exact h.pending_lt
  · exact h.pending_ne
  · intro b hb
    rw [hne b fun he => h.current_fresh (he ▸ hb)]
    exact h.pending_empty b hb
  · intro b hb he hc hp
    exact h.isSealed_appended_of_ne hc (h.others b (hs ▸ hb) he hc hp)
  · intro i instr' hi
    rw [hs]
    simp only [appended, Array.getElem?_push] at hi
    split at hi
    · exact Option.some.inj hi ▸ ht
    · exact h.targets i instr' hi

end Append

section Rewriting

/-- An instruction may be replaced by one that ends its block exactly if it did. -/
theorem modify (h : p.Laid c pending) {f : Instr → Instr}
    (hf : ∀ instr, p.instrs[i]? = some instr →
      (f instr).opcode.isTerminator = instr.opcode.isTerminator ∧
        (f instr).TargetsWithin p.blocks.size) :
    Laid { p with instrs := p.instrs.modify i f } c pending := by
  refine h.congr rfl rfl (by simp) (isEnd_modify fun instr hi => (hf instr hi).1) ?_
  intro j instr hj
  simp only [Array.getElem?_modify] at hj
  split at hj <;> rename_i he
  · subst he
    obtain ⟨old, ho, rfl⟩ := Option.map_eq_some_iff.mp hj
    exact (hf old ho).2
  · exact h.targets j instr hj

/-- An instruction that does not end its block may move to the current block. -/
theorem relocate (h : p.Laid c pending) (ho : p.IsOpen c) (hi : p.isEnd i = false)
    (hq : p.relocate i c = .ok q) : q.Laid c pending ∧ q.IsOpen c := by
  obtain ⟨instr, hp, hn, hs, -, -, hids⟩ := relocate_ok hq
  have hend : q.isEnd = p.isEnd := by
    funext j
    simp only [isEnd, hn, Array.getElem?_modify]
    split <;> cases p.instrs[j]? <;> rfl
  have hmem : ∀ x j, j ∈ q.ids x → j ∈ p.ids x ∨ j = i := by
    intro x j hj
    rw [hids] at hj
    grind
  have hempty : ∀ x, x ≠ c → p.ids x = [] → q.ids x = [] := by
    intro x hx he
    rw [hids, he, if_neg hx]
    simp
  have hopen : q.IsOpen c := by
    intro j hj
    rw [hend]
    rcases hmem c j hj with hj | rfl
    · exact ho j hj
    · exact hi
  refine ⟨?_, hopen⟩
  constructor
  · intro x j hj
    rw [hn, Array.size_modify]
    rcases hmem x j hj with hj | rfl
    · exact h.ids_lt x j hj
    · exact (Array.getElem?_eq_some_iff.mp hp).1
  · rw [hs]; exact h.exit_lt
  · exact hempty _ h.current_ne.symm h.exit_empty
  · rw [hs]; exact h.current_lt
  · exact h.current_ne
  · exact Or.inl hopen
  · exact h.current_fresh
  · exact h.pending_nodup
  · rw [hs]; exact h.pending_lt
  · exact h.pending_ne
  · intro x hx
    exact hempty x (fun he => h.current_fresh (he ▸ hx)) (h.pending_empty x hx)
  · intro x hx he hc hpend
    -- the terminator is not the instruction that leaves
    obtain ⟨start, last, hl, hlast, hstart⟩ := h.others x (hs ▸ hx) he hc hpend
    have hne : last ≠ i := fun he' => by simp [he', hi] at hlast
    refine ⟨if x = instr.block then start.filter (· != i) else start, last, ?_, ?_, ?_⟩
    · rw [hids, hl, if_neg hc]
      split <;> simp [hne]
    · rw [hend, hlast]
    · intro j hj
      rw [hend]
      refine hstart j ?_
      split at hj
      · exact (List.mem_filter.mp hj).1
      · exact hj
  · intro j instr' hj
    rw [hs]
    rw [hn, Array.getElem?_modify] at hj
    split at hj
    · obtain ⟨old, hold, rfl⟩ := Option.map_eq_some_iff.mp hj
      exact h.targets j old hold
    · exact h.targets j instr' hj

end Rewriting

end Laid

/-- The blocks of a finished proc: the exit is empty, every other block ends in its only
terminator, and branches lead to blocks of the same proc. -/
structure BlockDiscipline (p : Proc) : Prop where
  ids_lt : ∀ b, ∀ i ∈ p.ids b, i < p.instrs.size
  exit_lt : exitBlock < p.blocks.size
  exit_empty : p.blockInstrs exitBlock = []
  ends : ∀ b < p.blocks.size, b ≠ exitBlock → ∃ start last, p.blockInstrs b = start ++ [last] ∧
    last.opcode.isTerminator = true ∧ ∀ i ∈ start, i.opcode.isTerminator = false
  targets : ∀ i ∈ p.instrs, i.TargetsWithin p.blocks.size

variable {p : Proc} {b c i : Nat}

theorem blockInstrs_eq : p.blockInstrs b = (p.ids b).filterMap (p.instrs[·]?) := rfl

theorem mem_of_mem_blockInstrs {i : Instr} (h : i ∈ p.blockInstrs b) : i ∈ p.instrs := by
  obtain ⟨k, -, hk⟩ := List.mem_filterMap.mp h
  exact Array.mem_of_getElem? hk

theorem IsSealed.blockInstrs (h : p.IsSealed b) : ∃ start last, p.blockInstrs b = start ++ [last] ∧
    last.opcode.isTerminator = true ∧ ∀ i ∈ start, i.opcode.isTerminator = false := by
  obtain ⟨start, last, he, hl, hn⟩ := h
  obtain ⟨instr, hi, ht⟩ := (Option.any_eq_true _ _).mp hl
  refine ⟨start.filterMap (p.instrs[·]?), instr, ?_, ht, fun j hj => ?_⟩
  · simp [blockInstrs_eq, he, hi]
  · obtain ⟨k, hk, hkj⟩ := List.mem_filterMap.mp hj
    simpa [isEnd, hkj] using hn k hk

/-- Once no block waits and the current one has ended, the proc is finished. -/
theorem Laid.blockDiscipline (h : p.Laid c []) (hc : p.IsSealed c) : p.BlockDiscipline where
  ids_lt := h.ids_lt
  exit_lt := h.exit_lt
  exit_empty := by simp [blockInstrs_eq, h.exit_empty]
  ends b hb he := by
    by_cases hbc : b = c
    · exact hbc ▸ hc.blockInstrs
    · exact (h.others b hb he hbc (by simp)).blockInstrs
  targets i hi := by
    obtain ⟨k, hk⟩ := Array.mem_iff_getElem?.mp hi
    exact h.targets k i hk

end Proc

end ScriptC
