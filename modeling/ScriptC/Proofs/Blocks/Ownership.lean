import Mathlib.Data.List.Nodup
import ScriptC.Proofs.Blocks.Discipline

/-! # Ownership of instructions

Instructions stand outside the blocks, which list them by id. However a proc is put together from
new blocks, emitted instructions and moves between blocks, each id stands in one list only, which is
that of the block its instruction names.
-/

namespace ScriptC.Proc

/-- A new proc becomes the given one by adding blocks and by emitting and moving instructions. The
list holds the numbers under which its blocks were created, the entry and the exit first. -/
inductive Assembled : Proc → List Nat → Prop
  | new (id : Nat) (parent : Option Nat) : Assembled { id, parent } [entryBlock, exitBlock]
  | newBlock {p : Proc} {numbers : List Nat} : Assembled p numbers →
      Assembled p.newBlock.1 (numbers ++ [p.newBlock.2])
  | emit {p q : Proc} {numbers : List Nat} {b i : Nat} {opcode : Opcode}
      {operands targets : List Operand} : Assembled p numbers →
      p.emit b opcode operands targets = .ok (q, i) → Assembled q numbers
  | relocate {p q : Proc} {numbers : List Nat} {i b : Nat} : Assembled p numbers →
      p.relocate i b = .ok q → Assembled q numbers

/-- The block that the instruction with this id names as its own. -/
def holder? (p : Proc) (i : Nat) : Option Nat := (p.instrs[i]?).map (·.block)

/-- The id ends the list of the block and stands nowhere else. All other ids keep their lists and
their order. -/
def PutsLast (p q : Proc) (i b : Nat) : Prop :=
  ∀ c, q.ids c = (p.ids c).filter (· != i) ++ if c = b then [i] else []

/-- The lists of the blocks and the instructions agree on where each instruction stands. -/
structure Owned (p : Proc) : Prop where
  mem_ids : ∀ {b i : Nat}, i ∈ p.ids b ↔ p.holder? i = some b
  nodup : ∀ b, (p.ids b).Nodup

namespace Owned

variable {p q : Proc} {b c i : Nat}

theorem fresh (hb : p.blocks = #[[], []]) (hi : p.instrs = #[]) : p.Owned := by
  have hids := ids_fresh hb
  constructor
  · simp [hids, holder?, hi]
  · simp [hids]

theorem newBlock (h : p.Owned) : p.newBlock.1.Owned := by
  constructor
  · intro b i
    rw [ids_newBlock]
    exact h.mem_ids
  · intro b
    rw [ids_newBlock]
    exact h.nodup b

/-- The lists still agree after an id went to the end of a block that its instruction names. -/
theorem putsLast (h : p.Owned) (hq : p.PutsLast q i b)
    (hh : ∀ j, q.holder? j = if j = i then some b else p.holder? j) : q.Owned := by
  constructor
  · intro c j
    rw [hq c, List.mem_append, List.mem_filter, h.mem_ids, hh j]
    by_cases hj : j = i
    · subst hj
      simp [eq_comm]
    · have hlast : j ∉ if c = b then [i] else [] := by split <;> simp [hj]
      simp [hj, hlast]
  · intro c
    rw [hq c, List.nodup_append]
    refine ⟨(h.nodup c).filter _, by split <;> simp, fun x hx y hy he => ?_⟩
    have hy : y = i := by split at hy <;> simp_all
    simp [he, hy] at hx

/-- Where an id does not stand, nothing is taken away. -/
theorem filter_ids (h : p.Owned) (hi : p.holder? i ≠ some c) :
    (p.ids c).filter (· != i) = p.ids c := by
  rw [List.filter_eq_self]
  rintro j hj
  rw [bne_iff_ne]
  rintro rfl
  exact hi (h.mem_ids.mp hj)

theorem block_lt (h : p.Owned) (hi : p.holder? i = some b) : b < p.blocks.size := by
  by_contra hb
  have := h.mem_ids.mpr hi
  rw [ids_of_size_le (Nat.not_lt.mp hb)] at this
  cases this

theorem appended (h : p.Owned) (hb : b < p.blocks.size) (instr : Instr) :
    p.PutsLast (p.appended b instr) p.instrs.size b := by
  intro c
  rw [ids_appended hb, h.filter_ids (by simp [holder?])]
  split <;> simp_all

theorem emit_ok (h : p.Owned) {opcode : Opcode} {operands targets : List Operand}
    (he : p.emit b opcode operands targets = .ok (q, i)) :
    i = p.instrs.size ∧ p.PutsLast q i b ∧ q.Owned := by
  rw [emit_eq] at he
  split_ifs at he with hb
  cases he
  have hq := h.appended hb ⟨opcode, operands, targets, b⟩
  refine ⟨rfl, hq, h.putsLast hq fun j => ?_⟩
  simp only [holder?, Proc.appended, Array.getElem?_push]
  split <;> rfl

theorem relocate_ok (h : p.Owned) (hr : p.relocate i b = .ok q) : p.PutsLast q i b ∧ q.Owned := by
  obtain ⟨instr, hi, hinstrs, -, -, -, hids⟩ := Proc.relocate_ok hr
  have hq : p.PutsLast q i b := by
    intro c
    rw [hids c]
    split <;> rename_i hc
    · rfl
    · rw [h.filter_ids]
      simpa [holder?, hi] using Ne.symm hc
  refine ⟨hq, h.putsLast hq fun j => ?_⟩
  simp only [holder?, hinstrs, Array.getElem?_modify, eq_comm (a := i)]
  split <;> simp_all

/-- Instructions can be moved to every block. -/
theorem exists_relocate (h : p.Owned) (hi : i < p.instrs.size) (hb : b < p.blocks.size) :
    ∃ q, p.relocate i b = .ok q ∧
      q.instrs = p.instrs.modify i fun instr => { instr with block := b } := by
  have hlt : p.instrs[i].block < p.blocks.size := h.block_lt (i := i) (by simp [holder?, hi])
  simp [relocate, Array.getElem?_eq_getElem hi, hlt, hb]

theorem flatten_perm (h : p.Owned) : p.blocks.toList.flatten.Perm (List.range p.instrs.size) := by
  have hblocks : p.blocks.toList = (List.range p.blocks.size).map p.ids := by
    apply List.ext_getElem
    · simp
    · intro b hb _
      rw [Array.length_toList] at hb
      simp [ids, hb]
  rw [hblocks, ← List.flatMap_def, List.perm_ext_iff_of_nodup _ List.nodup_range]
  · intro i
    rw [List.mem_flatMap, List.mem_range]
    constructor
    · rintro ⟨b, -, hi⟩
      have := h.mem_ids.mp hi
      by_contra hn
      simp [holder?, Nat.not_lt.mp hn] at this
    · intro hi
      have hh : p.holder? i = some p.instrs[i].block := by simp [holder?, hi]
      exact ⟨_, List.mem_range.mpr (h.block_lt hh), h.mem_ids.mpr hh⟩
  · -- two blocks share no id, since an instruction names one block
    rw [List.nodup_flatMap]
    refine ⟨fun b _ => h.nodup b, List.nodup_range.imp fun {a b} hne => ?_⟩
    intro i ha hb
    exact hne (Option.some.inj ((h.mem_ids.mp ha).symm.trans (h.mem_ids.mp hb)))

end Owned

namespace Assembled

variable {p : Proc} {numbers : List Nat}

theorem owned (h : p.Assembled numbers) : p.Owned := by
  induction h with
  | new => exact .fresh rfl rfl
  | newBlock _ ih => exact ih.newBlock
  | emit _ he ih => exact (ih.emit_ok he).2.2
  | relocate _ hr ih => exact (ih.relocate_ok hr).2

/-- A block is created under the number of its place. -/
theorem numbers_eq (h : p.Assembled numbers) : numbers = List.range p.blocks.size := by
  induction h with
  | new => rfl
  | @newBlock p _ _ ih =>
    rw [ih, Proc.newBlock, Array.size_push, List.range_succ]
  | emit _ he ih =>
    rw [emit_eq] at he
    split_ifs at he
    cases he
    simpa [Proc.appended] using ih
  | relocate _ hr ih =>
    obtain ⟨-, -, -, hsize, -⟩ := Proc.relocate_ok hr
    rw [hsize, ih]

end Assembled

/-- Each instruction stands once, in the block it names, and each block at its number. Emitting or
moving an instruction puts it last in a block and leaves the order of all others. -/
theorem assembled_owns {p : Proc} {numbers : List Nat} (h : p.Assembled numbers) :
    p.blocks.toList.flatten.Perm (List.range p.instrs.size) ∧
      (∀ b i, i ∈ p.ids b ↔ ∃ instr, p.instrs[i]? = some instr ∧ instr.block = b) ∧
      numbers = List.range p.blocks.size ∧
      ∀ b < p.blocks.size,
        (∀ opcode operands targets, ∃ q,
          p.emit b opcode operands targets = .ok (q, p.instrs.size) ∧
          q.instrs = p.instrs.push ⟨opcode, operands, targets, b⟩ ∧
          p.PutsLast q p.instrs.size b) ∧
        ∀ i < p.instrs.size, ∃ q, p.relocate i b = .ok q ∧
          (q.instrs = p.instrs.modify i fun instr => { instr with block := b }) ∧
          p.PutsLast q i b := by
  have ho := h.owned
  refine ⟨ho.flatten_perm, fun b i => ?_, h.numbers_eq, fun b hb => ⟨?_, ?_⟩⟩
  · rw [ho.mem_ids, holder?, Option.map_eq_some_iff]
  · intro opcode operands targets
    exact ⟨_, by rw [emit_eq, if_pos hb], rfl, ho.appended hb _⟩
  · intro i hi
    obtain ⟨q, hq, hinstrs⟩ := ho.exists_relocate hi hb
    exact ⟨q, hq, hinstrs, (ho.relocate_ok hq).1⟩

/-- An instruction is moved to another block, then one to the end of the block it stands in. -/
theorem movedTwice_owns : ∃ p, Assembled p [0, 1, 2] ∧ p.ids 0 = [1] ∧ p.ids 2 = [0, 2] ∧
    p.blocks.toList.flatten.Perm [0, 1, 2] := by
  have start := (Assembled.new 0 none).newBlock
  have first := start.emit (rfl : Proc.emit _ 0 .mov [.nil] [.tempAny 0] = _)
  have second := first.emit (rfl : Proc.emit _ 0 .mov [.true] [.tempAny 1] = _)
  have third := second.emit (rfl : Proc.emit _ 2 .mov [.false] [.tempAny 2] = _)
  have moved := third.relocate (rfl : Proc.relocate _ 0 2 = _)
  have last := moved.relocate (rfl : Proc.relocate _ 2 2 = _)
  exact ⟨_, last, rfl, rfl, (assembled_owns last).1⟩

end ScriptC.Proc
