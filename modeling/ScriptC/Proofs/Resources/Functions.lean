import ScriptC.Proofs.Generation.Frames
import ScriptC.Proofs.Resources.Instructions
import ScriptC.Proofs.Results.Protocol

/-! # Resources of functions

The code of a proc that was lowered stays within what its function declares and within its frame:
every register an instruction names is one of the proc, the arguments of a call were counted when
the frame was laid out, and the results that a call expects are registers of the proc too.
-/

namespace ScriptC

section Code

namespace CodeContext

variable {c : CodeContext} {name : String} {unit : CodeUnit}

/-- The code of an instruction that has any. -/
def codeOf (c : CodeContext) (i : Instr) : List Code := (c.instr i).toOption.getD []

theorem codeOf_eq {i : Instr} {code : List Code} (h : c.instr i = .ok code) : c.codeOf i = code := by
  rw [codeOf, h]
  rfl

theorem bind_eq_ok {ε α β : Type} {x : Except ε α} {f : α → Except ε β} {b : β}
    (h : x >>= f = .ok b) : ∃ a, x = .ok a ∧ f a = .ok b := by
  cases x with
  | ok a => exact ⟨a, rfl, h⟩
  | error e => cases h

theorem mapM_eq_ok {ε α β : Type} {f : α → Except ε β} {g : α → β} {l : List α} {bs : List β}
    (h : l.mapM f = .ok bs) (hg : ∀ a ∈ l, ∀ b, f a = .ok b → b = g a) :
    bs = l.map g ∧ ∀ a ∈ l, f a = .ok (g a) := by
  induction l generalizing bs with
  | nil =>
    cases h
    exact ⟨rfl, List.forall_mem_nil _⟩
  | cons a l ih =>
    obtain ⟨ha, hl⟩ := List.forall_mem_cons.mp hg
    rw [List.mapM_cons] at h
    obtain ⟨b, hb, h⟩ := bind_eq_ok h
    obtain ⟨bs', hbs', h⟩ := bind_eq_ok h
    cases h
    obtain ⟨rfl, hall⟩ := ih hbs' hl
    obtain rfl := ha b hb
    exact ⟨rfl, List.forall_mem_cons.mpr ⟨hb, hall⟩⟩

/-- A block is the code of its instructions, one after the other. -/
theorem block_eq {b : Nat} {code : List Code} (h : c.block b = .ok code) :
    code = ((c.proc.blockInstrs b).flatMap fun i => .comment i.opcode :: c.codeOf i) ∧
      ∀ i ∈ c.proc.blockInstrs b, c.instr i = .ok (c.codeOf i) := by
  obtain ⟨parts, hparts, h⟩ := bind_eq_ok h
  cases h
  obtain ⟨rfl, hall⟩ := mapM_eq_ok (g := fun i => .comment i.opcode :: c.codeOf i) hparts <| by
    intro i _ part hpart
    obtain ⟨code, hcode, hpart⟩ := bind_eq_ok hpart
    cases hpart
    rw [codeOf_eq hcode]
  refine ⟨rfl, fun i hi => ?_⟩
  obtain ⟨code, hcode, -⟩ := bind_eq_ok (hall i hi)
  rw [codeOf_eq hcode, hcode]

/-- The blocks of a proc that have code. -/
def liveBlocks (c : CodeContext) : List Nat :=
  (List.range c.proc.blocks.size).filter (· != exitBlock)

theorem unit_eq (h : c.unit name = .ok unit) :
    unit = ⟨name, c.proc.maxTemps .int, c.proc.maxTemps .float, c.liveBlocks.map fun b =>
      (b, (c.proc.blockInstrs b).flatMap fun i => .comment i.opcode :: c.codeOf i)⟩ ∧
    ∀ b ∈ c.liveBlocks, ∀ i ∈ c.proc.blockInstrs b, c.instr i = .ok (c.codeOf i) := by
  obtain ⟨blocks, hblocks, h⟩ := bind_eq_ok h
  cases h
  obtain ⟨rfl, hall⟩ := mapM_eq_ok (g := fun b => (b, (c.proc.blockInstrs b).flatMap fun i =>
      .comment i.opcode :: c.codeOf i)) hblocks <| by
    intro b _ part hpart
    obtain ⟨code, hcode, hpart⟩ := bind_eq_ok hpart
    cases hpart
    rw [(block_eq hcode).1]
  refine ⟨rfl, fun b hb => ?_⟩
  obtain ⟨code, hcode, -⟩ := bind_eq_ok (hall b hb)
  exact (block_eq hcode).2

theorem mem_liveBlocks {b : Nat} : b ∈ c.liveBlocks ↔ b < c.proc.blocks.size ∧ b ≠ exitBlock := by
  simp [liveBlocks]

/-- What all instructions refer to is all that the function refers to. -/
theorem forall_mem_refs {P : Ref → Prop} (h : c.unit name = .ok unit)
    (hP : ∀ b ∈ c.liveBlocks, ∀ i ∈ c.proc.blockInstrs b, Code.AllKeep P (c.codeOf i)) :
    ∀ x ∈ unit.refs, P x := by
  obtain ⟨rfl, -⟩ := unit_eq h
  intro x hx
  obtain ⟨_, hblock, hx⟩ := List.mem_flatMap.mp hx
  obtain ⟨b, hb, rfl⟩ := List.mem_map.mp hblock
  refine Code.forall_mem_refsOf (fun st hst => ?_) x hx
  obtain ⟨i, hi, hst⟩ := List.mem_flatMap.mp hst
  rcases List.mem_cons.mp hst with rfl | hst
  · exact ⟨by simp, List.forall_mem_nil _⟩
  · exact hP b hb i hi st hst

end CodeContext

/-- All code of a finished proc is in blocks with code. -/
theorem Proc.Finished.exists_block {p : Proc} {symbols : SymbolTable} {f : Function}
    (h : p.Finished symbols f) {i : Instr} (hi : i ∈ p.instrs) :
    ∃ b before j after, b < p.blocks.size ∧ b ≠ exitBlock ∧ p.ids b = before ++ j :: after ∧
      p.instrs[j]? = some i ∧ i ∈ p.blockInstrs b := by
  obtain ⟨j, hj⟩ := Array.mem_iff_getElem?.mp hi
  have hmem := h.listed.mem j i hj
  obtain ⟨before, after, hids⟩ := List.append_of_mem hmem
  refine ⟨i.block, before, j, after, ?_, ?_, hids, hj, List.mem_filterMap.mpr ⟨j, hmem, hj⟩⟩
  · by_contra hge
    rw [Proc.ids, Array.getD_eq_getD_getElem?, Array.getElem?_eq_none (Nat.le_of_not_lt hge)] at hmem
    cases hmem
  · intro he
    rw [he, h.exit_empty] at hmem
    cases hmem

end Code

section Bounds

/-- What the function declares, in a frame of so many slots. -/
def Ref.Within (unit : CodeUnit) (slots : Nat) : Ref → Prop
  | int r => r < unit.ints
  | float r => r < unit.floats
  | slot s => s < slots
  | scratch d => d < CodeUnit.scratchValues
  | constant _ | child _ => True
  | adrift => False

/-- Only values up to the top of the stack are no fixed arguments. -/
theorem CodeContext.splitTail_append {init : List Operand} (h : ∀ o ∈ init, o.isOpenRange = false)
    (r : Option Nat) :
    splitTail (init ++ (r.map fun r => .range r (-1)).toList) =
      (init, r.map fun r => .range r (-1)) := by
  cases r with
  | some r => simp [splitTail, Operand.isOpenRange]
  | none =>
    rw [Option.map_none, Option.toList_none, List.append_nil, splitTail]
    split
    · rename_i o ho
      rw [h o (List.mem_of_getLast? ho)]
      rfl
    · rfl

variable {p : Proc} {symbols : SymbolTable} {f : Function} {frame : Frame} {i : Instr}

/-- Where an operand lies on the stack, there is a slot of the frame, and the slot has a number. -/
theorem Frame.Accommodates.position_lt (hf : frame.Accommodates p) (hi : i ∈ p.instrs) {o : Operand}
    (ho : o ∈ i.operands ++ i.targets) (hfits : o.Fits symbols f p) {s : Nat}
    (hs : frame.position o = some s) : s < frame.size ∧ s < wordLimit := by
  have hle := hf.temps_le
  have hlt := hf.temps_lt
  have hn := hf.numLocals_eq
  unfold Operand.Fits at hfits
  unfold position at hs
  split at hs
  · cases hs
    omega
  · cases hs
    omega
  · cases hs
    omega
  · cases hs
    exact hf.houses i hi _ ho _ _ rfl
  · cases hs

/-- The arguments of a call were counted in its frame. -/
theorem Frame.Accommodates.argument_lt (hf : frame.Accommodates p) (h : p.Finished symbols f)
    (hi : i ∈ p.instrs) (ho : i.opcode = .call) {base s : Nat}
    (hcallee : i.operands[0]? = some (.tempAny base)) (hs : frame.position (.tempAny base) = some s)
    {j : Nat} (hj : j < (CodeContext.splitTail i.operands.tail).1.length) :
    s + (j + 1) < frame.size := by
  obtain ⟨C, c, ha⟩ := h.agrees
  obtain ⟨b, before, k, after, -, -, hids, hk, -⟩ := h.exists_block hi
  obtain ⟨init, hinit, hclosed⟩ := (ha.certified b before k after hids i hk).operands
  generalize (p.standing C b before).open? = r at hinit
  cases init with
  | nil =>
    rw [hinit] at hcallee
    cases r <;> cases hcallee
  | cons callee init =>
    rw [hinit] at hcallee hj
    cases hcallee
    obtain ⟨-, hclosed⟩ := List.forall_mem_cons.mp hclosed
    rw [List.cons_append, List.tail_cons, CodeContext.splitTail_append hclosed] at hj
    dsimp only at hj
    rw [List.cons_append] at hinit
    have hseats := hf.seats i hi ho _ _ s hinit hs
    have hcount : init.length ≤ ((init ++ (r.map fun r => Operand.range r (-1)).toList).filter
        fun a => !a.isOpenRange).length := by
      rw [List.filter_append, List.length_append, List.filter_eq_self.mpr fun a ha => by
        rw [hclosed a ha]; rfl]
      omega
    omega

/-- The results that a call expects are registers of the proc. -/
theorem Frame.Accommodates.result_lt (hf : frame.Accommodates p) (h : p.Finished symbols f)
    (hi : i ∈ p.instrs) (ho : i.opcode = .call) {base s : Nat}
    (hcallee : i.operands[0]? = some (.tempAny base)) (hs : frame.position (.tempAny base) = some s)
    {k : Nat} {n : Int64} (hn : i.targets[1]?.bind p.constant? = some (.integer n))
    (hk : k < n.toInt.toNat) : s + k < frame.size := by
  obtain ⟨C, c, ha⟩ := h.agrees
  obtain ⟨j, hj⟩ := Array.mem_iff_getElem?.mp hi
  obtain ⟨r, hasks, hroom⟩ := ha.calls j i hj ho nofun
  have hc : p.calleeOf? j = some r := by
    rw [Proc.calleeOf?, hj, Option.bind_some, hasks.callee? ho]
  have hw : p.maxTemps .any ≤ wordLimit := by
    have := hf.temps_lt
    omega
  obtain ⟨args, const, hops, htargets, hconst⟩ := hasks
  rw [hops] at hcallee
  cases hcallee
  cases hs
  rw [htargets] at hn
  cases hconst.symm.trans hn
  cases ht : C.taken j with
  | none =>
    have hnone : (C.count j).toInt.toNat = 0 := by
      rw [Certificate.count, ht]
      decide
    omega
  | some n =>
    rw [ha.toInt_count hw hc ht, Int.toNat_natCast] at hk
    have hroom : base + n ≤ p.maxTemps .any := hroom n ht
    have := hf.temps_le
    have := hf.numLocals_eq
    omega

/-- The function of a finished proc stays within what it declares and within its frame. -/
theorem CodeContext.refs_within {c : CodeContext} {name : String} {unit : CodeUnit}
    (h : c.proc.Finished symbols f) (hf : c.frame.Accommodates c.proc)
    (hunit : c.unit name = .ok unit) : ∀ x ∈ unit.refs, x.Within unit c.frame.size := by
  obtain ⟨hshape, hok⟩ := unit_eq hunit
  have hints : unit.ints = c.proc.maxTemps .int := by rw [hshape]
  have hfloats : unit.floats = c.proc.maxTemps .float := by rw [hshape]
  refine forall_mem_refs hunit fun b hb i hi => ?_
  have hmem := Proc.mem_of_mem_blockInstrs hi
  have hcovers (o : Operand) (ho : o ∈ i.operands ++ i.targets) :
      c.Covers (·.Within unit c.frame.size) o := by
    have hfits := h.code i hmem o ho
    refine ⟨fun s hs => (hf.position_lt hmem ho hfits hs).1, ?_, ?_, fun _ _ _ _ _ _ => trivial⟩
    · rintro r rfl
      exact (hints ▸ hfits : r < unit.ints)
    · rintro r rfl
      exact (hfloats ▸ hfits : r < unit.floats)
  have hinstr : c.CoversInstr (·.Within unit c.frame.size) i :=
    ⟨fun o ho => hcovers o (List.mem_append_left _ ho),
      fun o ho => hcovers o (List.mem_append_right _ ho), fun d hd => hd⟩
  refine (hinstr.instr (fun ho base s hcallee hs => ⟨fun j hj => ?_, fun k n hn hk => ?_⟩)
    (fun _ _ _ _ _ => trivial) _ (hok b hb i hi)).1
  · exact hf.argument_lt h hmem ho hcallee hs hj
  · exact hf.result_lt h hmem ho hcallee hs hn hk

end Bounds

section Slots

/-- The operand lies on the stack, among the locals of the frame or above them. -/
def Frame.OnStack (f : Frame) : Operand → Prop
  | .symbol (.localVar _ reg _) => reg < f.numLocals
  | .tempAny _ | .range _ _ | .select _ _ => True
  | _ => False

/-- Such an operand is a local below the locals of the frame, or a register above them. -/
theorem Frame.OnStack.cases {f : Frame} {o : Operand} (h : f.OnStack o) :
    (∃ r < f.numLocals, o.storage = some (.locals, r) ∧ f.position o = some r) ∨
      ∃ r, o.storage = some (.stack, r) ∧ f.position o = some (f.numLocals + r) := by
  cases o with
  | symbol ref =>
    cases ref with
    | localVar name reg tag => exact .inl ⟨reg, h, rfl, rfl⟩
    | upvalue | globalVar => exact h.elim
  | tempAny r => exact .inr ⟨r, rfl, rfl⟩
  | range base count => exact .inr ⟨base, rfl, rfl⟩
  | select base index => exact .inr ⟨base + index, rfl, congrArg some (Nat.add_assoc _ _ _)⟩
  | _ => exact h.elim

/-- Operands on the stack have the same slot exactly if they share storage. -/
theorem Frame.position_eq_iff {f : Frame} {a b : Operand} (ha : f.OnStack a) (hb : f.OnStack b) :
    f.position a = f.position b ↔ a.sameStorage b = true := by
  unfold Operand.sameStorage
  rcases ha.cases with ⟨r, hr, hsa, hpa⟩ | ⟨r, hsa, hpa⟩ <;>
    rcases hb.cases with ⟨q, hq, hsb, hpb⟩ | ⟨q, hsb, hpb⟩ <;>
    simp only [hsa, hsb, hpa, hpb, Option.isSome_some, Bool.true_and, beq_iff_eq, Option.some.injEq,
      Prod.mk.injEq, reduceCtorEq, true_and, false_and, iff_false] <;>
    omega

theorem Frame.slot?_eq_some_iff {f : Frame} {o : Operand} {s : Nat} :
    f.slot? o = .ok (some s) ↔ f.position o = some s ∧ s < wordLimit := by
  unfold slot? checked
  cases f.position o with
  | none => simp
  | some n =>
    by_cases hn : n < wordLimit
    · simp only [hn, if_true, Option.some.injEq]
      constructor
      · rintro ⟨⟩
        exact ⟨rfl, hn⟩
      · rintro ⟨rfl, -⟩
        rfl
    · simp only [hn, if_false, Option.some.injEq]
      constructor
      · rintro ⟨⟩
      · rintro ⟨rfl, hs⟩
        exact absurd hs hn

/-- An operand whose slot has a number is a register that has one. -/
theorem Frame.inReach_of_slot? {f : Frame} {o : Operand} {s : Nat} (h : f.slot? o = .ok (some s)) :
    o.inReach = true := by
  obtain ⟨hs, hlt⟩ := slot?_eq_some_iff.mp h
  cases o with
  | select base index =>
    obtain rfl := Option.some.inj hs
    exact decide_eq_true (by omega)
  | _ => rfl

/-- Whether operands share storage is whether they have the same slot. -/
theorem Frame.sharesStorage_eq {f : Frame} {a b : Operand} {s r : Nat} (ha : f.OnStack a)
    (hb : f.OnStack b) (hs : f.slot? a = .ok (some s)) (hr : f.slot? b = .ok (some r)) :
    a.sharesStorage b = .ok (decide (s = r)) := by
  have hiff := position_eq_iff ha hb
  rw [(slot?_eq_some_iff.mp hs).1, (slot?_eq_some_iff.mp hr).1, Option.some.injEq] at hiff
  rw [Operand.sharesStorage, inReach_of_slot? hs, inReach_of_slot? hr, Bool.and_self, if_pos rfl,
    Bool.eq_iff_iff.mpr (hiff.symm.trans decide_eq_true_iff.symm)]

end Slots

end ScriptC
