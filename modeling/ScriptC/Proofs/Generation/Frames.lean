import ScriptC.Proofs.Generation.Instructions

/-! # Frames and functions of admitted procs

The frame of a proc can be computed unless a slot has no number of 32 bits. It then has a slot for
whatever the code of the proc refers to, so that every block has code.
-/

namespace ScriptC

namespace Frame

variable {α β : Type} {f : Frame} {p : Proc}

/-- There is a result with `Q`, unless a slot is out of range. -/
def Attains (x : Except Breach α) (Q : α → Prop) : Prop :=
  match x with
  | .ok a => Q a
  | .error b => b = .overflow

theorem Attains.bind {x : Except Breach α} {g : α → Except Breach β} {Q : α → Prop} {R : β → Prop}
    (hx : Attains x Q) (hg : ∀ a, Q a → Attains (g a) R) : Attains (x >>= g) R := by
  cases x with
  | ok a => exact hg a hx
  | error b => exact hx

theorem Attains.mono {x : Except Breach α} {Q R : α → Prop} (hx : Attains x Q)
    (h : ∀ a, Q a → R a) : Attains x R := by
  cases x with
  | ok a => exact h a hx
  | error b => exact hx

theorem attains_checked (n : Nat) : Attains (checked n) fun m => m = n ∧ n < wordLimit := by
  unfold checked
  split
  · exact ⟨rfl, ‹_›⟩
  · rfl

/-- The frame has the same locals and no fewer slots. -/
structure Extends (f g : Frame) : Prop where
  numLocals_eq : g.numLocals = f.numLocals
  size_le : f.size ≤ g.size

theorem Extends.refl (f : Frame) : f.Extends f := ⟨rfl, Nat.le_refl _⟩

theorem Extends.trans {g k : Frame} (h : f.Extends g) (h' : g.Extends k) : f.Extends k :=
  ⟨h'.numLocals_eq.trans h.numLocals_eq, Nat.le_trans h.size_le h'.size_le⟩

/-- A selection has a slot of the frame, and the slot a number. -/
def Houses (f : Frame) (o : Operand) : Prop :=
  ∀ base index, o = .select base index →
    f.numLocals + base + index < f.size ∧ f.numLocals + base + index < wordLimit

/-- The arguments of a call have slots of the frame. -/
def Seats (f : Frame) (i : Instr) : Prop :=
  ∀ callee args s, i.operands = callee :: args → f.position callee = some s →
    s + 1 + (args.filter fun a => !a.isOpenRange).length ≤ f.size

theorem Extends.houses {g : Frame} (h : f.Extends g) {o : Operand} (ho : f.Houses o) :
    g.Houses o := by
  intro base index he
  obtain ⟨hs, hw⟩ := ho base index he
  rw [h.numLocals_eq]
  exact ⟨Nat.lt_of_lt_of_le hs h.size_le, hw⟩

theorem Extends.position_eq {g : Frame} (h : f.Extends g) : g.position = f.position := by
  funext o
  unfold position
  rw [h.numLocals_eq]

theorem Extends.seats {g : Frame} (h : f.Extends g) {i : Instr} (hi : f.Seats i) : g.Seats i := by
  intro callee args s ho hs
  rw [h.position_eq] at hs
  exact Nat.le_trans (hi callee args s ho hs) h.size_le

theorem attains_widen (f : Frame) (reach : Nat) :
    Attains (f.widen reach) fun g => f.Extends g ∧ reach ≤ g.size :=
  (attains_checked reach).bind fun _ hr =>
    ⟨⟨rfl, Nat.le_max_left _ _⟩, hr.1 ▸ Nat.le_max_right _ _⟩

theorem attains_slot? (f : Frame) (o : Operand) :
    Attains (f.slot? o) fun r => r = f.position o ∧ ∀ n, f.position o = some n → n < wordLimit := by
  unfold slot?
  split
  · rename_i n hn
    refine (attains_checked n).bind fun m hm => ⟨hm.1 ▸ hn.symm, fun k hk => ?_⟩
    obtain rfl : n = k := Option.some.inj (hn.symm.trans hk)
    exact hm.2
  · rename_i hn
    exact ⟨hn.symm, by simp [hn]⟩

theorem attains_fitOperand (f : Frame) (o : Operand) :
    Attains (f.fitOperand o) fun g => f.Extends g ∧ g.Houses o := by
  unfold fitOperand
  split
  · rename_i base index
    refine (attains_slot? f _).bind fun s hs => ?_
    obtain ⟨rfl, hw⟩ := hs
    refine (attains_widen f (f.numLocals + base + index + 1)).mono fun g hg => ⟨hg.1, ?_⟩
    rintro _ _ ⟨⟩
    rw [hg.1.numLocals_eq]
    exact ⟨hg.2, hw _ rfl⟩
  · rename_i ho
    exact ⟨.refl f, fun base index he => absurd he (ho base index)⟩

theorem attains_fitOperands (os : List Operand) (f : Frame) :
    Attains (os.foldlM fitOperand f) fun g => f.Extends g ∧ ∀ o ∈ os, g.Houses o := by
  induction os generalizing f with
  | nil => exact ⟨.refl f, List.forall_mem_nil _⟩
  | cons o os ih =>
    rw [List.foldlM_cons]
    refine (attains_fitOperand f o).bind fun g ⟨hg, ho⟩ => (ih g).mono fun k ⟨hk, hos⟩ => ?_
    exact ⟨hg.trans hk, List.forall_mem_cons.mpr ⟨hk.houses ho, hos⟩⟩

theorem attains_fitCall (f : Frame) (p : Proc) (i : Instr) :
    Attains (f.fitCall p i) fun g => f.Extends g ∧ g.Seats i := by
  unfold fitCall
  split
  · rename_i callee args ho
    have hseats {g : Frame} (hg : f.Extends g) (hs : ∀ s, f.position callee = some s →
        s + 1 + (args.filter fun a => !a.isOpenRange).length ≤ g.size) : g.Seats i := by
      intro callee' args' s ho' hs'
      cases ho.symm.trans ho'
      exact hs s (hg.position_eq ▸ hs')
    refine (attains_slot? f _).bind fun r hr => ?_
    obtain ⟨rfl, -⟩ := hr
    cases hpos : f.position callee with
    | none => exact ⟨.refl f, hseats (.refl f) (by simp [hpos])⟩
    | some s =>
      refine (attains_widen f _).bind fun g ⟨hg, hreach⟩ => ?_
      have hroom : ∀ s', f.position callee = some s' →
          s' + 1 + (args.filter fun a => !a.isOpenRange).length ≤ g.size := by
        rintro s' hs'
        cases hpos.symm.trans hs'
        exact hreach
      split
      · refine (attains_widen g _).mono fun k ⟨hk, _⟩ => ⟨hg.trans hk, hseats (hg.trans hk) ?_⟩
        exact fun s' hs' => Nat.le_trans (hroom s' hs') hk.size_le
      · exact ⟨hg, hseats hg hroom⟩
  · rename_i ho
    exact ⟨.refl f, fun callee args s ho' => by simp [ho] at ho'⟩

theorem attains_fitInstr (f : Frame) (p : Proc) (i : Instr) :
    Attains (f.fitInstr p i) fun g => f.Extends g ∧
      (∀ o ∈ i.operands ++ i.targets, g.Houses o) ∧ (i.opcode = .call → g.Seats i) := by
  refine (attains_fitOperands _ f).bind fun g ⟨hg, ho⟩ => ?_
  split
  · exact (attains_fitCall g p i).mono fun k ⟨hk, hi⟩ =>
      ⟨hg.trans hk, fun o hmem => hk.houses (ho o hmem), fun _ => hi⟩
  · rename_i hc
    exact ⟨hg, ho, fun h => absurd h hc⟩

theorem attains_fitInstrs (p : Proc) (is : List Instr) (f : Frame) :
    Attains (is.foldlM (fun f i => f.fitInstr p i) f) fun g => f.Extends g ∧
      ∀ i ∈ is, (∀ o ∈ i.operands ++ i.targets, g.Houses o) ∧ (i.opcode = .call → g.Seats i) := by
  induction is generalizing f with
  | nil => exact ⟨.refl f, List.forall_mem_nil _⟩
  | cons i is ih =>
    rw [List.foldlM_cons]
    refine (attains_fitInstr f p i).bind fun g ⟨hg, ho, hi⟩ => (ih g).mono fun k ⟨hk, his⟩ => ?_
    exact ⟨hg.trans hk, List.forall_mem_cons.mpr
      ⟨⟨fun o hmem => hk.houses (ho o hmem), fun hc => hk.seats (hi hc)⟩, his⟩⟩

/-- The frame has a slot for all that the code of the proc refers to. -/
structure Accommodates (f : Frame) (p : Proc) : Prop where
  numLocals_eq : f.numLocals = p.numLocals
  temps_le : p.numLocals + p.maxTemps .any ≤ f.size
  temps_lt : p.numLocals + p.maxTemps .any < wordLimit
  houses : ∀ i ∈ p.instrs, ∀ o ∈ i.operands ++ i.targets, f.Houses o
  seats : ∀ i ∈ p.instrs, i.opcode = .call → f.Seats i

theorem attains_compute (p : Proc) : Attains (compute p) fun f => f.Accommodates p := by
  refine (attains_checked _).bind fun size hsize => ?_
  obtain ⟨rfl, hw⟩ := hsize
  refine (attains_fitInstrs p _ _).mono fun f ⟨hf, his⟩ => ?_
  have hmem {i : Instr} (hi : i ∈ p.instrs) := his i (Array.mem_toList_iff.mpr hi)
  exact ⟨hf.numLocals_eq, hf.size_le, hw, fun i hi => (hmem hi).1, fun i hi => (hmem hi).2⟩

theorem accommodates_of_compute (h : compute p = .ok f) : f.Accommodates p := by
  have hf := attains_compute p
  rwa [h] at hf

/-- Selections within the frame have numbers. -/
theorem Accommodates.reaches (h : f.Accommodates p) {i : Instr} (hi : i ∈ p.instrs) {o : Operand}
    (ho : o ∈ i.operands ++ i.targets) : Reaches f.numLocals o :=
  fun base index he => (h.houses i hi o ho base index he).2

end Frame

namespace CodeContext

variable {c : CodeContext} {m : Module}

/-- Every block of an admitted proc has code, and so the proc has a function. -/
theorem Complete.unit (hc : c.Complete) (hb : c.proc.BlockDiscipline)
    (ha : ∀ i ∈ c.proc.instrs, Site.Admits ⟨c.proc, m⟩ i.opcode i.operands i.targets)
    (hr : ∀ i ∈ c.proc.instrs, ∀ o ∈ i.operands ++ i.targets, c.Reaches o)
    (hm : ∀ child, Site.HasChild ⟨c.proc, m⟩ child → child ∈ c.children) (name : String) :
    ∃ unit, c.unit name = .ok unit := by
  have hinstr : ∀ i ∈ c.proc.instrs, ∃ code, (return .comment i.opcode :: (← c.instr i) :
      Except Failure (List Code)) = .ok code := by
    intro i hi
    obtain ⟨code, hcode⟩ := hc.instr (ha i hi) (hr i hi) (hb.targets i hi) hm
    exact ⟨_, by rw [hcode, ok_bind]; rfl⟩
  have hblock : ∀ b, ∃ code, (return (b, ← c.block b) : Except Failure (Nat × List Code)) =
      .ok code := by
    intro b
    obtain ⟨parts, hparts⟩ := mapM_ok (l := c.proc.blockInstrs b)
      (f := fun i => return .comment i.opcode :: (← c.instr i))
      fun i hi => hinstr i (Proc.mem_of_mem_blockInstrs hi)
    exact ⟨_, by simp only [CodeContext.block, hparts, ok_bind]; rfl⟩
  obtain ⟨blocks, hblocks⟩ := mapM_ok (f := fun b => return (b, ← c.block b))
    (l := (List.range c.proc.blocks.size).filter (· != exitBlock)) fun b _ => hblock b
  exact ⟨_, by simp only [CodeContext.unit, hblocks, ok_bind]; rfl⟩

end CodeContext

end ScriptC
