import ScriptC.Proofs.Moves.Machine
import ScriptC.Proofs.Resources.Functions

/-! # Sequencing of calls and returns

The code of a call brings its arguments, and the code of a return its results, to where they are
expected. Sources and destinations share the stack, and the number of values in the tail is known
at run time only. Whatever they are, every value arrives as it was before the first move.
-/

namespace ScriptC

/-- From a slot up to the top of the stack there are `n` values; without a slot there are none. -/
def CodeState.TailHas (s : CodeState) (n : Nat) : Option Nat → Prop
  | some slot => s.top = slot + n
  | none => n = 0

namespace CodeContext

variable {c : CodeContext} {s : CodeState} {o : Operand} {i : Instr} {code : List Code}

section Operands

/-- Where the value of an operand comes from, if it has one. -/
def origin? (c : CodeContext) (s : CodeState) : Operand → Option (Tagged ⊕ Location)
  | .tempInt r => some (.inl (.integer (s.ints r)))
  | .tempFloat r => some (.inl (.float (s.floats r)))
  | .nil => some (.inl .nil)
  | .true => some (.inl (.boolean true))
  | .false => some (.inl (.boolean false))
  | .constant k =>
    match c.proc.constants.get? k with
    | some (.integer n) => some (.inl (.integer n))
    | some (.number x) => some (.inl (.float x))
    | some (.string _) => (c.strings.lookup k).map fun index => .inr (.constant index)
    | none => none
  | .symbol (.upvalue _ index _) => some (.inr (s.upvalue index))
  | o => (c.frame.position o).map fun slot => .inr (.stack slot)

/-- The value of an operand. -/
def value? (c : CodeContext) (s : CodeState) (o : Operand) : Option Tagged :=
  (c.origin? s o).map fun source => source.elim id s.memory

/-- The put of an operand that has a value. -/
def put (c : CodeContext) (s : CodeState) (p : Location) (o : Operand) : Put :=
  ⟨p, (c.origin? s o).getD (.inl .nil)⟩

theorem put_eq {p : Location} {source : Tagged ⊕ Location} (h : c.origin? s o = some source) :
    c.put s p o = ⟨p, source⟩ := by
  rw [put, h, Option.getD_some]

theorem value?_eq_put_value (p : Location) (h : (c.origin? s o).isSome) :
    c.value? s o = some ((c.put s p o).value s.memory) := by
  obtain ⟨source, hs⟩ := Option.isSome_iff_exists.mp h
  rw [value?, put_eq hs, hs]
  rfl

theorem origin?_narrowed : c.origin? s (narrowed o) = c.origin? s o := by
  unfold narrowed
  split <;> rfl

theorem origin?_of_position {slot : Nat} (h : c.frame.position o = some slot) :
    c.origin? s o = some (.inr (.stack slot)) := by
  unfold origin?
  split
  all_goals first | cases h | rw [h]; rfl

theorem upvalue_ne_kept (index j : Nat) : s.upvalue index ≠ .kept j := by
  unfold CodeState.upvalue
  cases s.upvalues index <;> exact nofun

/-- No operand has its value among those that were set aside. -/
theorem origin?_ne_kept (j : Nat) : c.origin? s o ≠ some (.inr (.kept j)) := by
  unfold origin?
  intro h
  split at h
  all_goals first | cases h | skip
  · split at h
    all_goals first | cases h | skip
    obtain ⟨_, -, h⟩ := Option.map_eq_some_iff.mp h
    cases h
  · exact upvalue_ne_kept _ _ (Sum.inr.inj (Option.some.inj h))
  · obtain ⟨_, -, h⟩ := Option.map_eq_some_iff.mp h
    cases h

/-- Puts elsewhere do not change the value of an operand. -/
theorem value?_foldl_apply {ms : List Put} (h : ∀ m ∈ ms, c.origin? s o ≠ some (.inr m.target)) :
    c.value? { s with memory := ms.foldl Put.apply s.memory } o = c.value? s o := by
  change (c.origin? s o).map _ = (c.origin? s o).map _
  cases ho : c.origin? s o with
  | none => rfl
  | some source =>
    cases source with
    | inl v => rfl
    | inr p =>
      have hp : ms.foldl Put.apply s.memory p = s.memory p :=
        Put.foldl_apply_of_ne (fun m hm he => h m hm (he ▸ ho)) s.memory
      simp only [Option.map_some, Sum.elim_inr, hp]

end Operands

section Stores

/-- The address of an operand is that of the value it stands for. -/
theorem location?_of_address {a : Address} (h : c.address o = .ok a) :
    ∃ p, a.location? s = some p ∧ c.origin? s o = some (.inr p) := by
  obtain ⟨a', ha, h⟩ := bind_eq_ok h
  cases a' with
  | none => cases h
  | some a' =>
    cases h
    unfold address? at ha
    split at ha
    · cases ha
      exact ⟨_, rfl, rfl⟩
    · rename_i k
      split at ha
      · rename_i text hk
        split at ha
        · rename_i index hindex
          cases ha
          refine ⟨_, rfl, ?_⟩
          rw [Proc.constant?] at hk
          simp only [origin?, hk, hindex, Option.map_some]
        · cases ha
      · cases ha
    · obtain ⟨slot, hslot, ha⟩ := bind_eq_ok ha
      have hpos := yields_slot? o slot hslot
      cases slot with
      | none => cases ha
      | some slot =>
        cases ha
        exact ⟨_, rfl, origin?_of_position hpos.symm⟩

/-- Storing an operand puts its value where the address is. -/
theorem performs_store {dest : Address} {p : Location} {st : Code} (h : c.store dest o = .ok st)
    (hp : dest.location? s = some p) (hw : p.IsWritable) :
    (c.origin? s o).isSome ∧ st.Performs s (c.put s p o) := by
  have hput {source : Tagged ⊕ Location} (ho : c.origin? s o = some source)
      (hrun : ∀ μ, st.run { s with memory := μ } =
        CodeState.put? { s with memory := μ } dest source) :
      (c.origin? s o).isSome ∧ st.Performs s (c.put s p o) := by
    refine ⟨ho ▸ rfl, fun μ => ?_⟩
    rw [hrun, CodeState.put?_eq hp hw, put_eq ho]
  obtain ⟨held, hheld, h⟩ := bind_eq_ok h
  cases held with
  | tagged =>
    obtain ⟨a, ha, h⟩ := bind_eq_ok h
    cases h
    obtain ⟨q, hq, ho⟩ := location?_of_address (s := s) ha
    refine hput ho fun μ => ?_
    rw [Code.run, Address.location?_memory, hq, Option.bind_some]
  | _ =>
    cases o with
    | constant k =>
      simp only [holding, Proc.constant?] at hheld
      split at hheld <;> cases hheld
      all_goals
        rename_i hk
        simp only [intValue, floatValue, Proc.constant?, hk] at h
        cases h
        refine hput (by simp only [origin?, hk]; rfl) fun μ => ?_
        rfl
    | symbol ref => cases ref <;> cases hheld
    | _ =>
      cases hheld <;> cases h <;> exact hput rfl fun μ => rfl

/-- Stores one after the other perform the puts of their operands. -/
theorem runAll_stores (dest : Nat → Address) (p : Nat → Location) {l : List (Operand × Nat)}
    {sts : List Code} (h : l.mapM (fun x => c.store (dest x.2) (narrowed x.1)) = .ok sts)
    (hp : ∀ x ∈ l, (dest x.2).location? s = some (p x.2)) (hw : ∀ j, (p j).IsWritable) :
    (∀ x ∈ l, (c.origin? s x.1).isSome) ∧ ∀ rest, Code.runAll (sts ++ rest) s = Code.runAll rest
      { s with memory := (l.map fun x => c.put s (p x.2) x.1).foldl Put.apply s.memory } := by
  suffices hall : (∀ x ∈ l, (c.origin? s x.1).isSome) ∧
      List.Forall₂ (Code.Performs s) sts (l.map fun x => c.put s (p x.2) x.1) from
    ⟨hall.1, fun rest => Code.runAll_performs hall.2 s.memory⟩
  induction l generalizing sts with
  | nil =>
    cases h
    exact ⟨List.forall_mem_nil _, .nil⟩
  | cons x l ih =>
    obtain ⟨hx, hl⟩ := List.forall_mem_cons.mp hp
    rw [List.mapM_cons] at h
    obtain ⟨st, hst, h⟩ := bind_eq_ok h
    obtain ⟨sts', hsts', h⟩ := bind_eq_ok h
    cases h
    obtain ⟨ho, hperforms⟩ := performs_store hst hx (hw x.2)
    obtain ⟨hos, hall⟩ := ih hsts' hl
    rw [origin?_narrowed] at ho
    rw [put, origin?_narrowed] at hperforms
    exact ⟨List.forall_mem_cons.mpr ⟨ho, hos⟩, .cons hperforms hall⟩

/-- If no operand is read from where an earlier one was put, each arrives as it was. -/
theorem foldl_puts {p : Nat → Location} {l : List (Operand × Nat)} (h : l.Pairwise fun x y =>
      p y.2 ≠ p x.2 ∧ c.origin? s y.1 ≠ some (.inr (p x.2)))
    (ho : ∀ x ∈ l, (c.origin? s x.1).isSome) (μ : Memory) : ∀ x ∈ l,
      (l.map fun x => c.put s (p x.2) x.1).foldl Put.apply μ (p x.2) =
        (c.put s (p x.2) x.1).value μ := by
  intro x hx
  apply Put.foldl_apply_target _ μ (c.put s (p x.2) x.1)
  · exact List.mem_map.mpr ⟨x, hx, rfl⟩
  · rw [List.pairwise_map]
    refine h.imp_of_mem fun {x y} _ hy hxy => ⟨hxy.1, ?_⟩
    obtain ⟨source, hs⟩ := Option.isSome_iff_exists.mp (ho y hy)
    rw [put_eq hs]
    exact fun he => hxy.2 (hs.trans (congrArg some he))

theorem pairwise_zipIdx {α : Type} (l : List α) : l.zipIdx.Pairwise fun x y => x.2 < y.2 := by
  rw [← List.pairwise_map, List.zipIdx_map_snd]
  exact List.pairwise_lt_range'

end Stores

section Tails

variable {tail : Option Nat} {n : Nat}

/-- The operand for the values from a register up to the top of the stack. -/
def openTail (tail : Option Nat) : Option Operand := tail.map fun t => .range t (-1)

theorem tailSlot_eq {slot : Nat} (h : c.tailSlot o = .ok slot) :
    c.frame.position o = some slot := by
  obtain ⟨slot?, hslot, h⟩ := bind_eq_ok h
  rw [← yields_slot? o slot? hslot]
  cases slot? <;> cases h
  rfl

/-- The tail is counted and copied, if there is one. -/
theorem runAll_moveTail {dest : Int} {moved : List Code}
    (h : c.moveTail (openTail tail) dest = .ok moved)
    (hn : s.TailHas n (tail.map (c.frame.numLocals + ·))) :
    ∃ count, tailLength? count tail.isSome = some (n : Int) ∧
      ∀ rest, Code.runAll (moved ++ rest) s = Code.runAll rest
        { s with
          tail := count
          memory := (tailPuts dest (c.frame.numLocals + tail.getD 0) n).foldl Put.apply s.memory } := by
  cases tail with
  | none =>
    cases h
    cases hn
    exact ⟨s.tail, rfl, fun rest => by simp⟩
  | some t =>
    obtain ⟨slot, hslot, h⟩ := bind_eq_ok h
    cases h
    cases tailSlot_eq hslot
    have htop : s.top - (c.frame.numLocals + t : Nat) = n := by
      have : s.top = (c.frame.numLocals + t : Nat) + n := hn
      omega
    refine ⟨some n, rfl, fun rest => ?_⟩
    rw [List.cons_append, Code.runAll_cons rfl, htop, List.cons_append, Code.runAll_cons rfl]
    simp

end Tails

section Returns

variable {vs : List Operand} {tail : Option Nat} {n : Nat}

theorem ret_eq {rear : Option Operand} (h : c.ret i = .ok code)
    (hsplit : splitTail i.operands = (vs, rear)) :
    ∃ kept moved, (vs.zipIdx.mapM fun x => c.store (.kept x.2) (narrowed x.1)) = .ok kept ∧
      c.moveTail rear (vs.length - 1) = .ok moved ∧
      code = [.scope ((if vs.length = 0 then [] else [.keep vs.length]) ++ kept ++ moved ++
        (List.range vs.length).map (fun j => .copy (.result j) (.kept j)) ++
        [.setResults vs.length rear.isSome, .goto exitBlock])] := by
  rw [ret, hsplit] at h
  obtain ⟨kept, hkept, h⟩ := bind_eq_ok h
  obtain ⟨moved, hmoved, h⟩ := bind_eq_ok h
  cases h
  exact ⟨kept, moved, hkept, hmoved, rfl⟩

/-- There is room for what is set aside. -/
theorem exists_room (m : Nat) (s : CodeState) : ∃ room, m ≤ room ∧ ∀ rest,
    Code.runAll ((if m = 0 then [] else [.keep m]) ++ rest) s =
      Code.runAll rest { s with room } := by
  by_cases hm : m = 0
  · exact ⟨s.room, by omega, fun rest => by rw [if_pos hm]; rfl⟩
  · exact ⟨m, Nat.le_refl m, fun rest => by rw [if_neg hm]; rfl⟩

/-- Results are put where they are expected from where they were set aside. -/
def resultPuts (m : Nat) : List Put :=
  (List.range m).map fun (j : Nat) => ⟨.stack (j - 1), .inr (.kept j)⟩

theorem runAll_resultPuts {m : Nat} (hm : m ≤ s.room) (rest : List Code) :
    Code.runAll ((List.range m).map (fun j => .copy (.result j) (.kept j)) ++ rest) s =
      Code.runAll rest { s with memory := (resultPuts m).foldl Put.apply s.memory } := by
  apply Code.runAll_performs
  rw [resultPuts, List.forall₂_map_left_iff, List.forall₂_map_right_iff, List.forall₂_same]
  intro j hj μ
  have hroom : j < s.room := Nat.lt_of_lt_of_le (List.mem_range.mp hj) hm
  simp [Code.run, Address.location?, hroom, CodeState.put?]

theorem foldl_resultPuts {m j : Nat} (hj : j < m) (μ : Memory) :
    (resultPuts m).foldl Put.apply μ (.stack (j - 1)) = μ (.kept j) := by
  apply Put.foldl_apply_target _ μ ⟨.stack (j - 1), .inr (.kept j)⟩
  · exact List.mem_map.mpr ⟨j, List.mem_range.mpr hj, rfl⟩
  · rw [resultPuts, List.pairwise_map]
    refine List.pairwise_lt_range.imp fun hlt => ⟨?_, nofun⟩
    intro he
    have := Location.stack.inj he
    omega

/-- The fixed values are set aside, and the stack stays as it is. -/
theorem exists_kept {kept : List Code}
    (h : (vs.zipIdx.mapM fun x => c.store (.kept x.2) (narrowed x.1)) = .ok kept)
    (hroom : vs.length ≤ s.room) :
    ∃ μ : Memory, (∀ rest, Code.runAll (kept ++ rest) s = Code.runAll rest { s with memory := μ }) ∧
      (∀ j o, vs[j]? = some o → c.value? s o = some (μ (.kept j))) ∧
      ∀ slot, μ (.stack slot) = s.memory (.stack slot) := by
  obtain ⟨horigin, hstores⟩ := runAll_stores .kept .kept h
    (fun x hx => if_pos (Nat.lt_of_lt_of_le (List.snd_lt_of_mem_zipIdx hx) hroom)) (fun _ _ => nofun)
  refine ⟨_, hstores, fun j o hj => ?_, fun slot => ?_⟩
  · have hmem : (o, j) ∈ vs.zipIdx := List.mk_mem_zipIdx_iff_getElem?.mpr hj
    have hpair : vs.zipIdx.Pairwise fun x y => Location.kept y.2 ≠ .kept x.2 ∧
        c.origin? s y.1 ≠ some (.inr (.kept x.2)) :=
      (pairwise_zipIdx vs).imp fun hlt => ⟨by simpa using Nat.ne_of_gt hlt, origin?_ne_kept _⟩
    rw [foldl_puts hpair horigin s.memory (o, j) hmem]
    exact value?_eq_put_value _ (horigin _ hmem)
  · apply Put.foldl_apply_of_ne
    intro m hm
    obtain ⟨x, -, rfl⟩ := List.mem_map.mp hm
    exact nofun

/-- A return leaves each of its values, as it was before the first move, in the slot where the
caller expects it: the first in the slot of the function, and the tail after the fixed ones. -/
theorem ret_moves_results (vs : List Operand) (tail : Option Nat) (n : Nat) (s : CodeState)
    (h : c.ret i = .ok code)
    (hops : i.operands = vs ++ (openTail tail).toList) (hclosed : ∀ o ∈ vs, o.isOpenRange = false)
    (hn : s.TailHas n (tail.map (c.frame.numLocals + ·))) :
    ∃ s', Code.runAll code s = some (.jumps exitBlock s') ∧
      (∀ (j : Nat) o, vs[j]? = some o → c.value? s o = some (s'.memory (.stack (j - 1)))) ∧
      (∀ t ∈ tail, ∀ j < n, s'.memory (.stack (vs.length - 1 + j)) =
        s.memory (.stack (c.frame.numLocals + t + j))) ∧
      s'.results = vs.length + n := by
  obtain ⟨kept, moved, hkept, hmoved, rfl⟩ := ret_eq h (hops ▸ splitTail_append hclosed tail)
  obtain ⟨room, hroom, hkeep⟩ := exists_room vs.length s
  obtain ⟨μ, hkept, hvalue, hstack⟩ := exists_kept (s := { s with room }) hkept hroom
  obtain ⟨count, hcount, hmoved⟩ := runAll_moveTail (s := { s with room, memory := μ }) hmoved hn
  let moved := (tailPuts (vs.length - 1) (c.frame.numLocals + tail.getD 0) n).foldl Put.apply μ
  refine ⟨s.leave { s with
    room, tail := count, memory := (resultPuts vs.length).foldl Put.apply moved,
    results := vs.length + n }, ?_, fun j o hj => ?_, fun t ht j hj => ?_, rfl⟩
  · rw [Code.runAll_scope, List.append_assoc, List.append_assoc, List.append_assoc, hkeep, hkept,
      hmoved, runAll_resultPuts hroom, Option.isSome_map,
      Code.runAll_cons (Code.run_setResults hcount)]
    rfl
  · have hlt : j < vs.length := (List.getElem?_eq_some_iff.mp hj).1
    have hmoved : moved (.kept j) = μ (.kept j) := by
      apply Put.foldl_apply_of_ne
      intro m hm
      obtain ⟨k, -, hk⟩ := exists_of_mem_tailPuts hm
      exact hk ▸ nofun
    change c.value? s o = some ((resultPuts vs.length).foldl Put.apply moved (.stack (j - 1)))
    rw [foldl_resultPuts hlt, hmoved]
    exact hvalue j o hj
  · cases ht
    have hfixed : (resultPuts vs.length).foldl Put.apply moved (.stack (vs.length - 1 + j)) =
        moved (.stack (vs.length - 1 + j)) := by
      apply Put.foldl_apply_of_ne
      intro m hm he
      obtain ⟨k, hk, rfl⟩ := List.mem_map.mp hm
      have := Location.stack.inj he
      have := List.mem_range.mp hk
      omega
    exact hfixed.trans ((foldl_tailPuts μ hj).trans (hstack _))

/-- A function with one local and the integer 50 among its constants. -/
def oneLocal : CodeContext where
  proc := { id := 0, parent := none, constants := ⟨#[.integer 50, .integer (-1)]⟩ }
  children := []
  frame := ⟨1, 8⟩
  strings := []

/-- Each slot of the stack holds its number, and slot 5 is the last. -/
def numbered : CodeState where
  memory
    | .stack slot => .integer (.ofInt slot)
    | _ => .nil
  ints _ := 0
  floats _ := ⟨0⟩
  upvalues := .inr
  top := 6

/-- Return the integer, the first register, the local, and all values from the third register on. -/
def swapped : Instr :=
  ⟨.ret, [.constant 0, .tempAny 0, .symbol (.localVar "x" 0 .any), .range 2 (-1)],
    [.block exitBlock], 0⟩

/-- The local and the first register change places, and the tail moves down by one slot. -/
theorem swapped_ret_moves_results : ∃ code s', oneLocal.ret swapped = .ok code ∧
    Code.runAll code numbered = some (.jumps exitBlock s') ∧
    [-1, 0, 1, 2, 3, 4].map (fun slot => s'.memory (.stack slot)) =
      [50, 1, 0, 3, 4, 5].map Tagged.integer ∧ s'.results = 6 := by
  obtain ⟨code, hcode⟩ : ∃ code, oneLocal.ret swapped = .ok code := ⟨_, rfl⟩
  obtain ⟨s', hrun, hvalue, htail, hresults⟩ := ret_moves_results
    [.constant 0, .tempAny 0, .symbol (.localVar "x" 0 .any)] (some 2) 3 numbered hcode rfl
    (by decide) rfl
  refine ⟨code, s', hcode, hrun, ?_, hresults⟩
  have h₀ : s'.memory (.stack (-1)) = .integer 50 := (Option.some.inj (hvalue 0 _ rfl)).symm
  have h₁ : s'.memory (.stack 0) = .integer 1 := (Option.some.inj (hvalue 1 _ rfl)).symm
  have h₂ : s'.memory (.stack 1) = .integer 0 := (Option.some.inj (hvalue 2 _ rfl)).symm
  have h₃ : s'.memory (.stack 2) = .integer 3 := htail 2 rfl 0 (by decide)
  have h₄ : s'.memory (.stack 3) = .integer 4 := htail 2 rfl 1 (by decide)
  have h₅ : s'.memory (.stack 4) = .integer 5 := htail 2 rfl 2 (by decide)
  simp only [List.map_cons, List.map_nil, h₀, h₁, h₂, h₃, h₄, h₅]

end Returns

section Calls

variable {base : Nat} {args : List Operand} {tail : Option Nat} {n : Nat}

theorem call_eq (h : c.call i = .ok code)
    (hops : i.operands = .tempAny base :: args ++ (openTail tail).toList)
    (hclosed : ∀ o ∈ args, o.isOpenRange = false) :
    ∃ expected moved stores after,
      c.moveTail (openTail tail) ((c.frame.numLocals + base : Nat) + 1 + args.length) = .ok moved ∧
      (args.zipIdx.reverse.mapM fun x => c.store (.argument (x.2 + 1)) (narrowed x.1)) =
        .ok stores ∧
      code = [.scope (.setCallee (c.frame.numLocals + base) :: moved ++ stores ++
        .setTop (args.length + 1) tail.isSome :: .call expected :: after)] := by
  obtain ⟨callee, hcallee, h⟩ := bind_eq_ok h
  have hcallee := yields_operand i 0 callee hcallee
  rw [hops] at hcallee h
  cases hcallee
  obtain ⟨func, hfunc, h⟩ := bind_eq_ok h
  cases tailSlot_eq hfunc
  obtain ⟨target, -, h⟩ := bind_eq_ok h
  dsimp only at h
  split at h
  · rename_i expected _
    rw [pure_bind, List.cons_append, List.tail_cons, openTail, splitTail_append hclosed] at h
    obtain ⟨moved, hmoved, h⟩ := bind_eq_ok h
    obtain ⟨stores, hstores, h⟩ := bind_eq_ok h
    cases h
    exact ⟨expected, moved, stores, .reloadBase :: if 0 ≤ expected then [.restoreTop] else [],
      hmoved, hstores, by simp⟩
  · cases h

theorem position_of_stackRegister? {r : Nat} (h : o.stackRegister? = some r) :
    c.frame.position o = some (c.frame.numLocals + r) := by
  cases o with
  | symbol ref => cases ref <;> cases h
  | select b index =>
    cases h
    rw [Frame.position, Nat.add_assoc]
  | tempAny | range =>
    cases h
    rfl
  | _ => cases h

/-- The fixed arguments are put above the callee, where it is safe to begin with the last. -/
theorem exists_passed {func : Nat} {stores : List Code}
    (h : (args.zipIdx.reverse.mapM fun x => c.store (.argument (x.2 + 1)) (narrowed x.1)) =
      .ok stores)
    (hfunc : s.callee = some func)
    (hread : ∀ (j : Nat) o slot, args[j]? = some o → c.origin? s o = some (.inr (.stack slot)) →
      slot ≤ func + 1 + j ∨ (func + args.length : Int) < slot) :
    ∃ μ : Memory,
      (∀ rest, Code.runAll (stores ++ rest) s = Code.runAll rest { s with memory := μ }) ∧
      (∀ (j : Nat) o, args[j]? = some o → c.value? s o = some (μ (.stack (func + 1 + j)))) ∧
      ∀ slot : Int, slot ≤ func ∨ (func + args.length : Int) < slot →
        μ (.stack slot) = s.memory (.stack slot) := by
  have hlast : args.zipIdx.reverse.Pairwise fun x y => y.2 < x.2 :=
    List.pairwise_reverse.mpr (pairwise_zipIdx args)
  have hmem {x : Operand × Nat} (hx : x ∈ args.zipIdx.reverse) : args[x.2]? = some x.1 :=
    List.mem_zipIdx_iff_getElem?.mp (List.mem_reverse.mp hx)
  have hlocation (j : Nat) :
      Address.location? s (.argument (j + 1)) = some (.stack (func + 1 + j)) := by
    rw [Address.location?, hfunc, Option.map_some]
    congr 2
    omega
  obtain ⟨horigin, hstores⟩ := runAll_stores (fun j => .argument (j + 1))
    (fun j => .stack (func + 1 + j)) h (fun x _ => hlocation x.2) (fun _ _ => nofun)
  refine ⟨_, hstores, fun j o hj => ?_, fun slot hslot => ?_⟩
  · have hmem' : (o, j) ∈ args.zipIdx.reverse :=
      List.mem_reverse.mpr (List.mk_mem_zipIdx_iff_getElem?.mpr hj)
    have hpair : args.zipIdx.reverse.Pairwise fun x y =>
        Location.stack (func + 1 + y.2) ≠ .stack (func + 1 + x.2) ∧
          c.origin? s y.1 ≠ some (.inr (.stack (func + 1 + x.2))) := by
      refine hlast.imp_of_mem fun {x y} hx hy hlt => ⟨?_, fun he => ?_⟩
      · intro he
        have := Location.stack.inj he
        omega
      · have hlen := (List.getElem?_eq_some_iff.mp (hmem hx)).1
        have := hread y.2 y.1 _ (hmem hy) he
        omega
    rw [foldl_puts (p := fun j => .stack (func + 1 + j)) hpair horigin s.memory (o, j) hmem']
    exact value?_eq_put_value _ (horigin _ hmem')
  · apply Put.foldl_apply_of_ne
    intro m hm he
    obtain ⟨x, hx, rfl⟩ := List.mem_map.mp hm
    have hlen := (List.getElem?_eq_some_iff.mp (hmem hx)).1
    have := Location.stack.inj he
    omega

/-- Argument `j` of a call of register `base` is in a register above it, but in none above the one
where it is expected; or it is outside of the window that ends with slot `last`. -/
def PassedFrom (c : CodeContext) (s : CodeState) (base last j : Nat) (o : Operand) : Prop :=
  (∃ r, o.stackRegister? = some r ∧ base < r ∧ r ≤ base + 1 + j) ∨
    o.stackRegister? = none ∧ ∀ slot, c.origin? s o = some (.inr (.stack slot)) →
      slot ≤ (c.frame.numLocals + base : Nat) ∨ (last : Int) < slot

/-- Such an argument is not read from where a later argument is put. -/
theorem PassedFrom.not_between {last j : Nat} {slot : Int} (h : c.PassedFrom s base last j o)
    (hslot : c.origin? s o = some (.inr (.stack slot))) :
    slot ≤ (c.frame.numLocals + base : Nat) + 1 + j ∨ (last : Int) < slot := by
  rcases h with ⟨r, hr, -, hle⟩ | ⟨-, h⟩
  · rw [origin?_of_position (position_of_stackRegister? hr)] at hslot
    have := Location.stack.inj (Sum.inr.inj (Option.some.inj hslot))
    omega
  · have := h slot hslot
    omega

/-- A call finds each of its arguments, as it was before the first move, in its register above the
callee, and the tail after the fixed ones, wherever the tail was. Nothing up to the callee has
changed. -/
theorem call_moves_arguments (base : Nat) (args : List Operand) (tail : Option Nat) (n : Nat)
    (s : CodeState) (h : c.call i = .ok code)
    (hops : i.operands = .tempAny base :: args ++ (openTail tail).toList)
    (hclosed : ∀ o ∈ args, o.isOpenRange = false)
    (hargs : ∀ j o, args[j]? = some o →
      c.PassedFrom s base (c.frame.numLocals + base + args.length + n) j o)
    (hn : s.TailHas n (tail.map (c.frame.numLocals + ·))) :
    ∃ expected s', Code.runAll code s = some (.calls (c.frame.numLocals + base) expected s') ∧
      (∀ (j : Nat) o, args[j]? = some o →
        c.value? s o = some (s'.memory (.stack (c.frame.numLocals + (base + 1 + j))))) ∧
      (∀ t ∈ tail, ∀ j < n, s'.memory (.stack (c.frame.numLocals + (base + 1 + args.length + j))) =
        s.memory (.stack (c.frame.numLocals + t + j))) ∧
      (∀ slot ≤ (c.frame.numLocals + base : Int), s'.memory (.stack slot) = s.memory (.stack slot)) ∧
      s'.top = c.frame.numLocals + (base + 1 + args.length + n) := by
  obtain ⟨expected, moved, stores, after, hmoved, hstores, rfl⟩ := call_eq h hops hclosed
  let func := c.frame.numLocals + base
  let puts := tailPuts (func + 1 + args.length) (c.frame.numLocals + tail.getD 0) n
  have htarget : ∀ m ∈ puts, ∃ k < n, m.target = .stack (func + 1 + args.length + k) :=
    fun m hm => exists_of_mem_tailPuts hm
  obtain ⟨count, hcount, hmoved⟩ := runAll_moveTail (s := { s with callee := some func }) hmoved hn
  obtain ⟨μ, hpassed, hvalue, hframe⟩ := exists_passed (s := { s with
      callee := some func, tail := count, memory := puts.foldl Put.apply s.memory }) hstores rfl
    fun j o slot hj ho => by
      have := (hargs j o hj).not_between ho
      omega
  refine ⟨expected, s.leave { s with
    callee := some func, tail := count, memory := μ,
    top := func + (args.length + 1 : Nat) + n }, ?_, fun j o hj => ?_, fun t ht j hj => ?_,
    fun slot hslot => ?_, ?_⟩
  · rw [Code.runAll_scope, List.append_assoc, List.cons_append, Code.runAll_cons rfl, hmoved, hpassed,
      Code.runAll_cons (Code.run_setTop rfl hcount)]
    rfl
  · have hread : ∀ m ∈ puts, c.origin? s o ≠ some (.inr m.target) := by
      intro m hm he
      obtain ⟨k, hk, htarget⟩ := htarget m hm
      have hlen := (List.getElem?_eq_some_iff.mp hj).1
      have := (hargs j o hj).not_between (htarget ▸ he)
      omega
    rw [← value?_foldl_apply hread]
    refine (hvalue j o hj).trans ?_
    congr 3
    omega
  · cases ht
    have hslot : (c.frame.numLocals + (base + 1 + args.length + j) : Int) =
        func + 1 + args.length + j := by omega
    rw [hslot]
    exact (hframe _ (by omega)).trans (foldl_tailPuts s.memory hj)
  · refine (hframe slot (by omega)).trans (Put.foldl_apply_of_ne (fun m hm he => ?_) _)
    obtain ⟨k, hk, htarget⟩ := htarget m hm
    have := Location.stack.inj (htarget.symm.trans he)
    omega
  · change (func + (args.length + 1 : Nat) + n : Int) = _
    omega

/-- Call the function in the first register with the second register, the integer, the local, and
all values from the third register on. -/
def forwarded : Instr :=
  ⟨.call, [.tempAny 0, .tempAny 1, .constant 0, .symbol (.localVar "x" 0 .any), .range 2 (-1)],
    [.range 0 (-1), .constant 1], 0⟩

/-- The tail moves up by two slots, and the arguments follow. -/
theorem forwarded_call_moves_arguments : ∃ code expected s', oneLocal.call forwarded = .ok code ∧
    Code.runAll code numbered = some (.calls 1 expected s') ∧
    [0, 1, 2, 3, 4, 5, 6, 7].map (fun slot => s'.memory (.stack slot)) =
      [0, 1, 2, 50, 0, 3, 4, 5].map Tagged.integer ∧ s'.top = 8 := by
  obtain ⟨code, hcode⟩ : ∃ code, oneLocal.call forwarded = .ok code := ⟨_, rfl⟩
  obtain ⟨expected, s', hrun, hvalue, htail, hframe, htop⟩ := call_moves_arguments 0
    [.tempAny 1, .constant 0, .symbol (.localVar "x" 0 .any)] (some 2) 3 numbered hcode rfl
    (by decide) (by
      intro j o hj
      rcases j with - | - | - | j
      · cases hj
        exact .inl ⟨1, rfl, by decide, by decide⟩
      · cases hj
        exact .inr ⟨rfl, nofun⟩
      · cases hj
        refine .inr ⟨rfl, fun slot hslot => .inl ?_⟩
        cases hslot
        decide
      · cases hj) rfl
  refine ⟨code, expected, s', hcode, hrun, ?_, htop⟩
  have h₀ : s'.memory (.stack 0) = .integer 0 := hframe 0 (by decide)
  have h₁ : s'.memory (.stack 1) = .integer 1 := hframe 1 (by decide)
  have h₂ : s'.memory (.stack 2) = .integer 2 := (Option.some.inj (hvalue 0 _ rfl)).symm
  have h₃ : s'.memory (.stack 3) = .integer 50 := (Option.some.inj (hvalue 1 _ rfl)).symm
  have h₄ : s'.memory (.stack 4) = .integer 0 := (Option.some.inj (hvalue 2 _ rfl)).symm
  have h₅ : s'.memory (.stack 5) = .integer 3 := htail 2 rfl 0 (by decide)
  have h₆ : s'.memory (.stack 6) = .integer 4 := htail 2 rfl 1 (by decide)
  have h₇ : s'.memory (.stack 7) = .integer 5 := htail 2 rfl 2 (by decide)
  simp only [List.map_cons, List.map_nil, h₀, h₁, h₂, h₃, h₄, h₅, h₆, h₇]

end Calls

end CodeContext

end ScriptC
