import Mathlib.Tactic.Linarith
import ScriptC.Proofs.Blocks.Discipline
import ScriptC.Proofs.Traces

/-! # Counting loops

A counting loop compares its index with its bound, runs its body and advances the index, all in
native integers of 64 bits. It runs the body for the values that the unbounded integers would give,
up to the first one that passes the bound. There it ends if that value has 64 bits; otherwise the
index wraps around to the other side of the bound, and the body is run once more.
-/

namespace ScriptC

/-- A machine before the instruction at `position` of `block`. -/
structure Runner (ρ : Type) where
  block : Nat
  position : Nat
  ints : Nat → Int64
  /-- Whatever is not a native integer. -/
  world : ρ

/-- How the world is read and changed. What a counting loop does not consist of is executed as the
runtime says, but it writes no native integer other than its targets. -/
structure Runtime (ρ : Type) where
  /-- The integer in an operand. -/
  int? : ρ → Operand → Option Int64
  isTrue : ρ → Operand → Bool
  /-- Put a truth value in a generic temporary. -/
  setBool : ρ → Nat → Bool → ρ
  effect : Instr → (Nat → Int64) × ρ → Option ((Nat → Int64) × ρ)
  isTrue_setBool : ∀ w r v, isTrue (setBool w r v) (.tempAny r) = v
  effect_spares : ∀ i x y, effect i x = some y → ∀ r, .tempInt r ∉ i.targets → y.1 r = x.1 r

/-- The registers of a counting loop and the places of its parts. -/
structure LoopHead where
  first : Operand
  last : Operand
  step : Int64
  index : Nat
  bound : Nat
  /-- The generic temporary for the outcome of the test. -/
  flag : Nat
  /-- The block and the position at which the index is set. -/
  entry : Nat × Nat
  test : Nat
  body : Nat
  done : Nat
  /-- The instructions of the body have ids from here on. -/
  lower : Nat

structure CountingLoop extends LoopHead where
  /-- The instructions of the body have ids below this. -/
  upper : Nat
  /-- Where the code of the body ends. -/
  latch : Nat × Nat

/-- The value is not past the bound. -/
def CountingLoop.Continues (L : CountingLoop) (value bound : Int) : Prop :=
  if 0 ≤ L.step then value ≤ bound else bound ≤ value

instance (L : CountingLoop) (value bound : Int) : Decidable (L.Continues value bound) :=
  inferInstanceAs (Decidable (if 0 ≤ L.step then value ≤ bound else bound ≤ value))

/-- The values of the index in unbounded integers. -/
def CountingLoop.value (L : CountingLoop) (first : Int64) (k : Nat) : Int :=
  first.toInt + k * L.step.toInt

namespace CountingLoop

variable {L : CountingLoop} {a b : Int64} {n k : Nat}

theorem value_zero : L.value a 0 = a.toInt := by simp [value]

theorem value_succ : L.value a (k + 1) = L.value a k + L.step.toInt := by
  rw [value, value, Nat.cast_succ, Int.add_mul, Int.one_mul, Int.add_assoc]

/-- If the index moves, it passes the bound at some time. -/
theorem exists_count (hd : L.step ≠ 0) (a b : Int64) :
    ∃ n : Nat, ∀ k : Nat, k < n ↔ L.Continues (L.value a k) b.toInt := by
  have hd' : L.step.toInt ≠ 0 := fun h => hd (Int64.toInt_inj.mp h)
  simp only [Continues, value, Int64.le_iff_toInt_le, Int64.toInt_zero]
  split <;> rename_i hs
  · refine ⟨((b.toInt - a.toInt) / L.step.toInt + 1).toNat, fun k => ?_⟩
    have := Int.le_ediv_iff_mul_le (a := k) (b := b.toInt - a.toInt) (c := L.step.toInt) (by omega)
    omega
  · refine ⟨((a.toInt - b.toInt) / -L.step.toInt + 1).toNat, fun k => ?_⟩
    have := Int.le_ediv_iff_mul_le (a := k) (b := a.toInt - b.toInt) (c := -L.step.toInt) (by omega)
    rw [Int.mul_neg] at this
    omega

theorem toInt_ofInt (z : Int) : (Int64.ofInt z).toInt =
    (z + 9223372036854775808) % 18446744073709551616 - 9223372036854775808 := by
  rw [Int64.toInt_ofInt, Int.bmod_def, Int64.size]
  split <;> omega

/-- A value that is not past the bound has 64 bits. -/
theorem toInt_value (h : L.Continues (L.value a k) b.toInt) :
    (Int64.ofInt (L.value a k)).toInt = L.value a k := by
  have := a.le_toInt
  have := a.toInt_lt
  have := b.le_toInt
  have := b.toInt_lt
  have hsign : if 0 ≤ L.step then 0 ≤ (k : Int) * L.step.toInt else k * L.step.toInt ≤ 0 := by
    simp only [Int64.le_iff_toInt_le, Int64.toInt_zero]
    split
    · positivity
    · exact Int.mul_nonpos_of_nonneg_of_nonpos (by omega) (by omega)
  rw [toInt_ofInt]
  unfold Continues value at *
  split at h <;> rename_i hs
  · rw [if_pos hs] at hsign
    omega
  · rw [if_neg hs] at hsign
    omega

/-- If the first value past the bound does not have 64 bits, it wraps around to the other side. -/
theorem continues_wrapped (hn : ∀ k : Nat, k < n ↔ L.Continues (L.value a k) b.toInt)
    (h : (Int64.ofInt (L.value a n)).toInt ≠ L.value a n) :
    L.Continues (Int64.ofInt (L.value a n)).toInt b.toInt := by
  have := a.le_toInt
  have := a.toInt_lt
  have := b.le_toInt
  have := b.toInt_lt
  have := L.step.le_toInt
  have := L.step.toInt_lt
  rw [toInt_ofInt] at h ⊢
  cases n with
  | zero =>
    rw [value_zero] at h
    omega
  | succ n =>
    have hlast := (hn n).mp (Nat.lt_succ_self n)
    have hpast := mt (hn (n + 1)).mpr (Nat.lt_irrefl _)
    rw [value_succ] at h hpast ⊢
    unfold Continues at *
    simp only [Int64.le_iff_toInt_le, Int64.toInt_zero] at *
    split at hlast <;> rename_i hs
    · rw [if_pos hs] at hpast ⊢
      omega
    · rw [if_neg hs] at hpast ⊢
      omega

end CountingLoop

/-- The code before the body is in the proc. -/
structure Proc.Enters (q : Proc) (L : LoopHead) : Prop where
  setIndex : q.instrAt? L.entry.1 L.entry.2 =
    some ⟨.movI, [L.first], [.tempInt L.index], L.entry.1⟩
  setBound : q.instrAt? L.entry.1 (L.entry.2 + 1) =
    some ⟨.movI, [L.last], [.tempInt L.bound], L.entry.1⟩
  enter : q.instrAt? L.entry.1 (L.entry.2 + 2) = some ⟨.br, [], [.block L.test], L.entry.1⟩
  compare : q.instrAt? L.test 0 = some ⟨.leII,
    if 0 ≤ L.step then [.tempInt L.index, .tempInt L.bound]
    else [.tempInt L.bound, .tempInt L.index], [.tempAny L.flag], L.test⟩
  branch : q.instrAt? L.test 1 =
    some ⟨.cbr, [.tempAny L.flag], [.block L.body, .block L.done], L.test⟩
  outside : ∃ i < L.lower, (q.ids L.test)[1]? = some i
  body_ne : L.body ≠ L.done
  bound_ne : L.bound ≠ L.index
  last_ne : L.last ≠ .tempInt L.index

/-- The code of a counting loop is in the proc. Its body gives the index to a local first and does
not write the registers of the loop. If control can get to the end of the body, the index is
advanced there. -/
structure Proc.Counts (q : Proc) (L : CountingLoop) : Prop extends q.Enters L.toLoopHead where
  setLocal : ∃ name reg tag, q.instrAt? L.body 0 = some ⟨moveOpcode tag .integer,
    [.tempInt L.index], [.symbol (.localVar name reg tag)], L.body⟩
  spared : ∀ (i : Nat) (instr : Instr), L.lower ≤ i → i < L.upper → q.instrs[i]? = some instr →
    .tempInt L.index ∉ instr.targets ∧ .tempInt L.bound ∉ instr.targets
  advance : (∃ k, q.constants.get? k = some (.integer L.step) ∧
      q.instrAt? L.latch.1 L.latch.2 =
        some ⟨.addII, [.tempInt L.index, .constant k], [.tempInt L.index], L.latch.1⟩ ∧
      q.instrAt? L.latch.1 (L.latch.2 + 1) = some ⟨.br, [], [.block L.test], L.latch.1⟩) ∨
    ∃ k i, L.latch.2 = k + 1 ∧ q.instrAt? L.latch.1 k = some i ∧ i.opcode.isTerminator = true

namespace Runtime

variable {ρ : Type} (R : Runtime ρ) (q : Proc) (L : CountingLoop)

/-- The integer value of an operand. -/
def read (c : Runner ρ) : Operand → Option Int64
  | .tempInt r => some (c.ints r)
  | .constant k =>
    match q.constants.get? k with
    | some (.integer n) => some n
    | _ => none
  | o => R.int? c.world o

/-- Execute an instruction. Addition of native integers wraps around. -/
def execute (c : Runner ρ) (i : Instr) : Option (Runner ρ) :=
  match i.opcode, i.operands, i.targets with
  | .ret, _, _ => none
  | .br, _, [.block b] => some { c with block := b, position := 0 }
  | .br, _, _ => none
  | .cbr, [o], [.block a, .block b] =>
    some { c with block := if R.isTrue c.world o then a else b, position := 0 }
  | .cbr, _, _ => none
  | .movI, [o], [.tempInt r] => do
    let n ← R.read q c o
    return { c with position := c.position + 1, ints := Function.update c.ints r n }
  | .addII, [x, y], [.tempInt r] => do
    let n ← R.read q c x
    let m ← R.read q c y
    return { c with position := c.position + 1, ints := Function.update c.ints r (n + m) }
  | .leII, [x, y], [.tempAny r] => do
    let n ← R.read q c x
    let m ← R.read q c y
    return { c with position := c.position + 1, world := R.setBool c.world r (decide (n ≤ m)) }
  | _, _, _ => do
    let (ints, world) ← R.effect i (c.ints, c.world)
    return ⟨c.block, c.position + 1, ints, world⟩

/-- Take a step. When the test of the loop leads to its body, the index is noted. -/
def step (c : Runner ρ) : Option (Traced Int (Runner ρ)) := do
  let c' ← R.execute q c (← q.instrAt? c.block c.position)
  return (c', if c.block = L.test ∧ c.position = 1 ∧ c'.block = L.body then
    [(c.ints L.index).toInt] else [])

/-- Take a step by an instruction of the body. -/
def stepInBody (c : Runner ρ) : Option (Traced Int (Runner ρ)) :=
  if (q.ids c.block)[c.position]?.any (fun i => L.lower ≤ i && i < L.upper) then R.step q L c
  else none

/-- Whenever the run from `c` enters the body, the body brings it to its end. -/
def FallsThrough (c : Runner ρ) : Prop :=
  ∀ trace c', Reaches (R.step q L) c trace c' → c'.block = L.body → c'.position = 0 →
    ∃ trace' c'', Reaches (R.stepInBody q L) c' trace' c'' ∧ (c''.block, c''.position) = L.latch

/-- From `c` the body is run for the first `n` values from `a` on, in order. If the next value has
64 bits, the loop ends there, otherwise the body is run for what that wraps around to. -/
def RunsTimes (c : Runner ρ) (a : Int64) (n : Nat) : Prop :=
  if (Int64.ofInt (L.value a n)).toInt = L.value a n then
    ∃ c', Reaches (R.step q L) c ((List.range n).map (L.value a)) c' ∧
      c'.block = L.done ∧ c'.position = 0
  else ∃ c', Reaches (R.step q L) c
      ((List.range n).map (L.value a) ++ [(Int64.ofInt (L.value a n)).toInt]) c' ∧
    c'.block = L.body ∧ c'.position = 0

/-- From `c` the body is run for the values from `a` on that are not past `b`. -/
def Runs (c : Runner ρ) (a b : Int64) : Prop :=
  ∃ n, (∀ k : Nat, k < n ↔ L.Continues (L.value a k) b.toInt) ∧ R.RunsTimes q L c a n

section Steps

variable {R : Runtime ρ} {q : Proc} {L : CountingLoop} {c c' c'' : Runner ρ} {i : Instr} {r : Nat}
  {trace rest : List Int}

theorem execute_spares (h : R.execute q c i = some c') (hr : .tempInt r ∉ i.targets) :
    c'.ints r = c.ints r := by
  have hne {x n} (ht : i.targets = [.tempInt x]) : Function.update c.ints x n r = c.ints r :=
    Function.update_of_ne (fun he => hr (by simp [ht, he])) _ _
  unfold execute at h
  split at h
  all_goals simp only [Option.bind_eq_bind, Option.bind_eq_some_iff, Option.pure_def,
    Option.some.injEq, reduceCtorEq] at h
  case h_2 | h_4 => rw [← h]
  case h_6 =>
    obtain ⟨n, -, rfl⟩ := h
    exact hne ‹_›
  case h_7 =>
    obtain ⟨n, -, m, -, rfl⟩ := h
    exact hne ‹_›
  case h_8 =>
    obtain ⟨n, -, m, -, rfl⟩ := h
    rfl
  case h_9 =>
    obtain ⟨x, hx, rfl⟩ := h
    exact R.effect_spares _ _ _ hx r hr

/-- What is not a terminator goes on to the next instruction. -/
theorem execute_goes (h : R.execute q c i = some c') : c'.position = 0 ∨
    c'.block = c.block ∧ c'.position = c.position + 1 ∧ i.opcode.isTerminator = false := by
  unfold execute at h
  split at h
  all_goals simp only [Option.bind_eq_bind, Option.bind_eq_some_iff, Option.pure_def,
    Option.some.injEq, reduceCtorEq] at h
  case h_2 | h_4 => exact .inl (by rw [← h])
  case h_6 ho _ _ =>
    obtain ⟨n, -, rfl⟩ := h
    exact .inr ⟨rfl, rfl, by rw [ho]; rfl⟩
  case h_7 ho _ _ | h_8 ho _ _ =>
    obtain ⟨n, -, m, -, rfl⟩ := h
    exact .inr ⟨rfl, rfl, by rw [ho]; rfl⟩
  case h_9 =>
    obtain ⟨x, hx, rfl⟩ := h
    refine .inr ⟨rfl, rfl, ?_⟩
    unfold Opcode.isTerminator
    grind

theorem Runs.of_count {a b : Int64} {n : Nat} (h : R.Runs q L c a b)
    (hn : ∀ k : Nat, k < n ↔ L.Continues (L.value a k) b.toInt) : R.RunsTimes q L c a n := by
  obtain ⟨m, hm, h⟩ := h
  have hlt := (hn m).trans (hm m).symm
  have hlt' := (hn n).trans (hm n).symm
  obtain rfl : m = n := by omega
  exact h

theorem FallsThrough.of_reaches (hf : R.FallsThrough q L c) (h : Reaches (R.step q L) c trace c') :
    R.FallsThrough q L c' := fun _ _ h' => hf _ _ (h.trans h')

variable (hq : q.Counts L)

include hq

/-- Only the test of the loop is noted. -/
theorem step_eq (hi : q.instrAt? c.block c.position = some i) (ho : i.opcode ≠ .cbr)
    (he : R.execute q c i = some c') : R.step q L c = some (c', []) := by
  have hplace : ¬ (c.block = L.test ∧ c.position = 1 ∧ c'.block = L.body) := by
    rintro ⟨hb, hp, -⟩
    rw [hb, hp, hq.branch] at hi
    exact ho (by rw [← Option.some.inj hi])
  simp only [step, hi, he, Option.bind_eq_bind, Option.bind_some, if_neg hplace, Option.pure_def]

/-- Until it ends, the body notes nothing and leaves the registers of the loop as they were. It does
not end after a terminator. -/
theorem reaches_latch (h : Reaches (R.stepInBody q L) c trace c') (hc : c.position = 0)
    (hc' : (c'.block, c'.position) = L.latch) :
    trace = [] ∧ c'.ints L.index = c.ints L.index ∧ c'.ints L.bound = c.ints L.bound ∧
      ∃ k, q.constants.get? k = some (.integer L.step) ∧
        q.instrAt? L.latch.1 L.latch.2 =
          some ⟨.addII, [.tempInt L.index, .constant k], [.tempInt L.index], L.latch.1⟩ ∧
        q.instrAt? L.latch.1 (L.latch.2 + 1) = some ⟨.br, [], [.block L.test], L.latch.1⟩ := by
  have hinv := h.preserves (I := fun m trace => trace = [] ∧ m.ints L.index = c.ints L.index ∧
    m.ints L.bound = c.ints L.bound ∧ ∀ k i, m.position = k + 1 → q.instrAt? m.block k = some i →
      i.opcode.isTerminator = false) ?_ ⟨rfl, rfl, rfl, by omega⟩
  · obtain ⟨htrace, hindex, hbound, hend⟩ := hinv
    refine ⟨htrace, hindex, hbound, hq.advance.resolve_right ?_⟩
    rintro ⟨k, i, hk, hi, ht⟩
    rw [← hc'] at hk hi
    rw [hend k i hk hi] at ht
    cases ht
  · rintro m _ m' rest ⟨rfl, hindex, hbound, -⟩ hs
    unfold stepInBody at hs
    split at hs
    · rename_i hin
      obtain ⟨id, hid, hrange⟩ := (Option.any_eq_true _ _).mp hin
      obtain ⟨hlo, hhi⟩ : L.lower ≤ id ∧ id < L.upper := by simpa using hrange
      simp only [step, Option.bind_eq_bind, Option.bind_eq_some_iff, Option.pure_def,
        Option.some.injEq, Prod.mk.injEq] at hs
      obtain ⟨i, hi, m'', he, rfl, rfl⟩ := hs
      have hinstr : q.instrs[id]? = some i := by
        simpa [Proc.instrAt?, hid] using hi
      obtain ⟨hne, hne'⟩ := hq.spared id i hlo hhi hinstr
      have hplace : ¬ (m.block = L.test ∧ m.position = 1 ∧ m''.block = L.body) := by
        rintro ⟨hb, hp, -⟩
        rw [hb, hp] at hid
        obtain ⟨j, hj, hid'⟩ := hq.outside
        cases hid.symm.trans hid'
        omega
      refine ⟨if_neg hplace, (execute_spares he hne).trans hindex,
        (execute_spares he hne').trans hbound, fun k j hk hj => ?_⟩
      rcases execute_goes he with h0 | ⟨hb, hp, ht⟩
      · omega
      · obtain rfl : k = m.position := by omega
        rw [hb, hi] at hj
        exact Option.some.inj hj ▸ ht
    · cases hs

/-- The test leads to the body as long as the index is not past the bound. -/
theorem reaches_test (hb : c.block = L.test) (hp : c.position = 0) :
    ∃ w, if L.Continues (c.ints L.index).toInt (c.ints L.bound).toInt then
        Reaches (R.step q L) c [(c.ints L.index).toInt] ⟨L.body, 0, c.ints, w⟩
      else Reaches (R.step q L) c [] ⟨L.done, 0, c.ints, w⟩ := by
  obtain ⟨v, hv, hcompare⟩ : ∃ v : Bool,
      (v = true ↔ L.Continues (c.ints L.index).toInt (c.ints L.bound).toInt) ∧
      R.step q L c = some (⟨L.test, 1, c.ints, R.setBool c.world L.flag v⟩, []) := by
    unfold CountingLoop.Continues
    have hi := hq.compare
    rw [← hb, ← hp] at hi
    split at hi <;> rename_i hd
    all_goals
      refine ⟨_, ?_, step_eq hq hi (by simp) (by simp [execute, read, hb, hp]; rfl)⟩
      simp [hd, Int64.le_iff_toInt_le]
  refine ⟨R.setBool c.world L.flag v, ?_⟩
  have hbranch (b : Nat) (hb : b = if v then L.body else L.done) :
      Reaches (R.step q L) c ([] ++ if v then [(c.ints L.index).toInt] else [])
        ⟨b, 0, c.ints, R.setBool c.world L.flag v⟩ := by
    refine (Reaches.of_step hcompare).trans (.of_step ?_)
    cases v <;> simp [step, hq.branch, execute, R.isTrue_setBool, hb, hq.body_ne.symm]
  split <;> rename_i h
  · simpa [hv.mpr h] using hbranch L.body (by simp [hv.mpr h])
  · have hv : v = false := Bool.eq_false_iff.mpr (mt hv.mp h)
    simpa [hv] using hbranch L.done (by simp [hv])

/-- Once around the loop. -/
theorem reaches_lap (hf : R.FallsThrough q L c) (hb : c.block = L.test) (hp : c.position = 0)
    (h : L.Continues (c.ints L.index).toInt (c.ints L.bound).toInt) :
    ∃ c', Reaches (R.step q L) c [(c.ints L.index).toInt] c' ∧ c'.block = L.test ∧
      c'.position = 0 ∧ c'.ints L.index = c.ints L.index + L.step ∧
      c'.ints L.bound = c.ints L.bound := by
  obtain ⟨w, htest⟩ := reaches_test (R := R) hq hb hp
  rw [if_pos h] at htest
  obtain ⟨trace, m, hbody, hlatch⟩ := hf _ _ htest rfl rfl
  obtain ⟨rfl, hindex, hbound, k, hk, hadd, hbr⟩ := reaches_latch hq hbody rfl hlatch
  have hbody : Reaches (R.step q L) _ [] m := hbody.mono fun c c' trace hs => by
    unfold stepInBody at hs
    split at hs
    · exact hs
    · cases hs
  rw [← hlatch] at hadd hbr
  let m' : Runner ρ := { m with
    position := m.position + 1
    ints := Function.update m.ints L.index (m.ints L.index + L.step) }
  have hnext : R.step q L m = some (m', []) :=
    step_eq hq hadd (by simp) (by simp [execute, read, hk, m'])
  have hback : R.step q L m' = some ({ m' with block := L.test, position := 0 }, []) :=
    step_eq hq hbr (by simp) (by simp [execute])
  refine ⟨_, (htest.trans (hbody.trans ((Reaches.of_step hnext).trans (.of_step hback)))), rfl, rfl,
    ?_, ?_⟩
  · simp [m', hindex]
  · simp [m', Function.update_of_ne hq.bound_ne, hbound]

variable {a b : Int64}

theorem reaches_laps (hf : R.FallsThrough q L c) (hb : c.block = L.test) (hp : c.position = 0)
    (ha : c.ints L.index = a) (n : Nat)
    (hn : ∀ k < n, L.Continues (L.value a k) (c.ints L.bound).toInt) :
    ∃ c', Reaches (R.step q L) c ((List.range n).map (L.value a)) c' ∧ c'.block = L.test ∧
      c'.position = 0 ∧ c'.ints L.index = .ofInt (L.value a n) ∧
      c'.ints L.bound = c.ints L.bound := by
  induction n with
  | zero => exact ⟨c, .refl _ _, hb, hp, by simp [CountingLoop.value_zero, ha], rfl⟩
  | succ n ih =>
    obtain ⟨m, hm, hb, hp, hindex, hbound⟩ := ih fun k hk => hn k (Nat.lt_succ_of_lt hk)
    have hlast := hn n (Nat.lt_succ_self n)
    have hfits := CountingLoop.toInt_value hlast
    rw [← hbound, ← hfits, ← hindex] at hlast
    obtain ⟨c', hc, hb', hp', hindex', hbound'⟩ := reaches_lap hq (hf.of_reaches hm) hb hp hlast
    refine ⟨c', ?_, hb', hp', ?_, hbound'.trans hbound⟩
    · rw [List.range_succ, List.map_append, List.map_singleton]
      simpa only [hindex, hfits] using hm.trans hc
    · rw [hindex', hindex, CountingLoop.value_succ, Int64.ofInt_add, Int64.ofInt_toInt]

/-- The entry sets the index and the bound and leads to the test. -/
theorem reaches_entry (hc : (c.block, c.position) = L.entry) (ha : R.read q c L.first = some a)
    (hb : R.read q c L.last = some b) :
    ∃ c', Reaches (R.step q L) c [] c' ∧ c'.block = L.test ∧ c'.position = 0 ∧
      c'.ints L.index = a ∧ c'.ints L.bound = b := by
  let m : Runner ρ := { c with
    position := c.position + 1
    ints := Function.update c.ints L.index a }
  let m' : Runner ρ := { m with
    position := c.position + 2
    ints := Function.update m.ints L.bound b }
  have hlast : R.read q m L.last = some b := by
    rw [← hb]
    cases hl : L.last with
    | tempInt r =>
      have hr : r ≠ L.index := fun he => hq.last_ne (by rw [hl, he])
      simp [read, m, Function.update_of_ne hr]
    | _ => rfl
  have hfirst := hq.setIndex
  have hsecond := hq.setBound
  have henter := hq.enter
  rw [← hc] at hfirst hsecond henter
  have h₁ : R.step q L c = some (m, []) := step_eq hq hfirst (by simp) (by simp [execute, ha, m])
  have h₂ : R.step q L m = some (m', []) :=
    step_eq hq hsecond (by simp) (by simp [execute, hlast, m', m])
  have h₃ : R.step q L m' = some ({ m' with block := L.test, position := 0 }, []) :=
    step_eq hq henter (by simp) (by simp [execute])
  refine ⟨_, ((Reaches.of_step h₁).trans (.of_step h₂)).trans (.of_step h₃), rfl, rfl, ?_, ?_⟩
  · simp [m', m, Function.update_of_ne hq.bound_ne.symm]
  · simp [m']

theorem FallsThrough.runs (hf : R.FallsThrough q L c) (hd : L.step ≠ 0)
    (hc : (c.block, c.position) = L.entry) (ha : R.read q c L.first = some a)
    (hb : R.read q c L.last = some b) : R.Runs q L c a b := by
  obtain ⟨n, hn⟩ := L.exists_count hd a b
  obtain ⟨m, hstart, hblock, hposition, hindex, rfl⟩ := reaches_entry hq hc ha hb
  obtain ⟨m', hlaps, hblock, hposition, hindex, hbound⟩ := reaches_laps hq (hf.of_reaches hstart)
    hblock hposition hindex n fun k => (hn k).mp
  obtain ⟨w, htest⟩ := reaches_test (R := R) hq hblock hposition
  rw [hindex, hbound] at htest
  refine ⟨n, hn, ?_⟩
  unfold RunsTimes
  split <;> rename_i hfits
  · rw [hfits, if_neg (mt (hn n).mpr (Nat.lt_irrefl n))] at htest
    exact ⟨_, by simpa using (hstart.trans hlaps).trans htest, rfl, rfl⟩
  · rw [if_pos (CountingLoop.continues_wrapped hn hfits)] at htest
    exact ⟨_, by simpa using (hstart.trans hlaps).trans htest, rfl, rfl⟩

end Steps

end Runtime

end ScriptC
