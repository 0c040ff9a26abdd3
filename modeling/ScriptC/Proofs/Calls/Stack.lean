import ScriptC.Proofs.Calls.Usage

/-! # Generic temporaries as a stack

As long as registers are returned in the reverse of the order in which they were taken, the pool is
a stack: what is live lies below its height, and the next register is the height. A call then finds
its callee below everything that is passed to it and above all else.
-/

namespace ScriptC

namespace Registers

variable {k r : Nat} {p : Registers}

/-- The registers below `k` are live, and those from `k` on are handed out in order. -/
def IsStack (k : Nat) (p : Registers) : Prop := ∃ n, p = ⟨k + n, List.range' k n⟩

theorem isStack_empty : IsStack 0 {} := ⟨0, rfl⟩

theorem IsStack.alloc (h : p.IsStack k) : p.alloc.2 = k ∧ p.alloc.1.IsStack (k + 1) := by
  obtain ⟨n, rfl⟩ := h
  cases n with
  | zero => exact ⟨rfl, 0, rfl⟩
  | succ n =>
    refine ⟨rfl, n, ?_⟩
    simp [Registers.alloc, List.range'_succ]
    omega

theorem IsStack.push (h : p.IsStack (k + 1)) : IsStack k { p with free := k :: p.free } := by
  obtain ⟨n, rfl⟩ := h
  exact ⟨n + 1, by simp [List.range'_succ]; omega⟩

theorem IsStack.lt_of_isLive (h : p.IsStack k) (hr : p.IsLive r) : r < k := by
  obtain ⟨n, rfl⟩ := h
  obtain ⟨hn, hf⟩ := hr
  simp only [List.mem_range'_1, not_and, Nat.not_lt] at hf
  by_contra hk
  have := hf (by omega)
  simp only at hn
  omega

end Registers

/-- The registers from `k` up to `m` in the order in which they were taken. -/
inductive Consecutive : Nat → List (Option Nat) → Nat → Prop
  | nil (k : Nat) : Consecutive k [] k
  | skip {k m : Nat} {rs : List (Option Nat)} (h : Consecutive k rs m) : Consecutive k (none :: rs) m
  | take {k m : Nat} {rs : List (Option Nat)} (h : Consecutive (k + 1) rs m) :
      Consecutive k (some k :: rs) m

namespace Consecutive

variable {k m n q : Nat} {rs rs' : List (Option Nat)}

theorem append (h : Consecutive k rs m) (h' : Consecutive m rs' n) : Consecutive k (rs ++ rs') n := by
  induction h with
  | nil => exact h'
  | skip _ ih => exact .skip (ih h')
  | take _ ih => exact .take (ih h')

theorem exists_of_append (h : Consecutive k (rs ++ rs') n) :
    ∃ m, Consecutive k rs m ∧ Consecutive m rs' n := by
  induction rs generalizing k with
  | nil => exact ⟨k, .nil k, h⟩
  | cons r rs ih =>
    cases h with
    | skip h =>
      obtain ⟨m, h₁, h₂⟩ := ih h
      exact ⟨m, .skip h₁, h₂⟩
    | take h =>
      obtain ⟨m, h₁, h₂⟩ := ih h
      exact ⟨m, .take h₁, h₂⟩

theorem range' (k n : Nat) : Consecutive k ((List.range' k n).map some) (k + n) := by
  induction n generalizing k with
  | zero => exact .nil k
  | succ n ih =>
    rw [List.range'_succ, List.map_cons]
    exact .take (by simpa [Nat.add_assoc, Nat.add_comm 1] using ih (k + 1))

theorem mem_filterMap (h : Consecutive k rs m) (hk : k ≤ q) (hq : q < m) : q ∈ rs.filterMap id := by
  induction h with
  | nil => omega
  | skip _ ih => simpa using ih hk hq
  | @take k m rs _ ih =>
    rcases Nat.eq_or_lt_of_le hk with rfl | hk
    · simp
    · simpa using Or.inr (ih hk hq)

theorem eq_of_none (h : Consecutive k [none] m) : m = k := by
  cases h with
  | skip h =>
    cases h
    rfl

theorem eq_of_some (h : Consecutive k [some q] m) : q = k ∧ m = k + 1 := by
  cases h with
  | take h =>
    cases h
    exact ⟨rfl, rfl⟩

end Consecutive

namespace Usage

open Registers

variable {α β : Type} {k m n : Nat} {p : Registers} {P : CallView → Prop}

/-- Played on `p`, the use ends in `Q`, and all its calls satisfy `P`. -/
def Clears (P : CallView → Prop) (u : Usage α) (p : Registers) (Q : α → Registers → Prop) : Prop :=
  (∀ c ∈ (u p).2.2, P c) ∧ Q (u p).1 (u p).2.1

section Rules

variable {u : Usage α} {f : α → Usage β} {Q Q' : α → Registers → Prop}
  {R : β → Registers → Prop}

theorem Clears.mono (h : Clears P u p Q) (hQ : ∀ a p', Q a p' → Q' a p') : Clears P u p Q' :=
  ⟨h.1, hQ _ _ h.2⟩

theorem Clears.bind (h : Clears P u p Q) (hf : ∀ a p', Q a p' → Clears P (f a) p' R) :
    Clears P (u >>= f) p R := by
  have hf' := hf _ _ h.2
  refine ⟨fun c hc => ?_, hf'.2⟩
  rcases List.mem_append.mp hc with hc | hc
  · exact h.1 c hc
  · exact hf'.1 c hc

theorem clears_pure {a : α} (h : Q a p) : Clears P (pure a) p Q := ⟨by simp, h⟩

end Rules

section Registers

theorem clears_hold (hp : p.IsStack k) :
    Clears P hold p fun r p' => r = k ∧ p'.IsStack (k + 1) :=
  ⟨by simp [hold], hp.alloc⟩

theorem clears_drop {r : Option Nat} (h : Consecutive k [r] m) (hp : p.IsStack m) :
    Clears P (drop r) p fun _ p' => p'.IsStack k := by
  cases h with
  | skip h =>
    cases h
    exact clears_pure hp
  | take h =>
    cases h
    exact ⟨by simp [drop], hp.push⟩

/-- What was taken is returned, the last first. -/
theorem clears_dropAll {rs : List (Option Nat)} (h : Consecutive k rs m) (hp : p.IsStack m) :
    Clears P (dropAll rs) p fun _ p' => p'.IsStack k := by
  have hcons : ∀ r rs, dropAll (r :: rs) = (do dropAll rs; drop r) := by
    intro r rs
    simp [dropAll, each_append, each_singleton]
  induction h with
  | nil => exact clears_pure hp
  | skip h ih =>
    rw [hcons]
    exact (ih hp).bind fun _ p' hp' => clears_drop (.skip (.nil _)) hp'
  | take h ih =>
    rw [hcons]
    exact (ih hp).bind fun _ p' hp' => clears_drop (.take (.nil _)) hp'

/-- The register on top can be claimed. -/
theorem clears_claim (hp : p.IsStack k) : Clears P (claim k) p fun _ p' => p'.IsStack (k + 1) := by
  obtain ⟨n, rfl⟩ := hp
  refine ⟨by simp [claim], ?_⟩
  cases n with
  | zero => exact ⟨0, by simp [claim]⟩
  | succ n => exact ⟨n, by simp [claim, List.range'_succ]; omega⟩

end Registers

/-- The value takes the register on top or none. -/
def Piles (P : CallView → Prop) (u : Usage (Option Nat)) : Prop :=
  ∀ ⦃k : Nat⦄ ⦃p : Registers⦄, p.IsStack k →
    Clears P u p fun r p' => ∃ m, Consecutive k [r] m ∧ p'.IsStack m

/-- The value takes the register on top. -/
def Tops (P : CallView → Prop) (u : Usage (Option Nat)) : Prop :=
  ∀ ⦃k : Nat⦄ ⦃p : Registers⦄, p.IsStack k →
    Clears P u p fun r p' => r = some k ∧ p'.IsStack (k + 1)

/-- All registers are returned. -/
def Balanced (P : CallView → Prop) (u : Usage Unit) : Prop :=
  ∀ ⦃k : Nat⦄ ⦃p : Registers⦄, p.IsStack k → Clears P u p fun _ p' => p'.IsStack k

section Expressions

variable {u v : Usage (Option Nat)} {us : List (Usage (Option Nat))}

theorem piles_none : Piles P (pure none) := fun k _ hp => clears_pure ⟨k, .skip (.nil k), hp⟩

theorem piles_holdAs (kind : TempKind) : Piles P (holdAs kind) := by
  cases kind with
  | int => exact piles_none
  | float => exact piles_none
  | any =>
    refine fun k p hp => (clears_hold hp).bind fun r p' ⟨hr, hp'⟩ => ?_
    subst hr
    exact clears_pure ⟨r + 1, .take (.nil _), hp'⟩

theorem piles_index (kind : TempKind) (hu : Piles P u) (hv : Piles P v) : Piles P (index u v kind) :=
  fun _ _ hp => (hu hp).bind fun _ _ ⟨_, h₁, hp₁⟩ => (hv hp₁).bind fun _ _ ⟨_, h₂, hp₂⟩ =>
    (clears_drop h₂ hp₂).bind fun _ _ hp₃ => (clears_drop h₁ hp₃).bind fun _ _ hp₄ =>
      piles_holdAs kind hp₄

theorem piles_unary (kind : TempKind) (hu : Piles P u) : Piles P (unary u kind) :=
  fun _ _ hp => (hu hp).bind fun _ _ ⟨_, h₁, hp₁⟩ => (clears_drop h₁ hp₁).bind fun _ _ hp₂ =>
    piles_holdAs kind hp₂

theorem piles_logical (hu : Piles P u) (hv : Piles P v) : Piles P (logical u v) := by
  refine fun k _ hp => (hu hp).bind fun _ _ ⟨_, h₁, hp₁⟩ => (clears_drop h₁ hp₁).bind
    fun _ _ hp₂ => (clears_hold hp₂).bind fun r _ ⟨hr, hp₃⟩ => (hv hp₃).bind
    fun _ _ ⟨_, h₄, hp₄⟩ => (clears_drop h₄ hp₄).bind fun _ _ hp₅ => ?_
  subst hr
  exact clears_pure ⟨r + 1, .take (.nil _), hp₅⟩

theorem piles_arithmetic (kind : TempKind) (negate : Bool) (hu : Piles P u) (hv : Piles P v) :
    Piles P (arithmetic u v kind negate) := by
  refine fun _ _ hp => (hu hp).bind fun _ _ ⟨_, h₁, hp₁⟩ => (hv hp₁).bind
    fun _ _ ⟨_, h₂, hp₂⟩ => (clears_drop h₂ hp₂).bind fun _ _ hp₃ => (clears_drop h₁ hp₃).bind
    fun _ _ hp₄ => (piles_holdAs kind hp₄).bind fun _ _ ⟨m, h₅, hp₅⟩ => ?_
  split
  · exact (clears_drop h₅ hp₅).bind fun _ _ hp₆ => piles_holdAs .any hp₆
  · exact clears_pure ⟨m, h₅, hp₅⟩

theorem clears_collect (h : ∀ u ∈ us, Piles P u) (hp : p.IsStack k) :
    Clears P (collect us) p fun rs p' => ∃ m, Consecutive k rs m ∧ p'.IsStack m := by
  induction us generalizing k p with
  | nil => exact clears_pure ⟨k, .nil k, hp⟩
  | cons u us ih =>
    obtain ⟨hu, hus⟩ := List.forall_mem_cons.mp h
    exact (hu hp).bind fun _ _ ⟨_, h₁, hp₁⟩ => (ih hus hp₁).bind fun _ _ ⟨m, h₂, hp₂⟩ =>
      clears_pure ⟨m, h₁.append h₂, hp₂⟩

/-- The callee lies right below what is held for the call. -/
theorem clears_callWith (hP : ∀ c : CallView, c.Clear → P c) {held : List (Option Nat)}
    (hh : Consecutive (k + 1) held m) (h : ∀ u ∈ us, Piles P u) (hp : p.IsStack m) :
    Clears P (callWith k held us) p fun r p' => r = some k ∧ p'.IsStack (k + 1) := by
  refine (clears_collect h hp).bind fun args p₁ ⟨n, h₁, hp₁⟩ => ?_
  have hall := hh.append h₁
  have hemit : Clears P (emitCall k ((held ++ args).filterMap id)) p₁ fun _ p' => p' = p₁ := by
    refine ⟨fun c hc => ?_, rfl⟩
    obtain rfl := List.mem_singleton.mp hc
    refine hP _ ⟨k, rfl, fun q hq hne hpassed => ?_⟩
    by_contra hlt
    exact hpassed (hall.mem_filterMap (by omega) (hp₁.lt_of_isLive hq))
  refine hemit.bind fun _ p₂ hp₂ => ?_
  subst hp₂
  exact (clears_dropAll hall hp₁).bind fun _ _ hp₃ => clears_pure ⟨rfl, hp₃⟩

theorem Tops.piles (h : Tops P u) : Piles P u := by
  refine fun k p hp => (h hp).mono ?_
  rintro _ p' ⟨rfl, hp'⟩
  exact ⟨k + 1, .take (.nil _), hp'⟩

theorem tops_call (hP : ∀ c : CallView, c.Clear → P c) (hu : Piles P u)
    (h : ∀ u ∈ us, Piles P u) : Tops P (call u us) := by
  intro k p hp
  have hcallee : Clears P (callee u) p fun r p' => r = k ∧ p'.IsStack (k + 1) :=
    (hu hp).bind fun _ _ ⟨_, h₁, hp₁⟩ => (clears_drop h₁ hp₁).bind fun _ _ hp₂ => clears_hold hp₂
  refine hcallee.bind fun base p₁ ⟨hb, hp₁⟩ => ?_
  subst hb
  exact clears_callWith hP (.nil _) h hp₁

theorem tops_methodCall (hP : ∀ c : CallView, c.Clear → P c) (hu : Piles P u)
    (h : ∀ u ∈ us, Piles P u) : Tops P (methodCall u us) := by
  intro k p hp
  have hmember : Clears P (member u) p fun r p' => r = (k, k + 1) ∧ p'.IsStack (k + 2) := by
    refine (hu hp).bind fun _ _ ⟨_, h₁, hp₁⟩ => (clears_drop h₁ hp₁).bind fun _ _ hp₂ =>
      (clears_hold hp₂).bind fun _ _ ⟨hb, hp₃⟩ => (clears_hold hp₃).bind fun _ _ ⟨hr, hp₄⟩ => ?_
    exact clears_pure ⟨by rw [hb, hr], hp₄⟩
  refine hmember.bind fun r p₁ ⟨hr, hp₁⟩ => ?_
  subst hr
  exact clears_callWith hP (.take (.nil _)) h hp₁

/-- The pool of a function starts empty. -/
theorem balanced_nested {body : Usage Unit} (h : Balanced P body ∨ ∀ c, P c) :
    Balanced P (nested body) := by
  refine fun _ _ hp => ⟨?_, hp⟩
  rcases h with h | h
  · exact (h isStack_empty).1
  · exact fun c _ => h c

theorem piles_closure {child : Usage Unit} (h : Balanced P child) : Piles P (closure child) :=
  fun _ _ hp => (h hp).bind fun _ _ hp₁ => piles_holdAs .any hp₁

theorem balanced_item (hu : Piles P u) (hv : Piles P v) : Balanced P (item u v) :=
  fun _ _ hp => (hu hp).bind fun _ _ ⟨_, h₁, hp₁⟩ => (hv hp₁).bind fun _ _ ⟨_, h₂, hp₂⟩ =>
    (clears_drop h₂ hp₂).bind fun _ _ hp₃ => clears_drop h₁ hp₃

theorem balanced_each {us : List (Usage Unit)} (h : ∀ u ∈ us, Balanced P u) :
    Balanced P (each us) := by
  induction us with
  | nil => exact fun _ _ hp => clears_pure hp
  | cons u us ih =>
    obtain ⟨hu, hus⟩ := List.forall_mem_cons.mp h
    exact fun _ _ hp => (hu hp).bind fun _ _ hp₁ => ih hus hp₁

theorem piles_construct {items : List (Usage Unit)} (h : ∀ u ∈ items, Balanced P u) :
    Piles P (construct items) := fun _ _ hp =>
  (piles_holdAs .any hp).bind fun _ _ ⟨m, h₁, hp₁⟩ => (balanced_each h hp₁).bind fun _ _ hp₂ =>
    clears_pure ⟨m, h₁, hp₂⟩

end Expressions

section Statements

variable {u v : Usage (Option Nat)} {body : Usage Unit}

theorem clears_claims (n : Nat) (hp : p.IsStack k) :
    Clears P (each ((List.range' k n).map claim)) p fun _ p' => p'.IsStack (k + n) := by
  induction n generalizing k p with
  | zero => exact clears_pure hp
  | succ n ih =>
    have hk : k + (n + 1) = k + 1 + n := by omega
    rw [List.range'_succ, List.map_cons, each, hk]
    exact (clears_claim hp).bind fun _ _ hp₁ => ih hp₁

/-- A value whose call is known takes the register on top. -/
def Value.Piles (P : CallView → Prop) (v : Value) : Prop :=
  Usage.Piles P v.use ∧ (v.isCall = true → Tops P v.use)

theorem clears_value {wanted : Nat} {isLast : Bool} {v : Value} (h : v.Piles P) (hp : p.IsStack k) :
    Clears P (do
      let register ← v.use
      contribution wanted isLast v register) p
      fun l p' => ∃ m, Consecutive k l.1 m ∧ p'.IsStack m := by
  unfold contribution
  by_cases hc : v.isCall = true ∧ isLast = true ∧ 1 < wanted
  · refine (h.2 hc.1 hp).bind fun r p₁ ⟨hr, hp₁⟩ => ?_
    subst hr
    rw [if_neg (by omega), if_pos hc]
    exact (clears_claims _ hp₁).bind fun _ _ hp₂ => clears_pure ⟨_, .take (.range' _ _), hp₂⟩
  · refine (h.1 hp).bind fun r p₁ ⟨m, h₁, hp₁⟩ => ?_
    rw [if_neg hc]
    split
    · exact clears_pure ⟨m, h₁, hp₁⟩
    · exact clears_pure ⟨m, h₁, hp₁⟩

theorem clears_values {wanted : Nat} {vs : List Value} (h : ∀ v ∈ vs, v.Piles P)
    (hp : p.IsStack k) :
    Clears P (values wanted vs) p fun l p' => ∃ m, Consecutive k l.1 m ∧ p'.IsStack m := by
  induction vs generalizing k p wanted with
  | nil => exact clears_pure ⟨k, .nil k, hp⟩
  | cons v vs ih =>
    obtain ⟨hv, hvs⟩ := List.forall_mem_cons.mp h
    rw [values, ← bind_assoc]
    exact (clears_value hv hp).bind fun _ _ ⟨_, h₁, hp₁⟩ => (ih hvs hp₁).bind
      fun _ _ ⟨m, h₂, hp₂⟩ => clears_pure ⟨m, h₁.append h₂, hp₂⟩

theorem balanced_declare (count : Nat) {vs : List Value} (h : ∀ v ∈ vs, v.Piles P) :
    Balanced P (declare count vs) := fun _ _ hp =>
  (clears_values h hp).bind fun _ _ ⟨_, h₁, hp₁⟩ => clears_dropAll h₁ hp₁

theorem clears_copies (kinds : List (Option TempKind)) (hp : p.IsStack k) :
    Clears P (copies kinds) p fun rs p' => ∃ m, Consecutive k rs m ∧ p'.IsStack m := by
  induction kinds generalizing k p with
  | nil => exact clears_pure ⟨k, .nil k, hp⟩
  | cons kind kinds ih =>
    cases kind with
    | none => exact ih hp
    | some kind =>
      exact (piles_holdAs kind hp).bind fun _ _ ⟨_, h₁, hp₁⟩ => (ih hp₁).bind
        fun _ _ ⟨m, h₂, hp₂⟩ => clears_pure ⟨m, h₁.append h₂, hp₂⟩

/-- A target takes registers from the top on. -/
def PilesAll (P : CallView → Prop) (u : Usage (List (Option Nat))) : Prop :=
  ∀ ⦃k : Nat⦄ ⦃p : Registers⦄, p.IsStack k →
    Clears P u p fun rs p' => ∃ m, Consecutive k rs m ∧ p'.IsStack m

theorem clears_targets {us : List (Usage (List (Option Nat)))} (h : ∀ u ∈ us, PilesAll P u)
    (hp : p.IsStack k) :
    Clears P (collect us) p fun rss p' => ∃ m, Consecutive k rss.flatten m ∧ p'.IsStack m := by
  induction us generalizing k p with
  | nil => exact clears_pure ⟨k, .nil k, hp⟩
  | cons u us ih =>
    obtain ⟨hu, hus⟩ := List.forall_mem_cons.mp h
    exact (hu hp).bind fun _ _ ⟨_, h₁, hp₁⟩ => (ih hus hp₁).bind fun _ _ ⟨m, h₂, hp₂⟩ =>
      clears_pure ⟨m, h₁.append h₂, hp₂⟩

theorem clears_dropTargets {rss : List (List (Option Nat))} (h : Consecutive k rss.flatten m)
    (hp : p.IsStack m) :
    Clears P (each (rss.reverse.map dropAll)) p fun _ p' => p'.IsStack k := by
  induction rss generalizing k with
  | nil =>
    cases h
    exact clears_pure hp
  | cons rs rss ih =>
    obtain ⟨n, h₁, h₂⟩ := h.exists_of_append
    rw [List.reverse_cons, List.map_append, each_append]
    refine (ih h₂).bind fun _ _ hp₁ => ?_
    rw [List.map_singleton, each_singleton]
    exact clears_dropAll h₁ hp₁

theorem balanced_assign {us : List (Usage (List (Option Nat)))} {vs : List Value}
    (hu : ∀ u ∈ us, PilesAll P u) (hv : ∀ v ∈ vs, v.Piles P) : Balanced P (assign us vs) := by
  refine fun _ _ hp => (clears_targets hu hp).bind fun _ _ ⟨_, h₁, hp₁⟩ =>
    (clears_values hv hp₁).bind fun l p₂ ⟨m, h₂, hp₂⟩ => ?_
  extract_lets release
  have hrelease : ∀ more n p, Consecutive m more n → p.IsStack n →
      Clears P (release more) p fun _ p' => p'.IsStack _ := fun _ _ _ h₃ hp₃ =>
    (clears_dropAll (h₂.append h₃) hp₃).bind fun _ _ hp₄ => clears_dropTargets h₁ hp₄
  split
  · exact (clears_copies _ hp₂).bind fun _ _ ⟨_, h₃, hp₃⟩ => hrelease _ _ _ h₃ hp₃
  · exact hrelease [] m p₂ (.nil m) hp₂

theorem pilesAll_element (kind : TempKind) (hu : Piles P u) (hv : Piles P v) :
    PilesAll P (element u v kind) := fun _ _ hp =>
  (hu hp).bind fun _ _ ⟨_, h₁, hp₁⟩ => (hv hp₁).bind fun _ _ ⟨_, h₂, hp₂⟩ =>
    (piles_holdAs kind hp₂).bind fun _ _ ⟨m, h₃, hp₃⟩ =>
      clears_pure ⟨m, h₁.append (h₂.append h₃), hp₃⟩

theorem balanced_eval (hu : Piles P u) : Balanced P (eval u) := fun _ _ hp =>
  (hu hp).bind fun _ _ ⟨_, h₁, hp₁⟩ => clears_drop h₁ hp₁

theorem balanced_ret {us : List (Usage (Option Nat))} (h : ∀ u ∈ us, Piles P u) :
    Balanced P (ret us) := fun _ _ hp =>
  (clears_collect h hp).bind fun _ _ ⟨_, h₁, hp₁⟩ => clears_dropAll h₁ hp₁

theorem Balanced.seq {v w : Usage Unit} (hv : Balanced P v) (hw : Balanced P w) :
    Balanced P (do v; w) := fun _ _ hp => (hv hp).bind fun _ _ hp₁ => hw hp₁

theorem balanced_compare : Balanced P compare := balanced_eval (piles_holdAs .any)

theorem balanced_integerFor (hu : Piles P u) (hv : Piles P v) (hb : Balanced P body) :
    Balanced P (integerFor u v body) := fun _ _ hp =>
  (hu hp).bind fun _ _ ⟨_, h₁, hp₁⟩ => (hv hp₁).bind fun _ _ ⟨_, h₂, hp₂⟩ =>
    (clears_drop h₂ hp₂).bind fun _ _ hp₃ => (clears_drop h₁ hp₃).bind fun _ _ hp₄ =>
      balanced_compare.seq hb hp₄

/-- The value takes no generic temporary. -/
def Idle (u : Usage (Option Nat)) : Prop := ∀ p, (u p).1 = none

theorem Piles.clears_idle (h : Piles P u) (hi : Idle u) (hp : p.IsStack k) :
    Clears P u p fun r p' => r = none ∧ p'.IsStack k := by
  obtain ⟨hc, m, hm, hp'⟩ := h hp
  refine ⟨hc, hi p, ?_⟩
  rw [hi p] at hm
  exact hm.eq_of_none ▸ hp'

/-- With idle bounds, the registers of the loop are on top. -/
theorem balanced_taggedFor {w : Usage (Option Nat)} (hu : Piles P u) (hv : Piles P v)
    (hw : Piles P w) (iu : Idle u) (iv : Idle v) (iw : Idle w) (hb : Balanced P body) :
    Balanced P (taggedFor u v w body) := by
  refine fun _ _ hp => (hu.clears_idle iu hp).bind fun _ _ ⟨h₁, hp₁⟩ =>
    (hv.clears_idle iv hp₁).bind fun _ _ ⟨h₂, hp₂⟩ =>
    (hw.clears_idle iw hp₂).bind fun _ _ ⟨h₃, hp₃⟩ => ?_
  subst h₁ h₂ h₃
  refine (piles_holdAs .any hp₃).bind fun _ _ ⟨_, h₄, hp₄⟩ => (piles_holdAs .any hp₄).bind
    fun _ _ ⟨_, h₅, hp₅⟩ => (piles_holdAs .any hp₅).bind fun _ _ ⟨_, h₆, hp₆⟩ => ?_
  have hnone : ∀ {k p}, IsStack k p → Clears P (drop none) p fun _ p' => p'.IsStack k :=
    fun hp => clears_drop (.skip (.nil _)) hp
  exact (hnone hp₆).bind fun _ _ hp₇ => (hnone hp₇).bind fun _ _ hp₈ => (hnone hp₈).bind
    fun _ _ hp₉ => (balanced_compare hp₉).bind fun _ _ hp₁ => (balanced_compare hp₁).bind
    fun _ _ hp₂ => (balanced_compare hp₂).bind fun _ _ hp₃ => (hb hp₃).bind fun _ _ hp =>
    (clears_drop h₆ hp).bind fun _ _ hp₅ => (clears_drop h₅ hp₅).bind fun _ _ hp₄ =>
      clears_drop h₄ hp₄

theorem balanced_sequence {stmts : List (Bool × Usage Unit)} (h : ∀ x ∈ stmts, Balanced P x.2) :
    Balanced P (sequence stmts) := by
  induction stmts with
  | nil => exact fun _ _ hp => clears_pure hp
  | cons x stmts ih =>
    obtain ⟨hx, hs⟩ := List.forall_mem_cons.mp h
    obtain ⟨ends, u⟩ := x
    refine fun _ _ hp => (hx hp).bind fun _ _ hp₁ => ?_
    split
    · exact clears_pure hp₁
    · exact ih hs hp₁

end Statements

end Usage

section Trees

variable (symbols : SymbolTable)

/-- The value of the expression takes a generic temporary. -/
def Expr.isHeld : Expr → Bool
  | ⟨_, .symbol id⟩ => ScriptC.isGlobal symbols id
  | ⟨_, .index object key⟩ => (Selection.load object.ty key.keyClass).result = .any
  | ⟨_, .unary op operand⟩ => (Selection.unary op operand.ty).result = .any
  | ⟨_, .binary op lhs rhs⟩ => op = .and ∨ op = .or ∨
      (Canonical.of op (.of lhs.ty) (.of rhs.ty)).negate = true ∨
      operatorResult op (.of lhs.ty) (.of rhs.ty) = .any
  | ⟨_, .call ..⟩ | ⟨_, .methodCall ..⟩ | ⟨_, .function _⟩ | ⟨_, .table _⟩ => true
  | _ => false

/-- A numeric loop with bounds and a step that take no generic temporary, or of integers. -/
def isPlainFor (start limit : Expr) (step : Option Expr) : Bool :=
  isIntegerFor start limit step ||
    !start.isHeld symbols && !limit.isHeld symbols && !step.any (·.isHeld symbols)

mutual

/-- All numeric loops in the tree are plain. -/
def Expr.plainLoops (symbols : SymbolTable) : Expr → Bool
  | ⟨_, kind⟩ => kind.plainLoops symbols

def ExprKind.plainLoops (symbols : SymbolTable) : ExprKind → Bool
  | .index object key => object.plainLoops symbols && key.plainLoops symbols
  | .call callee args => callee.plainLoops symbols && plainExprs symbols args
  | .methodCall object _ args => object.plainLoops symbols && plainExprs symbols args
  | .unary _ operand => operand.plainLoops symbols
  | .binary _ lhs rhs => lhs.plainLoops symbols && rhs.plainLoops symbols
  | .function func => func.plainLoops symbols
  | .table items => plainItems symbols items
  | _ => true

def plainExprs (symbols : SymbolTable) : List Expr → Bool
  | [] => true
  | e :: es => e.plainLoops symbols && plainExprs symbols es

def plainItems (symbols : SymbolTable) : List TableItem → Bool
  | [] => true
  | .positional value :: rest => value.plainLoops symbols && plainItems symbols rest
  | .named _ value :: rest => value.plainLoops symbols && plainItems symbols rest
  | .keyed key value :: rest =>
    key.plainLoops symbols && value.plainLoops symbols && plainItems symbols rest

def Stmt.plainLoops (symbols : SymbolTable) : Stmt → Bool
  | .declare _ exprs => plainExprs symbols exprs
  | .declareFunction _ func => func.plainLoops symbols
  | .assign targets exprs => plainExprs symbols targets && plainExprs symbols exprs
  | .eval expr => expr.plainLoops symbols
  | .ret exprs => plainExprs symbols exprs
  | .block body => plainStmts symbols body
  | .branch clauses otherwise => plainClauses symbols clauses && plainOtherwise symbols otherwise
  | .whileLoop cond body => cond.plainLoops symbols && plainStmts symbols body
  | .repeatLoop body cond => plainStmts symbols body && cond.plainLoops symbols
  | .numericFor _ start limit step body => start.plainLoops symbols && limit.plainLoops symbols &&
      plainStep symbols step && isPlainFor symbols start limit step && plainStmts symbols body
  | _ => true

def plainStmts (symbols : SymbolTable) : List Stmt → Bool
  | [] => true
  | s :: ss => s.plainLoops symbols && plainStmts symbols ss

def plainClauses (symbols : SymbolTable) : List Clause → Bool
  | [] => true
  | ⟨cond, body⟩ :: rest =>
    cond.plainLoops symbols && plainStmts symbols body && plainClauses symbols rest

def plainOtherwise (symbols : SymbolTable) : Option (List Stmt) → Bool
  | none => true
  | some body => plainStmts symbols body

def plainStep (symbols : SymbolTable) : Option Expr → Bool
  | none => true
  | some e => e.plainLoops symbols

def Function.plainLoops (symbols : SymbolTable) : Function → Bool
  | ⟨_, _, _, _, _, body⟩ => plainStmts symbols body

end

theorem plainExprs_iff {es : List Expr} :
    plainExprs symbols es = true ↔ ∀ e ∈ es, e.plainLoops symbols = true := by
  induction es with
  | nil => simp [plainExprs]
  | cons e es ih => simp [plainExprs, ih]

theorem plainItems_iff {is : List TableItem} :
    plainItems symbols is = true ↔ ∀ i ∈ is, ∀ e ∈ i.exprs, e.plainLoops symbols = true := by
  induction is with
  | nil => simp [plainItems]
  | cons i is ih => cases i <;> simp [plainItems, ih, TableItem.exprs, and_assoc]

theorem plainStmts_iff {ss : List Stmt} :
    plainStmts symbols ss = true ↔ ∀ s ∈ ss, s.plainLoops symbols = true := by
  induction ss with
  | nil => simp [plainStmts]
  | cons s ss ih => simp [plainStmts, ih]

theorem plainClauses_iff {cs : List Clause} : plainClauses symbols cs = true ↔
    ∀ c ∈ cs, c.cond.plainLoops symbols = true ∧ plainStmts symbols c.body = true := by
  induction cs with
  | nil => simp [plainClauses]
  | cons c cs ih =>
    obtain ⟨cond, body⟩ := c
    simp [plainClauses, ih]

open Usage

variable {P : CallView → Prop}

theorem idle_holdAs {kind : TempKind} (h : kind ≠ .any) : Idle (holdAs kind) := by
  cases kind with
  | int => exact fun _ => rfl
  | float => exact fun _ => rfl
  | any => exact absurd rfl h

/-- A value that is kept elsewhere takes no generic temporary. -/
theorem idle_of_not_isHeld {e : Expr} (h : e.isHeld symbols = false) :
    Idle (e.usage symbols) := by
  obtain ⟨ty, kind⟩ := e
  intro p
  cases kind with
  | symbol id =>
    have hg : ¬ isGlobal symbols id = true := by simpa [Expr.isHeld] using h
    simp [Expr.usage, ExprKind.usage, symbolUsage, hg]
  | index object key =>
    have hr : (Selection.load object.ty key.keyClass).result ≠ .any := by
      simpa [Expr.isHeld] using h
    exact idle_holdAs hr _
  | unary op operand =>
    have hr : (Selection.unary op operand.ty).result ≠ .any := by simpa [Expr.isHeld] using h
    exact idle_holdAs hr _
  | binary op lhs rhs =>
    simp only [Expr.isHeld, decide_eq_false_iff_not, not_or] at h
    obtain ⟨hand, hor, hn, hr⟩ := h
    have hlogical : ¬ (op = .and ∨ op = .or) := by simp [hand, hor]
    simp only [Expr.usage, ExprKind.usage, binaryUsage, if_neg hlogical, arithmeticUsage,
      arithmetic, bind_apply, if_neg hn]
    exact idle_holdAs hr _
  | _ => first | rfl | cases h

theorem balanced_block {body : List Stmt} (hp : plainStmts symbols body = true)
    (h : ∀ s ∈ body, s.plainLoops symbols = true → Balanced P (s.usage symbols)) :
    Balanced P (blockUsage symbols body) := by
  rw [plainStmts_iff] at hp
  refine balanced_sequence ?_
  rw [stmtUsages_eq_map, List.forall_mem_map]
  exact fun s hs => h s hs (hp s hs)

theorem piles_of_mem {es : List Expr} (hp : plainExprs symbols es = true ∨ ∀ c, P c)
    (h : ∀ e ∈ es, e.plainLoops symbols = true ∨ (∀ c, P c) → (e.described symbols).Piles P) :
    ∀ v ∈ valueUsages symbols es, v.Piles P := by
  rw [plainExprs_iff] at hp
  rw [valueUsages_eq_map, List.forall_mem_map]
  exact fun e he => h e he (hp.imp_left fun hp => hp e he)

theorem piles_usages {es : List Expr} (h : ∀ v ∈ valueUsages symbols es, v.Piles P) :
    ∀ u ∈ usages symbols es, Piles P u := by
  rw [← map_use_valueUsages, List.forall_mem_map]
  exact fun v hv => (h v hv).1

/-- Values other than calls take the register on top or none. -/
theorem value_piles {e : Expr} (h : Piles P (e.usage symbols)) (hc : e.isCall = false) :
    (e.described symbols).Piles P :=
  ⟨h, fun hcall => absurd hcall (by simp [Expr.described, hc])⟩

theorem piles_symbol (id : SymbolId) : Piles P (symbolUsage symbols id) := by
  unfold symbolUsage
  split
  · exact piles_holdAs .any
  · exact piles_none

theorem balanced_ofItem {item : TableItem}
    (h : ∀ e ∈ item.exprs, (e.described symbols).Piles P) : Balanced P (item.usage symbols) := by
  cases item with
  | positional value => exact balanced_item piles_none (h value (by simp [TableItem.exprs])).1
  | named name value => exact balanced_item piles_none (h value (by simp [TableItem.exprs])).1
  | keyed key value =>
    exact balanced_item (h key (by simp [TableItem.exprs])).1
      (h value (by simp [TableItem.exprs])).1

theorem balanced_numericFor (var : SymbolId) {start limit : Expr} {step : Option Expr}
    {body : List Stmt} (h : isPlainFor symbols start limit step = true)
    (hs : Piles P (start.usage symbols)) (hl : Piles P (limit.usage symbols))
    (hp : ∀ e ∈ step, Piles P (e.usage symbols)) (hb : Balanced P (blockUsage symbols body)) :
    Balanced P ((Stmt.numericFor var start limit step body).usage symbols) := by
  rw [Stmt.usage]
  split <;> rename_i hi
  · exact balanced_integerFor hs hl hb
  · simp only [isPlainFor, hi, Bool.false_or, Bool.and_eq_true, Bool.not_eq_true'] at h
    obtain ⟨⟨his, hil⟩, hip⟩ := h
    have hstep : Piles P (stepUsage symbols step) ∧ Idle (stepUsage symbols step) := by
      cases step with
      | none => exact ⟨piles_none, fun _ => rfl⟩
      | some e => exact ⟨hp e rfl, idle_of_not_isHeld symbols hip⟩
    exact balanced_taggedFor hs hl hstep.1 (idle_of_not_isHeld symbols his)
      (idle_of_not_isHeld symbols hil) hstep.2 hb

theorem pilesAll_target {t : Expr} (h : ∀ ty object key, t = ⟨ty, .index object key⟩ →
    Piles P (object.usage symbols) ∧ Piles P (key.usage symbols)) :
    PilesAll P (t.targetUsage symbols) := by
  unfold Expr.targetUsage
  split
  · exact fun _ _ hp => (piles_symbol symbols _ hp).bind fun _ _ ⟨m, h₁, hp₁⟩ =>
      clears_pure ⟨m, h₁, hp₁⟩
  · rename_i ty object key
    obtain ⟨ho, hk⟩ := h ty object key rfl
    exact pilesAll_element _ ho hk
  · exact fun k _ hp => clears_pure ⟨k, .nil k, hp⟩

/-- With plain loops only, every form of tree keeps the stack and makes its calls on top of it. The
loops in a function that is created do not matter to the stack of its creator. -/
theorem treeCases_piles (hP : ∀ c : CallView, c.Clear → P c) : TreeCases
    (fun e => e.plainLoops symbols = true ∨ (∀ c, P c) → (e.described symbols).Piles P)
    (fun s => s.plainLoops symbols = true → Balanced P (s.usage symbols))
    fun f => f.plainLoops symbols = true ∨ (∀ c, P c) → Balanced P (f.usage symbols) where
  nil _ := fun _ => value_piles symbols piles_none rfl
  true _ := fun _ => value_piles symbols piles_none rfl
  false _ := fun _ => value_piles symbols piles_none rfl
  integer _ _ := fun _ => value_piles symbols piles_none rfl
  number _ _ := fun _ => value_piles symbols piles_none rfl
  string _ _ := fun _ => value_piles symbols piles_none rfl
  vararg _ := fun _ => value_piles symbols piles_none rfl
  symbol _ id := fun _ => value_piles symbols (piles_symbol symbols id) rfl
  index _ object key ho hk := by
    intro h
    simp only [Expr.plainLoops, ExprKind.plainLoops, Bool.and_eq_true] at h
    exact value_piles symbols (piles_index _ (ho (h.imp_left And.left)).1
      (hk (h.imp_left And.right)).1) rfl
  call _ callee args hc ha := by
    intro h
    simp only [Expr.plainLoops, ExprKind.plainLoops, Bool.and_eq_true] at h
    have htop := tops_call hP (hc (h.imp_left And.left)).1
      (piles_usages symbols (piles_of_mem symbols (h.imp_left And.right) ha))
    exact ⟨htop.piles, fun _ => htop⟩
  methodCall _ object name args ho ha := by
    intro h
    simp only [Expr.plainLoops, ExprKind.plainLoops, Bool.and_eq_true] at h
    have htop := tops_methodCall hP (ho (h.imp_left And.left)).1
      (piles_usages symbols (piles_of_mem symbols (h.imp_left And.right) ha))
    exact ⟨htop.piles, fun _ => htop⟩
  unary _ op operand ho := by
    intro h
    simp only [Expr.plainLoops, ExprKind.plainLoops] at h
    exact value_piles symbols (piles_unary _ (ho h).1) rfl
  binary _ op lhs rhs hl hr := by
    intro h
    simp only [Expr.plainLoops, ExprKind.plainLoops, Bool.and_eq_true] at h
    have hlhs := (hl (h.imp_left And.left)).1
    have hrhs := (hr (h.imp_left And.right)).1
    refine value_piles symbols ?_ rfl
    simp only [Expr.usage, ExprKind.usage, binaryUsage]
    split
    · exact piles_logical hlhs hrhs
    · exact piles_arithmetic _ _ hlhs hrhs
  function _ func hf := by
    intro h
    exact value_piles symbols (piles_closure (hf h)) rfl
  table _ items hi := by
    intro h
    have hp := h.imp_left (plainItems_iff symbols).mp
    refine value_piles symbols (piles_construct ?_) rfl
    rw [itemUsages_eq_map, List.forall_mem_map]
    exact fun i hmem => balanced_ofItem symbols fun e he => hi i hmem e he
      (hp.imp_left fun hp => hp i hmem e he)
  declare vars exprs he := by
    intro h
    exact balanced_declare _ (piles_of_mem symbols (.inl h) he)
  declareFunction _ func hf := by
    intro h
    exact balanced_eval (piles_closure (hf (.inl h)))
  assign targets exprs ht he := by
    intro h
    simp only [Stmt.plainLoops, Bool.and_eq_true] at h
    refine balanced_assign ?_ (piles_of_mem symbols (.inl h.2) he)
    rw [targetUsages_eq_map, List.forall_mem_map]
    refine fun t hmem => pilesAll_target symbols fun ty object key hkind => ?_
    have hplain := (plainExprs_iff symbols).mp h.1 t hmem
    simp only [hkind, Expr.plainLoops, ExprKind.plainLoops, Bool.and_eq_true] at hplain
    obtain ⟨ho, hk⟩ := ht t hmem ty object key hkind
    exact ⟨(ho (.inl hplain.1)).1, (hk (.inl hplain.2)).1⟩
  eval _ he := by
    intro h
    exact balanced_eval (he (.inl h)).1
  ret exprs he := by
    intro h
    exact balanced_ret (piles_usages symbols (piles_of_mem symbols (.inl h) he))
  block _ hs := fun h => balanced_block symbols h hs
  branch clauses otherwise hc ho := by
    intro h
    simp only [Stmt.plainLoops, Bool.and_eq_true] at h
    refine balanced_each fun u hu => ?_
    rcases List.mem_append.mp hu with hu | hu
    · rw [clauseUsages_eq_map] at hu
      obtain ⟨c, hmem, rfl⟩ := List.mem_map.mp hu
      obtain ⟨hcond, hbody⟩ := (plainClauses_iff symbols).mp h.1 c hmem
      exact (balanced_eval ((hc c hmem).1 (.inl hcond)).1).seq
        (balanced_block symbols hbody (hc c hmem).2)
    · cases otherwise with
      | none => simp [otherwiseUsages] at hu
      | some body =>
        obtain rfl := List.mem_singleton.mp hu
        exact balanced_block symbols h.2 (ho body rfl)
  whileLoop _ _ hc hb := by
    intro h
    simp only [Stmt.plainLoops, Bool.and_eq_true] at h
    exact (balanced_eval (hc (.inl h.1)).1).seq (balanced_block symbols h.2 hb)
  repeatLoop _ _ hb hc := by
    intro h
    simp only [Stmt.plainLoops, Bool.and_eq_true] at h
    exact (balanced_block symbols h.1 hb).seq (balanced_eval (hc (.inl h.2)).1)
  numericFor var start limit step body hs hl hp hb := by
    intro h
    simp only [Stmt.plainLoops, Bool.and_eq_true] at h
    obtain ⟨⟨⟨⟨hstart, hlimit⟩, hstep⟩, hplain⟩, hbody⟩ := h
    refine balanced_numericFor symbols var hplain (hs (.inl hstart)).1 (hl (.inl hlimit)).1
      (fun e he => ?_) (balanced_block symbols hbody hb)
    obtain rfl := he
    exact (hp e rfl (.inl hstep)).1
  genericFor _ _ _ := fun _ _ _ hp => clears_pure hp
  leave := fun _ _ _ hp => clears_pure hp
  jump _ := fun _ _ _ hp => clears_pure hp
  label _ := fun _ _ _ hp => clears_pure hp
  body f hs := by
    obtain ⟨id, name, params, isVararg, upvalues, body⟩ := f
    exact fun h => balanced_nested (h.imp_left fun h => balanced_block symbols h hs)

end Trees

end ScriptC
