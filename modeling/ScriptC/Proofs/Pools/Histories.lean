import Mathlib.Data.Finset.Card
import ScriptC.Proofs.Pools

/-! # Histories of register pools

The log of a pool tells what was handed out and what came back. In every history the registers that
are live in the pool are those that were handed out and have not come back, and the mark up to which
registers are known lies right above the highest one that was ever handed out. While no register is
claimed by number, the mark is also the largest number of registers that were live at once.
-/

namespace ScriptC.Registers

/-- An entry in the log of a pool. -/
inductive Event where
  | alloc (r : Nat)
  | release (r : Nat)
  | take (r : Nat)
deriving DecidableEq, Repr

/-- The register that an entry hands out. -/
def Event.given? : Event → Option Nat
  | alloc r | take r => some r
  | release _ => none

/-- A fresh pool becomes the given one by the requests of the log, the latest of which stands
first. -/
inductive Served : List Event → Registers → Prop
  | fresh : Served [] {}
  | alloc {log : List Event} {p : Registers} : Served log p →
      Served (.alloc p.alloc.2 :: log) p.alloc.1
  | release {log : List Event} {p q : Registers} {r : Nat} : Served log p → p.release r = .ok q →
      Served (.release r :: log) q
  | take {log : List Event} {p q : Registers} {r : Nat} : Served log p → p.take r = .ok q →
      Served (.take r :: log) q

/-- The registers that were handed out and have not come back since. -/
def held : List Event → Finset Nat
  | [] => ∅
  | .alloc r :: log => insert r (held log)
  | .take r :: log => insert r (held log)
  | .release r :: log => (held log).erase r

/-- All registers that were ever handed out. -/
def given (log : List Event) : List Nat := log.filterMap Event.given?

/-- The mark is one more than the largest of the registers, or zero if there are none. -/
def IsMark (mark : Nat) (rs : List Nat) : Prop := (∀ r ∈ rs, r < mark) ∧ ∀ r, mark = r + 1 → r ∈ rs

/-- The largest number of registers that were held at the same time. -/
def peak : List Event → Nat
  | [] => 0
  | e :: log => max (held (e :: log)).card (peak log)

section Steps

variable {p q : Registers} {r x : Nat}

theorem WellFormed.next_alloc (h : p.WellFormed) : p.alloc.1.next = max p.next (p.alloc.2 + 1) := by
  have hl := h.lt_next
  unfold Registers.alloc
  cases hf : p.free with
  | nil => exact (Nat.max_eq_right (Nat.le_succ _)).symm
  | cons y ys =>
    rw [hf] at hl
    exact (Nat.max_eq_left (hl y List.mem_cons_self)).symm

/-- Claiming a register makes it live and no other. -/
theorem WellFormed.isLive_take (h : p.WellFormed) (ht : p.take r = .ok q) :
    ¬ p.IsLive r ∧ (∀ x, q.IsLive x ↔ p.IsLive x ∨ x = r) ∧ q.next = max p.next (r + 1) := by
  unfold Registers.take at ht
  split_ifs at ht with hfree hlt hword <;> cases ht
  · have hr := h.lt_next r hfree
    refine ⟨fun hl => hl.2 hfree, fun x => ?_, (Nat.max_eq_left hr).symm⟩
    simp only [IsLive, h.nodup.mem_erase_iff, not_and, ne_eq]
    constructor
    · rintro ⟨hx, hxs⟩
      by_cases he : x = r
      · exact .inr he
      · exact .inl ⟨hx, hxs he⟩
    · rintro (⟨hx, hxs⟩ | rfl)
      · exact ⟨hx, fun _ => hxs⟩
      · exact ⟨hr, fun hne => absurd rfl hne⟩
  · -- the registers between the mark and `r` become free, so `r` alone is new
    have hle : p.next ≤ r := Nat.not_lt.mp hlt
    refine ⟨fun hl => hlt hl.1, fun x => ?_, (Nat.max_eq_right (Nat.le_succ_of_le hle)).symm⟩
    simp only [IsLive, List.mem_append, List.mem_range'_1, not_or]
    have hknown := fun hx : x ∈ p.free => h.lt_next x hx
    constructor
    · rintro ⟨hx, hgap, hxs⟩
      by_cases he : x = r
      · exact .inr he
      · exact .inl ⟨by omega, hxs⟩
    · rintro (⟨hx, hxs⟩ | rfl)
      · exact ⟨by omega, by omega, hxs⟩
      · exact ⟨by omega, by omega, fun hx => absurd (hknown hx) (by omega)⟩

theorem exists_release_iff : (∃ q, p.release r = .ok q) ↔ p.IsLive r :=
  ⟨fun ⟨_, h⟩ => (release_ok h).1, fun h => ⟨_, h.release⟩⟩

/-- A register can be claimed unless it is live, up to the largest word. -/
theorem WellFormed.exists_take_iff (h : p.WellFormed) :
    (∃ q, p.take r = .ok q) ↔ ¬ p.IsLive r ∧ (p.next ≤ r → r + 1 < wordLimit) := by
  have hknown := h.lt_next r
  unfold Registers.take IsLive
  split_ifs with hfree hlt hword
  · simpa [hfree] using fun hle => absurd (hknown hfree) (Nat.not_lt.mpr hle)
  · simp [hfree, hlt]
  · simpa [hlt] using ⟨Nat.not_lt.mp hlt, hword⟩
  · simpa [hlt] using fun _ => Nat.not_le.mp hword

/-- The known registers are the free ones and the live ones. -/
theorem WellFormed.live_add_length (h : p.WellFormed) {s : Finset Nat}
    (hs : ∀ x, p.IsLive x ↔ x ∈ s) : s.card + p.free.length = p.next := by
  have hdisj : Disjoint s p.free.toFinset := by
    rw [Finset.disjoint_left]
    intro x hx hf
    exact ((hs x).mpr hx).2 (List.mem_toFinset.mp hf)
  have hunion : s ∪ p.free.toFinset = Finset.range p.next := by
    ext x
    rw [Finset.mem_union, ← hs, List.mem_toFinset, Finset.mem_range]
    constructor
    · rintro (hx | hx)
      · exact hx.1
      · exact h.lt_next x hx
    · intro hx
      by_cases hf : x ∈ p.free
      · exact .inr hf
      · exact .inl ⟨hx, hf⟩
  calc s.card + p.free.length
    _ = s.card + p.free.toFinset.card := by rw [List.toFinset_card_of_nodup h.nodup]
    _ = (Finset.range p.next).card := by rw [← hunion, Finset.card_union_of_disjoint hdisj]
    _ = p.next := Finset.card_range _

theorem IsMark.cons {mark : Nat} {rs : List Nat} (h : IsMark mark rs) (r : Nat) :
    IsMark (max mark (r + 1)) (r :: rs) := by
  constructor
  · intro x hx
    rcases List.mem_cons.mp hx with rfl | hx
    · omega
    · have := h.1 x hx
      omega
  · intro x hx
    by_cases hr : x = r
    · exact List.mem_cons.mpr (.inl hr)
    · exact List.mem_cons_of_mem r (h.2 x (by omega))

end Steps

namespace Served

variable {log : List Event} {p : Registers}

theorem wellFormed (h : Served log p) : p.WellFormed := by
  induction h with
  | fresh => exact wellFormed_empty
  | alloc _ ih => exact ih.alloc
  | release _ hr ih => exact ih.release hr
  | take _ ht ih => exact ih.take ht

theorem isLive_iff (h : Served log p) (x : Nat) : p.IsLive x ↔ x ∈ held log := by
  induction h generalizing x with
  | fresh => simp [IsLive, held]
  | alloc h ih => rw [h.wellFormed.isLive_alloc, ih, held, Finset.mem_insert, or_comm]
  | release h hr ih =>
    obtain ⟨-, rfl⟩ := release_ok hr
    rw [isLive_released, ih, held, Finset.mem_erase, and_comm]
  | take h ht ih =>
    rw [(h.wellFormed.isLive_take ht).2.1, ih, held, Finset.mem_insert, or_comm]

theorem card_held_add (h : Served log p) : (held log).card + p.free.length = p.next :=
  h.wellFormed.live_add_length h.isLive_iff

theorem isMark_next (h : Served log p) : IsMark p.next (given log) := by
  induction h with
  | fresh => simp [IsMark, given]
  | alloc h ih =>
    rw [h.wellFormed.next_alloc]
    exact ih.cons _
  | release h hr ih =>
    obtain ⟨-, rfl⟩ := release_ok hr
    exact ih
  | take h ht ih =>
    rw [(h.wellFormed.isLive_take ht).2.2]
    exact ih.cons _

/-- The mark rises only when every known register is live. -/
theorem next_eq_peak (h : Served log p) (hlog : ∀ r, .take r ∉ log) : p.next = peak log := by
  induction h with
  | fresh => rfl
  | @alloc log p h ih =>
    have hold := ih fun r hr => hlog r (List.mem_cons_of_mem _ hr)
    have hnew := h.alloc.card_held_add
    rw [peak, ← hold]
    revert hnew
    generalize (held (.alloc p.alloc.2 :: log)).card = n
    unfold Registers.alloc
    cases hf : p.free with
    | nil =>
      simp only [List.length_nil]
      omega
    | cons y ys =>
      simp only
      omega
  | @release log p q r h hr ih =>
    have hold := ih fun r hr => hlog r (List.mem_cons_of_mem _ hr)
    have hnew := (h.release hr).card_held_add
    obtain ⟨-, rfl⟩ := release_ok hr
    rw [peak, ← hold]
    simp only [List.length_cons] at hnew
    simp only
    omega
  | take => exact absurd List.mem_cons_self (hlog _)

end Served

/-- What a pool says of its registers agrees with its log. -/
theorem served_accounts {log : List Event} {p : Registers} (h : Served log p) :
    (p.free.Nodup ∧ (∀ r ∈ p.free, r < p.next) ∧ p.free.length ≤ p.next) ∧
      p.live = (held log).card ∧ (∀ x, p.IsLive x ↔ x ∈ held log) ∧
      (¬ p.IsLive p.alloc.2 ∧ ∀ x, p.alloc.1.IsLive x ↔ p.IsLive x ∨ x = p.alloc.2) ∧
      (∀ r q, p.take r = .ok q → ¬ p.IsLive r ∧ ∀ x, q.IsLive x ↔ p.IsLive x ∨ x = r) ∧
      (∀ r, ((∃ q, p.release r = .ok q) ↔ p.IsLive r) ∧
        ((∃ q, p.take r = .ok q) ↔ ¬ p.IsLive r ∧ (p.next ≤ r → r + 1 < wordLimit))) ∧
      IsMark p.next (given log) ∧
      ((∀ r, .take r ∉ log) → p.next = peak log) := by
  have hw := h.wellFormed
  have hcard := h.card_held_add
  refine ⟨⟨hw.nodup, hw.lt_next, by omega⟩, ?_, h.isLive_iff, ⟨not_isLive_alloc, fun x =>
    hw.isLive_alloc⟩, fun r q ht => ?_, fun r => ⟨exists_release_iff, hw.exists_take_iff⟩,
    h.isMark_next, h.next_eq_peak⟩
  · rw [live, ← hcard, Nat.add_sub_cancel]
  · obtain ⟨hr, hlive, -⟩ := hw.isLive_take ht
    exact ⟨hr, hlive⟩

/-- A claim past the mark, one from the middle of what it freed, and a history without claims. -/
theorem jumping_accounts :
    (∃ p, Served [.take 3, .take 4, .release 0, .alloc 1, .alloc 0] p ∧ p.free = [2, 0] ∧
      p.live = 3 ∧ IsMark p.next [3, 4, 1, 0] ∧ ¬ p.IsLive p.alloc.2) ∧
    ∃ p, Served [.alloc 0, .release 0, .alloc 1, .alloc 0] p ∧ p.next = 2 := by
  have one : Served [.alloc 0] ⟨1, []⟩ := .alloc .fresh
  have two : Served [.alloc 1, .alloc 0] ⟨2, []⟩ := .alloc one
  have back : Served [.release 0, .alloc 1, .alloc 0] ⟨2, [0]⟩ := .release two rfl
  have far : Served [.take 4, .release 0, .alloc 1, .alloc 0] ⟨5, [2, 3, 0]⟩ := .take back rfl
  have middle : Served [.take 3, .take 4, .release 0, .alloc 1, .alloc 0] ⟨5, [2, 0]⟩ :=
    .take far rfl
  have again : Served [.alloc 0, .release 0, .alloc 1, .alloc 0] ⟨2, []⟩ := .alloc back
  obtain ⟨-, hlive, -, ⟨halloc, -⟩, -, -, hmark, -⟩ := served_accounts middle
  obtain ⟨-, -, -, -, -, -, -, hpeak⟩ := served_accounts again
  refine ⟨⟨_, middle, rfl, ?_, hmark, halloc⟩, _, again, ?_⟩
  · rw [hlive]
    decide
  · rw [hpeak (by simp)]
    decide

end ScriptC.Registers
