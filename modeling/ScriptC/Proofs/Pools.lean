import Mathlib.Tactic.Common
import ScriptC.Registers

/-! # Order of register pools

A pool is known by the order in which it will hand out registers. A register is live if it does not
occur there. Handing out a register removes the first of the order, returning one puts it first.
-/

namespace ScriptC.Registers

/-- No register is free twice, and only registers that were handed out are free. -/
structure WellFormed (p : Registers) : Prop where
  nodup : p.free.Nodup
  lt_next : ∀ r ∈ p.free, r < p.next

def IsLive (p : Registers) (r : Nat) : Prop := r < p.next ∧ r ∉ p.free

/-- The register that the pool hands out after `i` others. -/
def upcoming (p : Registers) (i : Nat) : Nat := p.free.getD i (p.next + (i - p.free.length))

section WellFormed

variable {p q : Registers} {r : Nat}

theorem wellFormed_empty : WellFormed {} := ⟨List.nodup_nil, by simp⟩

theorem WellFormed.alloc (h : p.WellFormed) : p.alloc.1.WellFormed := by
  unfold Registers.alloc
  split <;> rename_i hf
  · have hn := h.nodup
    have hl := h.lt_next
    rw [hf] at hn hl
    exact ⟨hn.of_cons, fun r hr => hl r (List.mem_cons_of_mem _ hr)⟩
  · exact ⟨by simp [hf], by simp [hf]⟩

theorem release_ok (h : p.release r = .ok q) : p.IsLive r ∧ q = { p with free := r :: p.free } := by
  unfold release at h
  split_ifs at h with h₁ h₂
  exact ⟨⟨by omega, h₂⟩, (Except.ok.inj h).symm⟩

theorem IsLive.release (h : p.IsLive r) : p.release r = .ok { p with free := r :: p.free } := by
  have h₁ : ¬ p.next ≤ r := by have := h.1; omega
  simp [Registers.release, h₁, h.2]

theorem WellFormed.release (h : p.WellFormed) (hr : p.release r = .ok q) : q.WellFormed := by
  obtain ⟨hl, rfl⟩ := release_ok hr
  refine ⟨List.nodup_cons.mpr ⟨hl.2, h.nodup⟩, fun x hx => ?_⟩
  rcases List.mem_cons.mp hx with rfl | hx
  · exact hl.1
  · exact h.lt_next x hx

theorem WellFormed.take (h : p.WellFormed) (ht : p.take r = .ok q) : q.WellFormed := by
  unfold Registers.take at ht
  split_ifs at ht with h₁ h₂ h₃ <;> cases ht
  · exact ⟨h.nodup.erase r, fun x hx => h.lt_next x (List.mem_of_mem_erase hx)⟩
  · refine ⟨?_, fun x hx => ?_⟩
    · refine List.nodup_append.mpr ⟨List.nodup_range', h.nodup, fun a ha b hb he => ?_⟩
      have := h.lt_next b hb
      have := (List.mem_range'_1.mp ha).1
      omega
    · rcases List.mem_append.mp hx with hx | hx
      · have := (List.mem_range'_1.mp hx).2
        simp only
        omega
      · have := h.lt_next x hx
        simp only
        omega

theorem not_isLive_alloc : ¬ p.IsLive p.alloc.2 := by
  unfold Registers.alloc IsLive
  split <;> rename_i hf <;> simp [hf]

theorem WellFormed.isLive_alloc (h : p.WellFormed) {x : Nat} :
    p.alloc.1.IsLive x ↔ p.IsLive x ∨ x = p.alloc.2 := by
  have hn := h.nodup
  have hl := h.lt_next
  unfold Registers.alloc IsLive
  cases hf : p.free with
  | nil =>
    simp only [List.not_mem_nil, not_false_eq_true, and_true]
    omega
  | cons y ys =>
    rw [hf] at hn hl
    constructor
    · rintro ⟨hx, hxs⟩
      by_cases he : x = y
      · exact Or.inr he
      · exact Or.inl ⟨hx, by simpa [he] using hxs⟩
    · rintro (⟨hx, hxs⟩ | rfl)
      · exact ⟨hx, fun hm => hxs (List.mem_cons_of_mem _ hm)⟩
      · exact ⟨hl x List.mem_cons_self, (List.nodup_cons.mp hn).1⟩

theorem isLive_released {x : Nat} :
    IsLive { p with free := r :: p.free } x ↔ p.IsLive x ∧ x ≠ r := by
  simp only [IsLive, List.mem_cons, not_or]
  tauto

end WellFormed

section Growth

variable {p q : Registers} {r : Nat}

theorem next_le_alloc (p : Registers) : p.next ≤ p.alloc.1.next := by
  unfold alloc
  split
  · exact Nat.le_refl _
  · exact Nat.le_succ _

theorem WellFormed.lt_alloc (h : p.WellFormed) : p.alloc.2 < p.alloc.1.next :=
  (h.isLive_alloc.mpr (Or.inr rfl)).1

theorem next_le_take (h : p.take r = .ok q) : p.next ≤ q.next := by
  unfold take at h
  split_ifs at h with _ hr _ <;> cases h
  · exact Nat.le_refl _
  · exact Nat.le_succ_of_le (Nat.not_lt.mp hr)

end Growth

end ScriptC.Registers
