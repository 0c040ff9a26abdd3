import Mathlib.Tactic.Common

/-! # Runs with a trace

A machine is a function that takes one step and says what it did. A run is a number of steps, and
its trace is what they did, in order.
-/

namespace ScriptC

/-- An outcome and the trace that led to it. -/
abbrev Traced (ε α : Type) := α × List ε

variable {ε σ : Type} {step step' : σ → Option (Traced ε σ)} {m m' m'' : σ} {trace rest : List ε}

/-- Take `n` steps. -/
def runFor (step : σ → Option (Traced ε σ)) : Nat → σ → Option (Traced ε σ)
  | 0, m => some (m, [])
  | n + 1, m => do
    let (m', first) ← step m
    let (m'', rest) ← runFor step n m'
    return (m'', first ++ rest)

/-- Running from `m`, with this trace the machine gets to `m'`. -/
def Reaches (step : σ → Option (Traced ε σ)) (m : σ) (trace : List ε) (m' : σ) : Prop :=
  ∃ n, runFor step n m = some (m', trace)

namespace Reaches

theorem refl (step : σ → Option (Traced ε σ)) (m : σ) : Reaches step m [] m := ⟨0, rfl⟩

theorem of_step (h : step m = some (m', trace)) : Reaches step m trace m' :=
  ⟨1, by simp [runFor, h]⟩

theorem trans (h : Reaches step m trace m') (h' : Reaches step m' rest m'') :
    Reaches step m (trace ++ rest) m'' := by
  obtain ⟨n, hn⟩ := h
  obtain ⟨k, hk⟩ := h'
  induction n generalizing m trace with
  | zero =>
    obtain ⟨rfl, rfl⟩ : m = m' ∧ [] = trace := by simpa [runFor] using hn
    exact ⟨k, by simpa using hk⟩
  | succ n ih =>
    simp only [runFor, Option.bind_eq_bind, Option.bind_eq_some_iff, Option.pure_def,
      Option.some.injEq, Prod.mk.injEq, Prod.exists] at hn
    obtain ⟨m₁, first, hs, m₂, tail, ht, rfl, rfl⟩ := hn
    obtain ⟨j, hj⟩ := ih ht
    exact ⟨j + 1, by simp [runFor, hs, hj]⟩

/-- What each step preserves holds at the end of a run. -/
theorem preserves {I : σ → List ε → Prop}
    (hI : ∀ m trace m' rest, I m trace → step m = some (m', rest) → I m' (trace ++ rest))
    (h : Reaches step m trace m') (hm : I m []) : I m' trace := by
  obtain ⟨n, hn⟩ := h
  suffices ∀ before, I m before → I m' (before ++ trace) from this [] hm
  clear hm
  induction n generalizing m trace with
  | zero =>
    obtain ⟨rfl, rfl⟩ : m = m' ∧ [] = trace := by simpa [runFor] using hn
    simp
  | succ n ih =>
    simp only [runFor, Option.bind_eq_bind, Option.bind_eq_some_iff, Option.pure_def,
      Option.some.injEq, Prod.mk.injEq, Prod.exists] at hn
    obtain ⟨m₁, first, hs, m₂, tail, ht, rfl, rfl⟩ := hn
    intro before hm
    rw [← List.append_assoc]
    exact ih ht _ (hI _ _ _ _ hm hs)

/-- A machine that takes all steps of another has all its runs. -/
theorem mono (hs : ∀ m m' trace, step m = some (m', trace) → step' m = some (m', trace))
    (h : Reaches step m trace m') : Reaches step' m trace m' := by
  obtain ⟨n, hn⟩ := h
  refine ⟨n, ?_⟩
  induction n generalizing m trace with
  | zero => exact hn
  | succ n ih =>
    simp only [runFor, Option.bind_eq_bind, Option.bind_eq_some_iff, Option.pure_def,
      Option.some.injEq, Prod.mk.injEq, Prod.exists] at hn ⊢
    obtain ⟨m₁, first, hm, m₂, tail, ht, rfl, rfl⟩ := hn
    exact ⟨m₁, first, hs _ _ _ hm, m₂, tail, ih ht, rfl, rfl⟩

end Reaches

end ScriptC
