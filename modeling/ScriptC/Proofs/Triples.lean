import ScriptC.Proofs.Runs

/-! # Triples of lowering actions

An action meets a precondition and a postcondition if every run from a state with the first ends in
the second. What a failing run may end in is fixed for a whole development.
-/

namespace ScriptC.Lower

variable {α β γ : Type} {E : Failure → LoweringState → Prop} {P P' : LoweringState → Prop}
  {Q Q' : α → LoweringState → Prop} {R : β → LoweringState → Prop}

/-- From every state with `P`, success of `x` ends in `Q` and failure in `E`. -/
def Meets (E : Failure → LoweringState → Prop) (P : LoweringState → Prop) (x : Lower α)
    (Q : α → LoweringState → Prop) : Prop :=
  ∀ s, P s → Ends x s Q E

section Rules

theorem Meets.bind {x : Lower α} {f : α → Lower β} (hx : Meets E P x Q)
    (hf : ∀ a, Meets E (Q a) (f a) R) : Meets E P (x >>= f) R := by
  intro s hs
  rw [ends_bind]
  exact (hx s hs).imp fun a s' h => hf a s' h

theorem Meets.post {x : Lower α} (hx : Meets E P x Q) (h : ∀ a s, Q a s → Q' a s) :
    Meets E P x Q' :=
  fun s hs => (hx s hs).imp h

theorem Meets.pre {x : Lower α} (hx : Meets E P x Q) (h : ∀ s, P' s → P s) : Meets E P' x Q :=
  fun s hs => hx s (h s hs)

theorem Meets.of_and {A : Prop} {x : Lower α} (h : A → Meets E P x Q) :
    Meets E (fun s => A ∧ P s) x Q :=
  fun s hs => h hs.1 s hs.2

theorem meets_pure {a : α} (h : ∀ s, P s → Q a s) : Meets E P (pure a) Q := h

theorem Meets.ite {c : Prop} [Decidable c] {x y : Lower α} (hx : c → Meets E P x Q)
    (hy : ¬ c → Meets E P y Q) : Meets E P (if c then x else y) Q := by
  split
  · exact hx ‹c›
  · exact hy ‹¬ c›

/-- What is left to do is known before each step. -/
theorem meets_forM {I : List γ → LoweringState → Prop} {f : γ → Lower Unit}
    (h : ∀ a l, Meets E (I (a :: l)) (f a) fun _ => I l) (l : List γ) :
    Meets E (I l) (l.forM f) fun _ => I [] := by
  induction l with
  | nil => exact meets_pure fun _ hs => hs
  | cons a l ih => exact (h a l).bind fun _ => ih

end Rules

end ScriptC.Lower
