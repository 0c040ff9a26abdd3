import ScriptC.Proofs.Dominance.Chains

/-! # Passes

A pass goes through the nodes in order and chooses again for each of them. By then the earlier
nodes have their new values and the others still their old ones. After the first pass chains only
lose nodes, so the passes come to an end.
-/

namespace ScriptC.Dominators

variable {g : Graph} {idom idom' old new : Array (Option Nat)} {n m d x : Nat}

section Choices

/-- Before `n` the array holds the new values, from `n` on the old ones. -/
structure Mixed (g : Graph) (old new mixed : Array (Option Nat)) (n : Nat) : Prop where
  sound : Sound g mixed
  before : ∀ {m : Nat}, g.Reachable m → position g m < position g n →
    mixed.getD m none = new.getD m none
  after : ∀ {m : Nat}, g.Reachable m → position g n ≤ position g m →
    mixed.getD m none = old.getD m none

/-- The value of `n` was chosen when the nodes before it had been refined. -/
def Chosen (g : Graph) (old new : Array (Option Nat)) (n : Nat) : Prop :=
  ∃ mixed d, Mixed g old new mixed n ∧ new.getD n none = some d ∧ position g d < position g n ∧
    ∀ x, Above g mixed d x ↔ ∀ q ∈ g.preds n, Known mixed q → Above g mixed q x

/-- The nodes `done` have been refined. -/
structure Refined (g : Graph) (old : Array (Option Nat)) (done : List Nat)
    (new : Array (Option Nat)) : Prop where
  sound : Sound g new
  chosen : ∀ n ∈ done, Chosen g old new n
  same : ∀ n, n ∉ done → new.getD n none = old.getD n none

theorem getD_set (idom : Array (Option Nat)) {n : Nat} (hn : n < idom.size) (d m : Nat) :
    (idom.setIfInBounds n (some d)).getD m none =
      if m = n then some d else idom.getD m none := by
  simp only [Array.getD_eq_getD_getElem?, Array.getElem?_setIfInBounds, eq_comm (a := n), if_pos hn]
  split <;> rfl

theorem eq_of_getD (hs : idom'.size = idom.size)
    (h : ∀ n, idom'.getD n none = idom.getD n none) : idom' = idom := by
  apply Array.ext hs
  intro n h₁ h₂
  simpa [Array.getD_eq_getD_getElem?, h₁, h₂] using h n

theorem Sound.set (hg : g.Ordered) (hi : Sound g idom) (hn : g.Reachable n) (hne : n ≠ g.entry)
    (hd : Known idom d) (hlt : position g d < position g n)
    (hdom : ∀ x, g.StrictlyDominates x n → g.Dominates x d) :
    Sound g (idom.setIfInBounds n (some d)) := by
  have hget := getD_set idom (hi.size_eq ▸ hg.lt_size hn) d
  have hknown {m : Nat} (h : Known idom m) : Known (idom.setIfInBounds n (some d)) m := by
    rw [Known, hget]
    split
    · rfl
    · exact h
  constructor
  · rw [Array.size_setIfInBounds, hi.size_eq]
  · rw [hget, if_neg hne.symm, hi.entry]
  · intro m hm
    rw [Known, hget] at hm
    split at hm
    · rename_i h
      exact h ▸ hn
    · exact hi.reachable hm
  all_goals
    intro m e
    rw [hget]
    split
  · rintro ⟨⟩ _
    exact hknown hd
  · exact fun he hm => hknown (hi.known he hm)
  · rename_i h
    rintro ⟨⟩ _
    exact h ▸ hlt
  · exact hi.descends
  · rename_i h
    rintro x ⟨⟩ _ hx
    exact hdom x (h ▸ hx)
  · exact hi.dominates

theorem Refined.nil (hi : Sound g old) : Refined g old [] old := by
  constructor
  · exact hi
  · intro n hn
    cases hn
  · exact fun n _ => rfl

/-- The node whose turn it is has a predecessor about which something is known. -/
theorem Refined.exists_candidate (hg : g.Ordered) {done : List Nat}
    (h : Refined g old done idom) (hn : g.Reachable n) (hne : n ≠ g.entry)
    (hdone : ∀ m, g.Reachable m → m ≠ g.entry → position g m < position g n → m ∈ done) :
    ∃ d, candidate g idom n = some d ∧ Known idom d ∧ position g d < position g n ∧
      (∀ x, g.StrictlyDominates x n → g.Dominates x d) ∧
      ∀ x, Above g idom d x ↔ ∀ q ∈ g.preds n, Known idom q → Above g idom q x := by
  obtain ⟨p, hp, hr, hlt⟩ := hg.exists_parent hn hne
  have hk : Known idom p := by
    by_cases hpe : p = g.entry
    · exact hpe ▸ h.sound.known_entry
    · obtain ⟨_, e, _, he, _⟩ := h.chosen p (hdone p hr hpe hlt)
      rw [Known, he]
      rfl
  obtain ⟨d, hc, hd, hx⟩ := Dominators.exists_candidate hg h.sound hp hk
  have hpd : Above g idom p d := (hx d).mp (.refl d) p hp hk
  refine ⟨d, hc, hd, Nat.lt_of_le_of_lt (hpd.position_le h.sound) hlt, ?_, hx⟩
  rintro x ⟨hxn, hxne⟩
  -- a dominator of `n` dominates the predecessors, so all their chains pass through it
  have hxq {q : Nat} (hq : q ∈ g.preds n) : g.Dominates x q :=
    hxn.of_mem_succs hxne (hg.mem_preds.mp hq)
  have hdx : Above g idom d x :=
    (hx x).mpr fun q hq hk => above_of_dominates h.sound hk (hxq hq)
  exact hpd.dominates h.sound (hxq hp) (hdx.position_le h.sound)

theorem Refined.snoc {done : List Nat} (h : Refined g old done idom)
    (hn : g.Reachable n) (hbefore : ∀ m ∈ done, position g m < position g n)
    (hi : Sound g idom')
    (hget : ∀ m, idom'.getD m none = if m = n then some d else idom.getD m none)
    (hlt : position g d < position g n)
    (hx : ∀ x, Above g idom d x ↔ ∀ q ∈ g.preds n, Known idom q → Above g idom q x) :
    Refined g old (done ++ [n]) idom' := by
  have hother {m k : Nat} (hm : position g m < position g k) (hk : position g k ≤ position g n) :
      idom'.getD m none = idom.getD m none := by
    rw [hget, if_neg]
    rintro rfl
    omega
  constructor
  · exact hi
  · intro m hm
    rcases List.mem_append.mp hm with hm | hm
    · obtain ⟨c, e, hc, he, hlt, hx⟩ := h.chosen m hm
      have hmn := hbefore m hm
      refine ⟨c, e, ⟨hc.sound, ?_, hc.after⟩, (hother hmn le_rfl).trans he, hlt, hx⟩
      intro k hk hkm
      exact (hc.before hk hkm).trans (hother hkm hmn.le).symm
    · cases List.mem_singleton.mp hm
      refine ⟨idom, d, ⟨h.sound, ?_, ?_⟩, by rw [hget, if_pos rfl], hlt, hx⟩
      · exact fun _ hkn => (hother hkn le_rfl).symm
      · intro k _ hnk
        refine h.same k fun hk => ?_
        have := hbefore k hk
        omega
  · intro m hm
    rw [List.mem_append, List.mem_singleton, not_or] at hm
    rw [hget, if_neg hm.2, h.same m hm.1]

end Choices

section Loops

/-- A pass over the nodes, each walk up the chains as long as it takes. -/
inductive Refines (g : Graph) :
    Array (Option Nat) × Bool → List Nat → Array (Option Nat) × Bool → Prop
  | done (s : Array (Option Nat) × Bool) : Refines g s [] s
  | keep {idom : Array (Option Nat)} {changed : Bool} {n : Nat} {ns : List Nat}
      {s : Array (Option Nat) × Bool} {r : Option Nat} : Merges g idom none (g.preds n) r →
      (r = none ∨ idom.getD n none = r) → Refines g (idom, changed) ns s →
      Refines g (idom, changed) (n :: ns) s
  | set {idom : Array (Option Nat)} {changed : Bool} {n d : Nat} {ns : List Nat}
      {s : Array (Option Nat) × Bool} : Merges g idom none (g.preds n) (some d) →
      idom.getD n none ≠ some d → Refines g (idom.setIfInBounds n (some d), true) ns s →
      Refines g (idom, changed) (n :: ns) s

/-- Passes until one changes nothing, however many it takes. -/
inductive Iterates (g : Graph) : Array (Option Nat) → Array (Option Nat) → Prop
  | last {idom final : Array (Option Nat)} :
      Refines g (idom, false) (g.rpo.filter (· != g.entry)) (final, false) → Iterates g idom final
  | next {idom mid final : Array (Option Nat)} :
      Refines g (idom, false) (g.rpo.filter (· != g.entry)) (mid, true) → Iterates g mid final →
      Iterates g idom final

theorem mem_targets (hg : g.Ordered) :
    n ∈ g.rpo.filter (· != g.entry) ↔ g.Reachable n ∧ n ≠ g.entry := by
  rw [List.mem_filter, hg.mem_rpo, bne_iff_ne]

/-- When it is the turn of `n`, exactly the nodes before it have been refined. -/
theorem turn_of_targets (hg : g.Ordered) {done rest : List Nat}
    (hl : g.rpo.filter (· != g.entry) = done ++ n :: rest) :
    (g.Reachable n ∧ n ≠ g.entry) ∧ n ∉ rest ∧ (∀ m ∈ done, position g m < position g n) ∧
      ∀ m, g.Reachable m → m ≠ g.entry → position g m < position g n → m ∈ done := by
  have hsorted : (done ++ n :: rest).Pairwise fun a b => position g a < position g b := by
    rw [← hl]
    exact hg.pairwise_rpo.filter _
  obtain ⟨_, hcons, hcross⟩ := List.pairwise_append.mp hsorted
  have hrest := (List.pairwise_cons.mp hcons).1
  refine ⟨(mem_targets hg).mp (hl ▸ List.mem_append_right done List.mem_cons_self), ?_,
    fun m hm => hcross m hm n List.mem_cons_self, ?_⟩
  · intro hn
    exact Nat.lt_irrefl _ (hrest n hn)
  · intro m hm hme hlt
    have hmem := (mem_targets hg).mpr ⟨hm, hme⟩
    rw [hl] at hmem
    rcases List.mem_append.mp hmem with hmem | hmem
    · exact hmem
    · rcases List.mem_cons.mp hmem with rfl | hmem
      · exact absurd hlt (Nat.lt_irrefl _)
      · exact absurd hlt (Nat.lt_asymm (hrest m hmem))

theorem Refined.step (hg : g.Ordered) {done rest : List Nat} (h : Refined g old done idom)
    (hl : g.rpo.filter (· != g.entry) = done ++ n :: rest) (changed : Bool) :
    ∃ idom' flag, refine g (idom, changed) n = (idom', flag) ∧
      Refined g old (done ++ [n]) idom' ∧
      (∀ m, m ≠ n → idom'.getD m none = idom.getD m none) ∧
      (flag = true ↔ changed = true ∨ idom'.getD n none ≠ idom.getD n none) ∧
      ∀ s, Refines g (idom', flag) rest s → Refines g (idom, changed) (n :: rest) s := by
  obtain ⟨⟨hn, hne⟩, _, hbefore, hdone⟩ := turn_of_targets hg hl
  obtain ⟨d, hc, hd, hlt, hdom, hx⟩ := h.exists_candidate hg hn hne hdone
  have hm := merges_candidate hg h.sound n
  rw [hc] at hm
  by_cases hsame : idom.getD n none = some d
  · refine ⟨idom, changed, by simp only [refine, hc, hsame, if_true], ?_, fun _ _ => rfl, by simp,
      fun _ => .keep hm (.inr hsame)⟩
    refine h.snoc hn hbefore h.sound (fun m => ?_) hlt hx
    split
    · rename_i hmn
      rw [hmn, hsame]
    · rfl
  · have hget := getD_set idom (h.sound.size_eq ▸ hg.lt_size hn) d
    refine ⟨idom.setIfInBounds n (some d), true, by simp only [refine, hc, hsame, if_false], ?_,
      fun m hmn => by rw [hget, if_neg hmn], ?_, fun _ => .set hm hsame⟩
    · exact h.snoc hn hbefore (h.sound.set hg hn hne hd hlt hdom) hget hlt hx
    · rw [hget, if_pos rfl]
      exact iff_of_true rfl (.inr (Ne.symm hsame))

/-- One after the other, the nodes are refined, and the flag tells whether one has changed. -/
theorem refined_foldl (hg : g.Ordered) (rest : List Nat) : ∀ (done : List Nat)
    (idom : Array (Option Nat)) (changed : Bool), g.rpo.filter (· != g.entry) = done ++ rest →
    Refined g old done idom → ∃ new flag, rest.foldl (refine g) (idom, changed) = (new, flag) ∧
      Refined g old (done ++ rest) new ∧ Refines g (idom, changed) rest (new, flag) ∧
      (∀ n, n ∉ rest → new.getD n none = idom.getD n none) ∧
      (flag = true ↔ changed = true ∨ ∃ n ∈ rest, new.getD n none ≠ idom.getD n none) := by
  induction rest with
  | nil =>
    intro done idom changed _ h
    exact ⟨idom, changed, rfl, by simpa using h, .done _, fun _ _ => rfl, by simp⟩
  | cons n rest ih =>
    intro done idom changed hl h
    obtain ⟨_, hn, _⟩ := turn_of_targets hg hl
    obtain ⟨mid, flag, hstep, hmid, hother, hflag, hrefines⟩ := h.step hg hl changed
    obtain ⟨new, flag', hfold, hnew, hrest, hsame, hflag'⟩ := ih (done ++ [n]) mid flag
      (by simpa using hl) hmid
    rw [List.foldl_cons, hstep]
    refine ⟨new, flag', hfold, by simpa using hnew, hrefines _ hrest, ?_, ?_⟩
    · intro m hm
      rw [List.mem_cons, not_or] at hm
      rw [hsame m hm.2, hother m hm.1]
    · have hmid : (∃ m ∈ rest, new.getD m none ≠ mid.getD m none) ↔
          ∃ m ∈ rest, new.getD m none ≠ idom.getD m none := by
        refine exists_congr fun m => and_congr_right fun hm => ?_
        rw [hother m (fun h => hn (h ▸ hm))]
      rw [hflag', hflag, hmid, ← hsame n hn, or_assoc]
      simp

/-- What a pass does. -/
theorem exists_pass (hg : g.Ordered) (hi : Sound g old) : ∃ new flag, pass g old = (new, flag) ∧
    Refined g old (g.rpo.filter (· != g.entry)) new ∧
    Refines g (old, false) (g.rpo.filter (· != g.entry)) (new, flag) ∧
    (flag = true ↔ ∃ n, g.Reachable n ∧ n ≠ g.entry ∧ new.getD n none ≠ old.getD n none) ∧
    (flag = false → new = old) := by
  obtain ⟨new, flag, hpass, hnew, hrefines, hsame, hflag⟩ :=
    refined_foldl hg _ [] old false (List.nil_append _).symm (.nil hi)
  refine ⟨new, flag, hpass, hnew, hrefines, ?_, ?_⟩
  · rw [hflag]
    simp [mem_targets hg, and_assoc]
  · rintro rfl
    apply eq_of_getD
    · rw [hnew.sound.size_eq, hi.size_eq]
    · intro n
      by_contra hn
      have hm := not_imp_comm.mp (hsame n) hn
      exact absurd (hflag.mpr (.inr ⟨n, hm, hn⟩)) (by decide)

end Loops

end ScriptC.Dominators
