import ScriptC.Proofs.Dominance.Orders

/-! # Chains of dominators

Following the candidates for immediate dominators leads from a node to the entry, through earlier
and earlier nodes. Two such chains share what lies above the node where they meet.
-/

namespace ScriptC.Dominators

section Definitions

variable (g : Graph) (idom : Array (Option Nat))

def Known (n : Nat) : Prop := (idom.getD n none).isSome = true

/-- The chain of `n` passes through `x`. -/
inductive Above : Nat → Nat → Prop
  | refl (n : Nat) : Above n n
  | up {n d x : Nat} : idom.getD n none = some d → n ≠ g.entry → Above d x → Above n x

/-- What is known is known of reachable nodes. Chains go to earlier nodes and miss no dominator. -/
structure Sound : Prop where
  size_eq : idom.size = g.nodes.size
  entry : idom.getD g.entry none = some g.entry
  reachable : ∀ {n : Nat}, Known idom n → g.Reachable n
  known : ∀ {n d : Nat}, idom.getD n none = some d → n ≠ g.entry → Known idom d
  descends : ∀ {n d : Nat}, idom.getD n none = some d → n ≠ g.entry → position g d < position g n
  dominates : ∀ {n d x : Nat}, idom.getD n none = some d → n ≠ g.entry →
    g.StrictlyDominates x n → g.Dominates x d

end Definitions

variable {g : Graph} {idom idom' : Array (Option Nat)} {n m a b d x y : Nat}

theorem Sound.known_entry (hi : Sound g idom) : Known idom g.entry := by
  rw [Known, hi.entry]
  rfl

namespace Above

theorem trans (h : Above g idom n x) (h' : Above g idom x y) : Above g idom n y := by
  induction h with
  | refl => exact h'
  | up hd hne _ ih => exact .up hd hne (ih h')

theorem eq_entry (h : Above g idom g.entry x) : x = g.entry := by
  cases h with
  | refl => rfl
  | up _ hne _ => exact absurd rfl hne

theorem cases_up (h : Above g idom n x) (hd : idom.getD n none = some d) :
    x = n ∨ n ≠ g.entry ∧ Above g idom d x := by
  cases h with
  | refl => exact .inl rfl
  | up hd' hne hx =>
    cases hd.symm.trans hd'
    exact .inr ⟨hne, hx⟩

theorem reachable (h : Above g idom n x) (hi : Sound g idom) (hn : g.Reachable n) :
    g.Reachable x := by
  induction h with
  | refl => exact hn
  | up hd hne _ ih => exact ih (hi.reachable (hi.known hd hne))

theorem position_le (h : Above g idom n x) (hi : Sound g idom) :
    position g x ≤ position g n := by
  induction h with
  | refl => exact Nat.le_refl _
  | up hd hne _ ih => exact Nat.le_trans ih (hi.descends hd hne).le

theorem eq_of_position_le (h : Above g idom n x) (hi : Sound g idom)
    (hle : position g n ≤ position g x) : x = n := by
  cases h with
  | refl => rfl
  | up hd hne hx =>
    have := hi.descends hd hne
    have := hx.position_le hi
    omega

/-- A chain stays the same if nothing changes at the nodes that it passes. -/
theorem congr (h : Above g idom n x) (hi : Sound g idom)
    (heq : ∀ c, Above g idom n c → position g x < position g c →
      idom'.getD c none = idom.getD c none) : Above g idom' n x := by
  induction h with
  | refl => exact .refl _
  | @up n d x hd hne hx ih =>
    refine .up ?_ hne (ih fun c hc => heq c (.up hd hne hc))
    rw [heq n (.refl n) (Nat.lt_of_le_of_lt (hx.position_le hi) (hi.descends hd hne)), hd]

/-- The last node before position `k` where a chain passes. -/
theorem exists_first (h : Above g idom n x) {k : Nat} (hk : position g x < k)
    (hi : Sound g idom) : ∃ z, Above g idom n z ∧ position g z < k ∧ Above g idom z x ∧
      ∀ c, Above g idom n c → position g z < position g c → k ≤ position g c := by
  induction h with
  | refl n =>
    refine ⟨n, .refl n, hk, .refl n, fun c hc hlt => ?_⟩
    have := hc.position_le hi
    omega
  | @up n d x hd hne hx ih =>
    by_cases hn : position g n < k
    · refine ⟨n, .refl n, hn, .up hd hne hx, fun c hc hlt => ?_⟩
      have := hc.position_le hi
      omega
    · obtain ⟨z, hz, hlt, hzx, hlast⟩ := ih hk
      refine ⟨z, .up hd hne hz, hlt, hzx, fun c hc hp => ?_⟩
      rcases hc.cases_up hd with rfl | ⟨_, hc⟩
      · exact Nat.le_of_not_lt hn
      · exact hlast c hc hp

/-- A dominator of `n` is not skipped on the way from `n` to `y`. -/
theorem dominates (h : Above g idom n y) (hi : Sound g idom) (hx : g.Dominates x n)
    (hle : position g x ≤ position g y) : g.Dominates x y := by
  induction h with
  | refl => exact hx
  | @up n d y hd hne hy ih =>
    refine ih (hi.dominates hd hne ⟨hx, ?_⟩) hle
    rintro rfl
    have := hi.descends hd hne
    have := hy.position_le hi
    omega

end Above

theorem above_of_dominates (hi : Sound g idom) (hn : Known idom n) (hx : g.Dominates x n) :
    Above g idom n x := by
  induction hk : position g n using Nat.strong_induction_on generalizing n with
  | _ k ih =>
    obtain ⟨d, hd⟩ := Option.isSome_iff_exists.mp hn
    by_cases hxn : x = n
    · subst hxn
      exact .refl x
    · have hne : n ≠ g.entry := by
        rintro rfl
        exact hxn (List.mem_singleton.mp (hx _ .entry))
      exact .up hd hne (ih _ (hk ▸ hi.descends hd hne) (hi.known hd hne)
        (hi.dominates hd hne ⟨hx, hxn⟩) rfl)

section Meeting

/-- The walk up two chains, however long it takes. -/
inductive Meets (g : Graph) (idom : Array (Option Nat)) : Nat → Nat → Nat → Prop
  | here (a : Nat) : Meets g idom a a a
  | left {a b d : Nat} : position g b < position g a → Meets g idom (up g idom a) b d →
      Meets g idom a b d
  | right {a b d : Nat} : position g a < position g b → Meets g idom a (up g idom b) d →
      Meets g idom a b d

/-- The later of two nodes is not the entry, and its chain goes on. -/
theorem getD_up (hg : g.Ordered) (ha : Known idom a) (h : position g b < position g a) :
    idom.getD a none = some (up g idom a) ∧ a ≠ g.entry := by
  obtain ⟨d, hd⟩ := Option.isSome_iff_exists.mp ha
  refine ⟨by rw [up, hd]; rfl, ?_⟩
  rintro rfl
  rw [hg.position_entry] at h
  omega

theorem meets_meet (hg : g.Ordered) (hi : Sound g idom) : ∀ {steps a b : Nat}, Known idom a →
    Known idom b → position g a + position g b < steps → Meets g idom a b (meet g idom steps a b)
  | steps + 1, a, b, ha, hb, hlt => by
    rw [meet]
    split
    · subst b
      exact .here a
    · rename_i hab
      split
      · rename_i h
        obtain ⟨hd, hne⟩ := getD_up hg ha h
        have := hi.descends hd hne
        exact .left h (meets_meet hg hi (hi.known hd hne) hb (by omega))
      · have h : position g a < position g b := by
          have := mt (hg.position_inj (hi.reachable ha) (hi.reachable hb)) hab
          omega
        obtain ⟨hd, hne⟩ := getD_up hg hb h
        have := hi.descends hd hne
        exact .right h (meets_meet hg hi ha (hi.known hd hne) (by omega))

theorem above_iff_of_lt (hg : g.Ordered) (hi : Sound g idom) (ha : Known idom a)
    (h : position g b < position g a) :
    Above g idom a x ∧ Above g idom b x ↔ Above g idom (up g idom a) x ∧ Above g idom b x := by
  obtain ⟨hd, hne⟩ := getD_up hg ha h
  constructor
  · rintro ⟨hx, hbx⟩
    rcases hx.cases_up hd with rfl | ⟨_, hx⟩
    · have := hbx.position_le hi
      omega
    · exact ⟨hx, hbx⟩
  · rintro ⟨hx, hbx⟩
    exact ⟨.up hd hne hx, hbx⟩

theorem Meets.above_iff (h : Meets g idom a b d) (hg : g.Ordered) (hi : Sound g idom)
    (ha : Known idom a) (hb : Known idom b) :
    Known idom d ∧ ∀ x, Above g idom d x ↔ Above g idom a x ∧ Above g idom b x := by
  induction h with
  | here a => exact ⟨ha, fun x => (and_self_iff).symm⟩
  | left hlt _ ih =>
    obtain ⟨hd, hne⟩ := getD_up hg ha hlt
    obtain ⟨hk, hx⟩ := ih (hi.known hd hne) hb
    exact ⟨hk, fun x => (hx x).trans (above_iff_of_lt hg hi ha hlt).symm⟩
  | right hlt _ ih =>
    obtain ⟨hd, hne⟩ := getD_up hg hb hlt
    obtain ⟨hk, hx⟩ := ih ha (hi.known hd hne)
    refine ⟨hk, fun x => (hx x).trans ?_⟩
    rw [and_comm, ← above_iff_of_lt hg hi hb hlt, and_comm]

/-- The predecessors merged one after the other, each walk as long as it takes. -/
inductive Merges (g : Graph) (idom : Array (Option Nat)) :
    Option Nat → List Nat → Option Nat → Prop
  | done (found : Option Nat) : Merges g idom found [] found
  | skip {found r : Option Nat} {p : Nat} {ps : List Nat} : idom.getD p none = none →
      Merges g idom found ps r → Merges g idom found (p :: ps) r
  | first {r : Option Nat} {p : Nat} {ps : List Nat} : Known idom p →
      Merges g idom (some p) ps r → Merges g idom none (p :: ps) r
  | next {r : Option Nat} {c d p : Nat} {ps : List Nat} : Known idom p → Meets g idom c p d →
      Merges g idom (some d) ps r → Merges g idom (some c) (p :: ps) r

theorem merges_foldl (hg : g.Ordered) (hi : Sound g idom) (ps : List Nat) :
    ∀ found : Option Nat, (∀ c ∈ found, Known idom c) →
      Merges g idom found ps (ps.foldl (merge g idom) found) := by
  induction ps with
  | nil => exact fun found _ => .done found
  | cons p ps ih =>
    intro found hf
    rw [List.foldl_cons]
    by_cases hp : Known idom p
    · obtain ⟨e, he⟩ := Option.isSome_iff_exists.mp hp
      rcases found with _ | c
      · rw [show merge g idom none p = some p by simp only [merge, he]]
        exact .first hp (ih (some p) (by rintro c ⟨⟩; exact hp))
      · have hc : Known idom c := hf c rfl
        have hlt : position g c + position g p < 2 * g.nodes.size := by
          have := hg.position_lt (hi.reachable hc)
          have := hg.position_lt (hi.reachable hp)
          omega
        have hm := meets_meet hg hi hc hp hlt
        rw [show merge g idom (some c) p = some (meet g idom (2 * g.nodes.size) c p) by
          simp only [merge, he]]
        exact .next hp hm (ih _ (by rintro d ⟨⟩; exact (hm.above_iff hg hi hc hp).1))
    · have he : idom.getD p none = none := by simpa [Known] using hp
      rw [show merge g idom found p = found by simp only [merge, he]]
      exact .skip he (ih found hf)

theorem Merges.above_iff {found r : Option Nat} {ps : List Nat} (h : Merges g idom found ps r)
    (hg : g.Ordered) (hi : Sound g idom) (hf : ∀ c ∈ found, Known idom c) :
    (r = none → found = none ∧ ∀ p ∈ ps, ¬ Known idom p) ∧
    ∀ d, r = some d → Known idom d ∧ ∀ x, Above g idom d x ↔
      (∀ c ∈ found, Above g idom c x) ∧ ∀ p ∈ ps, Known idom p → Above g idom p x := by
  induction h with
  | done found =>
    refine ⟨by simp, ?_⟩
    rintro d rfl
    exact ⟨hf d rfl, by simp⟩
  | @skip _ _ p _ hp _ ih =>
    have hp' : ¬ Known idom p := by simp only [Known, hp, Option.isSome_none]; decide
    simpa [hp'] using ih hf
  | first hp _ ih => simpa [hp] using ih (by rintro c ⟨⟩; exact hp)
  | next hp hm _ ih =>
    obtain ⟨hd, hx⟩ := hm.above_iff hg hi (hf _ rfl) hp
    simpa [hp, hx, and_assoc] using ih (by rintro c ⟨⟩; exact hd)

theorem merges_candidate (hg : g.Ordered) (hi : Sound g idom) (n : Nat) :
    Merges g idom none (g.preds n) (candidate g idom n) :=
  merges_foldl hg hi (g.preds n) none (by simp)

/-- Above the candidate is what all chains of known predecessors share. -/
theorem exists_candidate (hg : g.Ordered) (hi : Sound g idom) {p : Nat} (hp : p ∈ g.preds n)
    (hk : Known idom p) : ∃ d, candidate g idom n = some d ∧ Known idom d ∧
      ∀ x, Above g idom d x ↔ ∀ q ∈ g.preds n, Known idom q → Above g idom q x := by
  obtain ⟨hnone, hsome⟩ := (merges_candidate hg hi n).above_iff hg hi (by simp)
  rcases hc : candidate g idom n with _ | d
  · exact absurd hk ((hnone hc).2 p hp)
  · obtain ⟨hd, hx⟩ := hsome d hc
    exact ⟨d, rfl, hd, by simpa using hx⟩

end Meeting

end ScriptC.Dominators
