import Mathlib.Algebra.Group.Action.Defs
import Mathlib.Algebra.Order.BigOperators.Group.List
import Mathlib.Algebra.Order.Ring.Nat
import ScriptC.Proofs.Dominance.Passes

/-! # Exactness of dominator trees

After the first pass every further pass shortens chains, and only a pass that changes nothing is
the last. Then a chain passes through exactly the dominators of its node.
-/

namespace ScriptC.Dominators

variable {g : Graph} {old new mixed : Array (Option Nat)} {n m p x z : Nat}

section Shortening

/-- What holds after every pass. -/
structure Settled (g : Graph) (idom : Array (Option Nat)) : Prop extends Sound g idom where
  total : ∀ {n : Nat}, g.Reachable n → Known idom n
  /-- A chain that starts at `n` continues on the chain of each predecessor before `n`. -/
  forward : ∀ {n q x : Nat}, n ≠ g.entry → q ∈ g.preds n → g.Reachable q →
    position g q < position g n → Above g idom n x → x = n ∨ Above g idom q x
  /-- What the chains of all predecessors share is not lost. -/
  shared : ∀ {n x : Nat}, g.Reachable n → n ≠ g.entry → position g x < position g n →
    (∀ q ∈ g.preds n, g.Reachable q → Above g idom q x) → Above g idom n x

theorem Mixed.above_iff (hm : Mixed g old new mixed n) (hn : Sound g new) (hp : g.Reachable p)
    (hlt : position g p < position g n) : Above g mixed p x ↔ Above g new p x := by
  constructor
  · intro h
    refine h.congr hm.sound fun c hc _ => (hm.before (hc.reachable hm.sound hp) ?_).symm
    exact Nat.lt_of_le_of_lt (hc.position_le hm.sound) hlt
  · intro h
    refine h.congr hn fun c hc _ => hm.before (hc.reachable hn hp) ?_
    exact Nat.lt_of_le_of_lt (hc.position_le hn) hlt

/-- Before `n` a mixed chain is a new one, and until then it is an old one. -/
theorem Mixed.above_old (hm : Mixed g old new mixed n) (hn : Sound g new)
    (hbefore : ∀ {p x : Nat}, g.Reachable p → position g p < position g n → Above g new p x →
      Above g old p x) (hp : g.Reachable p) (hx : Above g mixed p x) : Above g old p x := by
  induction hx with
  | refl => exact .refl _
  | @up p d x hd hne hx ih =>
    rcases Nat.lt_or_ge (position g p) (position g n) with hlt | hge
    · exact hbefore hp hlt ((hm.above_iff hn hp hlt).mp (.up hd hne hx))
    · have hr := hm.sound.reachable (hm.sound.known hd hne)
      exact .up ((hm.after hp hge).symm.trans hd) hne (ih hr)

section

variable (hg : g.Ordered) (h : Refined g old (g.rpo.filter (· != g.entry)) new)
include hg h

theorem Refined.exists_mixed (hn : g.Reachable n) (hne : n ≠ g.entry) :
    ∃ mixed, Mixed g old new mixed n ∧ ∀ x, Above g new n x ↔
      x = n ∨ ∀ q ∈ g.preds n, Known mixed q → Above g mixed q x := by
  obtain ⟨mixed, d, hm, hd, hlt, hx⟩ := h.chosen n ((mem_targets hg).mpr ⟨hn, hne⟩)
  have hr : g.Reachable d := h.sound.reachable (h.sound.known hd hne)
  refine ⟨mixed, hm, fun x => ?_⟩
  rw [← hx, hm.above_iff h.sound hr hlt]
  constructor
  · intro hnx
    exact (hnx.cases_up hd).imp_right And.right
  · rintro (rfl | hdx)
    · exact .refl x
    · exact .up hd hne hdx

theorem Refined.total (hn : g.Reachable n) : Known new n := by
  by_cases hne : n = g.entry
  · exact hne ▸ h.sound.known_entry
  · obtain ⟨_, d, _, hd, _⟩ := h.chosen n ((mem_targets hg).mpr ⟨hn, hne⟩)
    rw [Known, hd]
    rfl

theorem Refined.forward (hne : n ≠ g.entry) (hp : p ∈ g.preds n) (hr : g.Reachable p)
    (hlt : position g p < position g n) (hx : Above g new n x) : x = n ∨ Above g new p x := by
  obtain ⟨mixed, hm, hiff⟩ := h.exists_mixed hg (hr.step (hg.mem_preds.mp hp)) hne
  have hk : Known mixed p := by
    rw [Known, hm.before hr hlt]
    exact h.total hg hr
  exact ((hiff x).mp hx).imp_right fun hq => (hm.above_iff h.sound hr hlt).mp (hq p hp hk)

variable (ho : Settled g old)
include ho

theorem Refined.known_mixed (hm : Mixed g old new mixed n) (hp : g.Reachable p) :
    Known mixed p := by
  rcases Nat.lt_or_ge (position g p) (position g n) with hlt | hge
  · rw [Known, hm.before hp hlt]
    exact h.total hg hp
  · rw [Known, hm.after hp hge]
    exact ho.total hp

/-- A pass only removes nodes from chains. -/
theorem Refined.above_old (hn : g.Reachable n) (hx : Above g new n x) : Above g old n x := by
  induction hk : position g n using Nat.strong_induction_on generalizing n x with
  | _ k ih =>
    subst hk
    by_cases hne : n = g.entry
    · subst hne
      cases hx.eq_entry
      exact .refl _
    obtain ⟨mixed, hm, hiff⟩ := h.exists_mixed hg hn hne
    rcases (hiff x).mp hx with rfl | hq
    · exact .refl x
    · have hbefore {p x : Nat} (hp : g.Reachable p) (hlt : position g p < position g n)
          (hpx : Above g new p x) : Above g old p x := ih _ hlt hp hpx rfl
      by_cases hxn : position g n ≤ position g x
      · cases hx.eq_of_position_le h.sound hxn
        exact .refl _
      · refine ho.shared hn hne (Nat.lt_of_not_le hxn) fun q hqn hr => ?_
        exact hm.above_old h.sound hbefore hr (hq q hqn (h.known_mixed hg ho hm hr))

/-- What an old chain passes through still leads to everything above it. -/
theorem Refined.above_of_old (hp : g.Reachable p) (hz : Above g old p z) (hx : Above g new p x)
    (hle : position g x ≤ position g z) : Above g new z x := by
  induction hk : position g p using Nat.strong_induction_on generalizing p with
  | _ k ih =>
    subst hk
    by_cases hpz : z = p
    · exact hpz ▸ hx
    have hne : p ≠ g.entry := by
      rintro rfl
      exact hpz hz.eq_entry
    have hxp : x ≠ p := by
      rintro rfl
      exact hpz (hz.eq_of_position_le ho.toSound hle)
    obtain ⟨q, hq, hr, hlt⟩ := hg.exists_parent hp hne
    have hzq := (ho.forward hne hq hr hlt hz).resolve_left hpz
    have hxq := (h.forward hg hne hq hr hlt hx).resolve_left hxp
    exact ih _ hlt hr hzq hxq rfl

/-- The old chain of a later predecessor leads to what its new chain passes before `n`. -/
theorem Refined.above_mixed (hm : Mixed g old new mixed n) (hp : g.Reachable p)
    (hx : Above g new p x) (hlt : position g x < position g n) : Above g mixed p x := by
  have hox := h.above_old hg ho hp hx
  obtain ⟨z, hz, hzn, hzx, hfirst⟩ := hox.exists_first hlt ho.toSound
  have hr := hz.reachable ho.toSound hp
  have hmz : Above g mixed p z := hz.congr ho.toSound fun c hc hzc =>
    hm.after (hc.reachable ho.toSound hp) (hfirst c hc hzc)
  have hzx' : Above g new z x := h.above_of_old hg ho hp hz hx (hzx.position_le ho.toSound)
  exact hmz.trans ((hm.above_iff h.sound hr hzn).mpr hzx')

end

/-- In the first pass nothing is known but the entry. -/
theorem Refined.settled (hg : g.Ordered) (h : Refined g old (g.rpo.filter (· != g.entry)) new)
    (ho : Settled g old ∨ ∀ n, Known old n → n = g.entry) : Settled g new := by
  refine ⟨h.sound, h.total hg, h.forward hg, ?_⟩
  intro n x hn hne hlt hq
  obtain ⟨mixed, hm, hiff⟩ := h.exists_mixed hg hn hne
  refine (hiff x).mpr (.inr fun q hqn hk => ?_)
  have hr := hm.sound.reachable hk
  rcases ho with ho | ho
  · exact h.above_mixed hg ho hm hr (hq q hqn hr) hlt
  · have hqn' : position g q < position g n := by
      by_contra hge
      rw [Known, hm.after hr (Nat.le_of_not_lt hge)] at hk
      rw [ho q hk, hg.position_entry] at hge
      omega
    exact (hm.above_iff h.sound hr hqn').mpr (hq q hqn hr)

end Shortening

section Termination

/-- The sum of the positions to which the nodes point. -/
def weight (g : Graph) (idom : Array (Option Nat)) : Nat :=
  (g.rpo.map fun n => position g (up g idom n)).sum

theorem Settled.getD_up (h : Settled g old) (hn : g.Reachable n) :
    old.getD n none = some (up g old n) := by
  obtain ⟨d, hd⟩ := Option.isSome_iff_exists.mp (h.total hn)
  rw [up, hd]
  rfl

theorem Refined.position_up (hg : g.Ordered) (h : Refined g old (g.rpo.filter (· != g.entry)) new)
    (ho : Settled g old) (hs : Settled g new) (hn : g.Reachable n) (hne : n ≠ g.entry) :
    Above g old (up g old n) (up g new n) := by
  have hup := hs.getD_up hn
  have hlt := h.sound.descends hup hne
  have hold := h.above_old hg ho hn (.up hup hne (.refl _))
  rcases hold.cases_up (ho.getD_up hn) with heq | ⟨_, hd⟩
  · rw [heq] at hlt
    exact absurd hlt (Nat.lt_irrefl _)
  · exact hd

/-- A pass that changes something moves a node's value to an earlier position. -/
theorem Refined.weight_lt (hg : g.Ordered) (h : Refined g old (g.rpo.filter (· != g.entry)) new)
    (ho : Settled g old) (hs : Settled g new)
    (hch : ∃ n, g.Reachable n ∧ n ≠ g.entry ∧ new.getD n none ≠ old.getD n none) :
    weight g new < weight g old := by
  obtain ⟨n, hn, hne, hdiff⟩ := hch
  apply List.sum_lt_sum
  · intro m hm
    by_cases hme : m = g.entry
    · rw [hme, up, hs.entry, up, ho.entry]
    · exact (h.position_up hg ho hs (hg.mem_rpo.mp hm) hme).position_le ho.toSound
  · refine ⟨n, hg.mem_rpo.mpr hn, Nat.lt_of_not_le fun hle => hdiff ?_⟩
    rw [hs.getD_up hn, ho.getD_up hn,
      (h.position_up hg ho hs hn hne).eq_of_position_le ho.toSound hle]

theorem exists_iterate (hg : g.Ordered) : ∀ {fuel : Nat} {idom : Array (Option Nat)},
    Settled g idom → weight g idom < fuel → ∃ final, iterate g fuel idom = final ∧
      Iterates g idom final ∧ Settled g final ∧
      Refined g final (g.rpo.filter (· != g.entry)) final
  | fuel + 1, idom, hi, hlt => by
    obtain ⟨new, flag, hpass, hnew, hrefines, hflag, hsame⟩ := exists_pass hg hi.toSound
    have hs := hnew.settled hg (.inl hi)
    rw [iterate, hpass]
    cases flag with
    | false =>
      cases hsame rfl
      exact ⟨_, rfl, .last hrefines, hi, hnew⟩
    | true =>
      have := hnew.weight_lt hg hi hs (hflag.mp rfl)
      obtain ⟨final, hf, hit, hrest⟩ := exists_iterate hg hs (by omega : weight g new < fuel)
      exact ⟨final, hf, .next hrefines hit, hrest⟩

theorem Settled.weight_lt (hg : g.Ordered) (h : Settled g new) :
    weight g new < g.nodes.size * g.nodes.size := by
  have hpos := hg.entry_lt
  have hle : ∀ k ∈ g.rpo.map fun n => position g (up g new n), k ≤ g.nodes.size - 1 := by
    intro k hk
    obtain ⟨n, hn, rfl⟩ := List.mem_map.mp hk
    have hr : g.Reachable (up g new n) := by
      by_cases hne : n = g.entry
      · rw [hne, up, h.entry]
        exact .entry g
      · exact h.reachable (h.known (h.getD_up (hg.mem_rpo.mp hn)) hne)
    have := hg.position_lt hr
    omega
  have hsum := List.sum_le_card_nsmul _ _ hle
  rw [List.length_map, smul_eq_mul] at hsum
  calc weight g new ≤ g.rpo.length * (g.nodes.size - 1) := hsum
    _ ≤ g.nodes.size * (g.nodes.size - 1) := Nat.mul_le_mul_right _ hg.length_rpo_le
    _ < g.nodes.size * g.nodes.size := Nat.mul_lt_mul_of_pos_left (by omega) (by omega)

end Termination

section Results

/-- The chains of a last pass pass through dominators only. -/
theorem Refined.dominates (hg : g.Ordered)
    (h : Refined g new (g.rpo.filter (· != g.entry)) new) (hx : Above g new n x) :
    g.Dominates x n := by
  intro l hl
  induction hl with
  | entry => exact List.mem_singleton.mpr hx.eq_entry
  | @step a b l ha hb ih =>
    by_cases hbe : b = g.entry
    · subst hbe
      rw [hx.eq_entry]
      exact List.mem_cons_self
    obtain ⟨mixed, hm, hiff⟩ := h.exists_mixed hg ⟨_, ha.step hb⟩ hbe
    have hsame {c : Nat} (hc : g.Reachable c) : mixed.getD c none = new.getD c none := by
      rcases Nat.lt_or_ge (position g c) (position g b) with hlt | hge
      · exact hm.before hc hlt
      · exact hm.after hc hge
    rcases (hiff x).mp hx with rfl | hq
    · exact List.mem_cons_self
    · have hk : Known mixed a := by
        rw [Known, hsame ⟨l, ha⟩]
        exact h.total hg ⟨l, ha⟩
      have hax := hq a (hg.mem_preds.mpr hb) hk
      refine List.mem_cons_of_mem b (ih (hax.congr hm.sound fun c hc _ => ?_))
      exact (hsame (hc.reachable hm.sound ⟨l, ha⟩)).symm

/-- At first something is known of the entry only. -/
theorem sound_start (hg : g.Ordered) {start : Array (Option Nat)}
    (hs : start = (Array.replicate g.nodes.size none).setIfInBounds g.entry (some g.entry)) :
    Sound g start ∧ ∀ n, Known start n → n = g.entry := by
  have hget (n : Nat) : start.getD n none = if n = g.entry then some g.entry else none := by
    rw [hs, getD_set _ (by simpa using hg.entry_lt), Array.getD_eq_getD_getElem?,
      Array.getElem?_replicate]
    split
    · rfl
    · split <;> rfl
  have hknown (n : Nat) (hn : Known start n) : n = g.entry := by
    by_contra hne
    rw [Known, hget, if_neg hne] at hn
    cases hn
  have hnone {n d : Nat} (hd : start.getD n none = some d) (hne : n ≠ g.entry) : False := by
    rw [hget, if_neg hne] at hd
    cases hd
  refine ⟨⟨?_, ?_, ?_, ?_, ?_, ?_⟩, hknown⟩
  · rw [hs, Array.size_setIfInBounds, Array.size_replicate]
  · rw [hget, if_pos rfl]
  · intro n hn
    exact hknown n hn ▸ .entry g
  · exact fun hd hne => (hnone hd hne).elim
  · exact fun hd hne => (hnone hd hne).elim
  · exact fun hd hne => (hnone hd hne).elim

/-- The passes come to an end, and another one would change nothing. -/
theorem exists_compute (hg : g.Ordered) :
    Iterates g ((Array.replicate g.nodes.size none).setIfInBounds g.entry (some g.entry))
        (compute g).idom ∧
      Settled g (compute g).idom ∧
      Refined g (compute g).idom (g.rpo.filter (· != g.entry)) (compute g).idom := by
  obtain ⟨hsound, hstart⟩ := sound_start hg rfl
  obtain ⟨new, flag, hpass, hnew, hrefines, _, hsame⟩ := exists_pass hg hsound
  have hs := hnew.settled hg (.inr hstart)
  rw [compute, iterate, hpass]
  cases flag with
  | false =>
    have hrefined := hnew
    rw [hsame rfl] at hrefined hs hrefines ⊢
    exact ⟨.last hrefines, hs, hrefined⟩
  | true =>
    obtain ⟨final, rfl, hit, hrest⟩ := exists_iterate hg hs (hs.weight_lt hg)
    exact ⟨.next hrefines hit, hrest⟩

theorem Settled.idom_eq_none_iff (hi : Settled g new) :
    new.getD n none = none ↔ ¬ g.Reachable n := by
  constructor
  · intro hn hr
    have hk := hi.total hr
    rw [Known, hn] at hk
    cases hk
  · intro hr
    by_contra hn
    exact hr (hi.reachable (Option.isSome_iff_ne_none.mpr hn))

/-- The immediate dominator is the strict dominator that all strict dominators dominate. -/
theorem Settled.idom_unique (hg : g.Ordered) (hi : Settled g new)
    (h : Refined g new (g.rpo.filter (· != g.entry)) new) (hn : g.Reachable n)
    (hne : n ≠ g.entry) (d : Nat) : new.getD n none = some d ↔
      g.StrictlyDominates d n ∧ ∀ c, g.StrictlyDominates c n → g.Dominates c d := by
  have hup := hi.getD_up hn
  have hlt := hi.descends hup hne
  have hstrict : g.StrictlyDominates (up g new n) n := by
    refine ⟨h.dominates hg (.up hup hne (.refl _)), ?_⟩
    intro heq
    rw [heq] at hlt
    exact Nat.lt_irrefl _ hlt
  have hleast : ∀ c, g.StrictlyDominates c n → g.Dominates c (up g new n) :=
    fun c hc => hi.dominates hup hne hc
  rw [hup, Option.some.injEq]
  constructor
  · rintro rfl
    exact ⟨hstrict, hleast⟩
  · rintro ⟨hd, hall⟩
    have hr := hi.reachable (hi.known hup hne)
    obtain ⟨hle, hdr⟩ := hg.position_le_of_dominates hr (hleast d hd)
    exact hg.position_inj hr hdr
      (Nat.le_antisymm (hg.position_le_of_dominates hdr (hall _ hstrict)).1 hle)

/-- Without any bound on their lengths, the loops of the computation end in the dominator tree. -/
theorem compute_exact {g : Graph} (hg : g.Built) :
    Iterates g.classify ((Array.replicate g.nodes.size none).setIfInBounds g.entry (some g.entry))
        (compute g.classify).idom ∧
      (compute g.classify).idom? g.entry = some g.entry ∧
      (∀ n, (compute g.classify).idom? n = none ↔ ¬ g.Reachable n) ∧
      ∀ n, g.Reachable n → n ≠ g.entry → ∃ d, (compute g.classify).idom? n = some d ∧
        ∀ c, c = d ↔
          g.StrictlyDominates c n ∧ ∀ x, g.StrictlyDominates x n → g.Dominates x c := by
  have ho := hg.linked.ordered_classify
  obtain ⟨hit, hi, hr⟩ := exists_compute ho
  refine ⟨by simpa using hit, hi.entry, fun n => ?_, fun n hn hne => ?_⟩
  · rw [← Graph.reachable_classify]
    exact hi.idom_eq_none_iff
  · have hn' := Graph.reachable_classify.mpr hn
    refine ⟨_, hi.getD_up hn', fun c => ?_⟩
    have := hi.idom_unique ho hr hn' hne c
    rw [hi.getD_up hn', Option.some.injEq] at this
    simpa [Graph.StrictlyDominates, Graph.dominates_classify, eq_comm] using this

/-- A region with two entries, and edges into it from a node that nothing leads to. -/
def twoEntries : Graph :=
  [(0, 1), (0, 2), (1, 2), (2, 1), (2, 3), (1, 3), (3, 3), (3, 4), (5, 1), (5, 4)].foldl
    (fun g (a, b) => (g.addEdge a b).1) (Graph.new 0)

theorem twoEntries_exact : twoEntries.Built ∧ ¬ twoEntries.Reachable 5 ∧
    twoEntries.StrictlyDominates 3 4 ∧ ∀ c, twoEntries.StrictlyDominates c 3 → c = 0 := by
  have hg : twoEntries.Built := by
    repeat' apply Graph.Built.addEdge
    exact .new 0
  have htree : compute twoEntries.classify =
      ⟨0, #[some 0, some 0, some 0, some 0, some 3, none]⟩ := by decide +kernel
  have hentry : twoEntries.entry = 0 := by decide +kernel
  obtain ⟨_, _, hnone, hsome⟩ := compute_exact hg
  rw [htree] at hnone hsome
  rw [hentry] at hsome
  have hr (n : Nat) (hn : idom? _ n ≠ none) : twoEntries.Reachable n :=
    not_not.mp (mt (hnone n).mpr hn)
  obtain ⟨_, ⟨⟩, hfour⟩ := hsome 4 (hr 4 (by decide)) (by decide)
  obtain ⟨_, ⟨⟩, hthree⟩ := hsome 3 (hr 3 (by decide)) (by decide)
  refine ⟨hg, (hnone 5).mp rfl, ((hfour 3).mp rfl).1, fun c hc => ?_⟩
  have hc0 := ((hthree 0).mp rfl).2 c hc [0] (hentry ▸ .entry)
  exact List.mem_singleton.mp hc0

end Results

end ScriptC.Dominators
