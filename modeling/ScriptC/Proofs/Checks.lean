import Mathlib.Data.List.Forall2
import Mathlib.Order.Nat
import ScriptC.Check

/-! # Matching of directives

An output that passes a check can be read against its directives: each directive that asks for a
line has one, later directives have later lines, and what must not occur does not stand between the
matches around it. A pattern is matched on the first line that has it. That never costs a later match,
so directives that only ask for patterns in their order pass exactly if some choice of lines fits.
-/

namespace ScriptC

namespace Check

/-- Line `n` is there and has the pattern. -/
def LineHas (lines : List String) (n : Nat) (pattern : String) : Prop :=
  ∃ line, lines[n]? = some line ∧ pattern.toList <:+: line.toList

/-- Line `n` is there and blank. -/
def LineBlank (lines : List String) (n : Nat) : Prop :=
  ∃ line, lines[n]? = some line ∧ ∀ c ∈ line.toList, Text.isBlank c = true

section Lines

variable {lines : List String} {number n : Nat} {p : String} {forbidden : List String}

theorem hasPattern_iff {line : String} : hasPattern p line = true ↔ p.toList <:+: line.toList :=
  Text.contains_iff

theorem lineHas_drop : LineHas (lines.drop number) n p ↔ LineHas lines (number + n) p := by
  simp [LineHas]

theorem lineHas_take : LineHas (lines.take number) n p ↔ n < number ∧ LineHas lines n p := by
  simp only [LineHas, List.getElem?_take]
  split <;> rename_i h <;> simp [h]

theorem lineHas_iff_getElem :
    LineHas lines n p ↔ ∃ h : n < lines.length, hasPattern p lines[n] = true := by
  simp only [LineHas, hasPattern_iff, List.getElem?_eq_some_iff]
  constructor
  · rintro ⟨_, ⟨h, rfl⟩, hp⟩
    exact ⟨h, hp⟩
  · rintro ⟨h, hp⟩
    exact ⟨_, ⟨h, rfl⟩, hp⟩

theorem forall_not_lineHas :
    (∀ n, ¬ LineHas lines n p) ↔ ∀ line ∈ lines, hasPattern p line = false := by
  simp only [lineHas_iff_getElem, not_exists, Bool.not_eq_true, List.forall_mem_iff_getElem]

theorem excludes_eq_ok : excludes forbidden number lines = .ok () ↔
    ∀ p ∈ forbidden, ∀ n, ¬ LineHas lines n p := by
  simp only [forall_not_lineHas]
  induction lines generalizing number with
  | nil => simp [excludes]
  | cons line lines ih =>
    rw [excludes]
    split <;> rename_i hf
    · have hp := List.find?_some hf
      have hm := List.mem_of_find?_eq_some hf
      refine iff_of_false (by rintro ⟨⟩) fun h => ?_
      exact absurd hp (Bool.eq_false_iff.mp (h _ hm line List.mem_cons_self))
    · have hn := List.find?_eq_none.mp hf
      rw [ih]
      simp only [List.forall_mem_cons]
      exact forall₂_congr fun p hp => (and_iff_right (Bool.eq_false_iff.mpr (hn p hp))).symm

/-- The first line from `number` on that has the pattern. -/
structure IsFirst (lines : List String) (number : Nat) (p : String) (n : Nat) : Prop where
  le : number ≤ n
  has : LineHas lines n p
  not_has : ∀ k, number ≤ k → k < n → ¬ LineHas lines k p

theorem IsFirst.eq {m : Nat} (hm : IsFirst lines number p m) (hn : IsFirst lines number p n) :
    m = n := by
  rcases Nat.lt_trichotomy m n with h | h | h
  · exact absurd hm.has (hn.not_has m hm.le h)
  · exact h
  · exact absurd hn.has (hm.not_has n hn.le h)

theorem exists_isFirst (hn : number ≤ n) (h : LineHas lines n p) :
    ∃ m ≤ n, IsFirst lines number p m := by
  classical
  have hex : ∃ m, number ≤ m ∧ LineHas lines m p := ⟨n, hn, h⟩
  obtain ⟨hle, hhas⟩ := Nat.find_spec hex
  exact ⟨_, Nat.find_min' hex ⟨hn, h⟩, hle, hhas, fun k hk hlt hp => Nat.find_min hex hlt ⟨hk, hp⟩⟩

theorem findIdx?_eq_some : (lines.drop number).findIdx? (hasPattern p) = some n ↔
    IsFirst lines number p (number + n) := by
  rw [List.findIdx?_eq_some_iff_getElem]
  constructor
  · rintro ⟨h, hp, hmin⟩
    refine ⟨Nat.le_add_right _ _, lineHas_drop.mp (lineHas_iff_getElem.mpr ⟨h, hp⟩), ?_⟩
    intro k hk hlt hkp
    obtain ⟨j, rfl⟩ := Nat.exists_eq_add_of_le hk
    obtain ⟨hj, hjp⟩ := lineHas_iff_getElem.mp (lineHas_drop.mpr hkp)
    exact hmin j (by omega) hjp
  · rintro ⟨-, hhas, hmin⟩
    obtain ⟨h, hp⟩ := lineHas_iff_getElem.mp (lineHas_drop.mpr hhas)
    refine ⟨h, hp, fun j hj hjp => hmin (number + j) (Nat.le_add_right _ _) (by omega) ?_⟩
    exact lineHas_drop.mp (lineHas_iff_getElem.mpr ⟨by omega, hjp⟩)

theorem excludes_take_eq_ok : excludes forbidden number ((lines.drop number).take n) = .ok () ↔
    ∀ q ∈ forbidden, ∀ k, number ≤ k → k < number + n → ¬ LineHas lines k q := by
  rw [excludes_eq_ok]
  refine forall₂_congr fun q _ => ?_
  constructor
  · intro h k hk hlt hq
    obtain ⟨j, rfl⟩ := Nat.exists_eq_add_of_le hk
    exact h j (lineHas_take.mpr ⟨by omega, lineHas_drop.mpr hq⟩)
  · intro h j hq
    obtain ⟨hj, hq⟩ := lineHas_take.mp hq
    exact h (number + j) (Nat.le_add_right _ _) (by omega) (lineHas_drop.mp hq)

/-- The search ends at the first line with the pattern, if no line before it is forbidden. -/
theorem seek_bind_eq_ok {isLabel : Bool} {f : Nat × List String → Except CheckError Unit} :
    (seek isLabel p forbidden number (lines.drop number) >>= f) = .ok () ↔
      ∃ n, IsFirst lines number p n ∧
        (∀ q ∈ forbidden, ∀ k, number ≤ k → k < n → ¬ LineHas lines k q) ∧
        f (n + 1, lines.drop (n + 1)) = .ok () := by
  unfold seek
  cases hf : (lines.drop number).findIdx? (hasPattern p) with
  | none =>
    refine iff_of_false (by rintro ⟨⟩) ?_
    rintro ⟨n, hn, -⟩
    obtain ⟨k, rfl⟩ := Nat.exists_eq_add_of_le hn.le
    rw [findIdx?_eq_some.mpr hn] at hf
    cases hf
  | some offset =>
    have hfirst := findIdx?_eq_some.mp hf
    cases he : excludes forbidden number ((lines.drop number).take offset) with
    | error e =>
      simp only [he]
      refine iff_of_false (by rintro ⟨⟩) ?_
      rintro ⟨n, hn, hgap, -⟩
      obtain rfl := hn.eq hfirst
      rw [excludes_take_eq_ok.mpr hgap] at he
      cases he
    | ok =>
      simp only [he, List.drop_drop]
      change f (number + offset + 1, lines.drop (number + (offset + 1))) = .ok () ↔ _
      constructor
      · exact fun h => ⟨_, hfirst, excludes_take_eq_ok.mp he, h⟩
      · rintro ⟨n, hn, -, h⟩
        obtain rfl := hn.eq hfirst
        exact h

end Lines

section Search

variable {lines : List String} {number : Nat} {p : String} {ps : List String} {ds : List Directive}

/-- Lines from `number` on, each after the one before, have the patterns in their order. -/
def HaveInOrder (lines : List String) (number : Nat) (ps : List String) : Prop :=
  ∃ ns : List Nat, (∀ n ∈ ns, number ≤ n) ∧ ns.Pairwise (· < ·) ∧ List.Forall₂ (LineHas lines) ns ps

/-- If any lines will do, so will the first line that has the first pattern and lines after it. -/
theorem haveInOrder_cons : HaveInOrder lines number (p :: ps) ↔
    ∃ n, IsFirst lines number p n ∧ HaveInOrder lines (n + 1) ps := by
  constructor
  · rintro ⟨_, hge, hlt, hchosen⟩
    obtain ⟨n, ns, hn, hns, rfl⟩ := List.forall₂_cons_right_iff.mp hchosen
    obtain ⟨hle, -⟩ := List.forall_mem_cons.mp hge
    obtain ⟨hlt, hpair⟩ := List.pairwise_cons.mp hlt
    obtain ⟨m, hm, hfirst⟩ := exists_isFirst hle hn
    -- the first line lies at or before the chosen one, so all later ones are still to come
    exact ⟨m, hfirst, ns, fun k hk => Nat.lt_of_le_of_lt hm (hlt k hk), hpair, hns⟩
  · rintro ⟨n, hn, ns, hge, hpair, hns⟩
    refine ⟨n :: ns, List.forall_mem_cons.mpr ⟨hn.le, fun k hk => ?_⟩,
      List.pairwise_cons.mpr ⟨hge, hpair⟩, .cons hn.has hns⟩
    exact Nat.le_of_lt (Nat.lt_of_le_of_lt hn.le (hge k hk))

/-- The pattern that a directive looks for on some line ahead. -/
def sought? : Directive → Option String
  | .plain p | .label p => some p
  | _ => none

theorem run_eq_ok_iff
    (hds : ∀ d ∈ ds, ∃ text, d = .plain text ∨ d = .label text ∨ d = .comment text) :
    run [] number (lines.drop number) ds = .ok () ↔
      HaveInOrder lines number (ds.filterMap sought?) := by
  induction ds generalizing number with
  | nil => exact iff_of_true (excludes_eq_ok.mpr (by simp)) ⟨[], by simp⟩
  | cons d ds ih =>
    obtain ⟨hd, hrest⟩ := List.forall_mem_cons.mp hds
    have hseek (isLabel : Bool) (p : String) :
        (seek isLabel p [] number (lines.drop number) >>= fun r => run [] r.1 r.2 ds) = .ok () ↔
          HaveInOrder lines number (p :: ds.filterMap sought?) := by
      rw [seek_bind_eq_ok, haveInOrder_cons]
      refine exists_congr fun n => and_congr_right fun _ => ?_
      rw [ih hrest]
      simp
    obtain ⟨text, rfl | rfl | rfl⟩ := hd
    · exact hseek false text
    · exact hseek true text
    · exact ih hrest

end Search

/-- A directive and the number of the line that is matched to it. -/
abbrev Entry := Directive × Option Nat

/-- The lines that are matched, in the order of the directives. -/
def matched (entries : List Entry) : List Nat := entries.filterMap (·.2)

/-- The line right after the last match, or `start` if there is none. -/
def following (start : Nat) (entries : List Entry) : Nat :=
  ((matched entries).map (· + 1)).getLastD start

/-- The entry holds what its directive asks for; `n` is the line right after the last match. -/
def Answers (lines : List String) (n : Nat) : Entry → Prop
  | (.plain p, m) => ∃ k, m = some k ∧ LineHas lines k p
  | (.label p, m) => ∃ k, m = some k ∧ LineHas lines k p
  | (.next p, m) => m = some n ∧ LineHas lines n p
  | (.empty, m) => m = some n ∧ LineBlank lines n ∨ m = none ∧ lines.length ≤ n
  | (.absent _, m) => m = none
  | (.comment _, m) => m = none

/-- No line from `start` on that stands before all matches of the entries has the pattern. -/
def Clear (lines : List String) (start : Nat) (p : String) (entries : List Entry) : Prop :=
  ∀ n, start ≤ n → (∀ k ∈ matched entries, n < k) → ¬ LineHas lines n p

/-- The entries match directives to lines from `start` on. -/
structure Matching (lines : List String) (start : Nat) (entries : List Entry) : Prop where
  increasing : (matched entries).Pairwise (· < ·)
  start_le : ∀ n ∈ matched entries, start ≤ n
  answers : ∀ before e after, entries = before ++ e :: after →
    Answers lines (following start before) e
  clear : ∀ before p m after, entries = before ++ (.absent p, m) :: after →
    Clear lines (following start before) p after

namespace Matching

variable {lines : List String} {start n : Nat} {d : Directive} {entries : List Entry}

theorem nil (lines : List String) (start : Nat) : Matching lines start [] := by
  constructor <;> simp [matched]

/-- A directive that is matched to no line. -/
theorem skip (h : Matching lines start entries) (hd : Answers lines start (d, none))
    (hc : ∀ p, d = .absent p → Clear lines start p entries) :
    Matching lines start ((d, none) :: entries) := by
  have hf (before : List Entry) :
      following start ((d, none) :: before) = following start before := rfl
  constructor
  · exact h.increasing
  · exact h.start_le
  · rintro (_ | ⟨_, before⟩) e after he <;> cases he
    · exact hd
    · rw [hf]
      exact h.answers _ _ _ rfl
  · rintro (_ | ⟨_, before⟩) p m after he <;> cases he
    · exact hc p rfl
    · rw [hf]
      exact h.clear _ _ _ _ rfl

/-- A directive that is matched to line `n`. -/
theorem hit (h : Matching lines (n + 1) entries) (hn : start ≤ n)
    (hd : Answers lines start (d, some n)) : Matching lines start ((d, some n) :: entries) := by
  have hf (before : List Entry) :
      following start ((d, some n) :: before) = following (n + 1) before := List.getLastD_cons
  constructor
  · exact List.pairwise_cons.mpr ⟨h.start_le, h.increasing⟩
  · refine List.forall_mem_cons.mpr ⟨hn, fun k hk => ?_⟩
    exact Nat.le_of_lt (Nat.lt_of_le_of_lt hn (h.start_le k hk))
  · rintro (_ | ⟨_, before⟩) e after he <;> cases he
    · exact hd
    · rw [hf]
      exact h.answers _ _ _ rfl
  · rintro (_ | ⟨_, before⟩) p m after he <;> cases he
    · cases hd
    · rw [hf]
      exact h.clear _ _ _ _ rfl

end Matching

/-- The directives can be matched to lines from `number` on, with nothing forbidden before the first
match. -/
def CanMatch (lines : List String) (number : Nat) (forbidden : List String) (ds : List Directive) :
    Prop :=
  ∃ entries, entries.map (·.1) = ds ∧ Matching lines number entries ∧
    ∀ q ∈ forbidden, Clear lines number q entries

section Soundness

variable {lines : List String} {number n : Nat} {forbidden forbidden' : List String} {d : Directive}
  {ds : List Directive}

theorem CanMatch.skip (h : CanMatch lines number forbidden' ds)
    (hd : Answers lines number (d, none)) (hf : ∀ q ∈ forbidden, q ∈ forbidden')
    (hc : ∀ p, d = .absent p → p ∈ forbidden') : CanMatch lines number forbidden (d :: ds) := by
  obtain ⟨entries, hes, hm, hclear⟩ := h
  refine ⟨(d, none) :: entries, by simp [hes], ?_, fun q hq => hclear q (hf q hq)⟩
  exact hm.skip hd fun p hp => hclear p (hc p hp)

theorem CanMatch.hit (h : CanMatch lines (n + 1) [] ds) (hn : number ≤ n)
    (hd : Answers lines number (d, some n))
    (hgap : ∀ q ∈ forbidden, ∀ k, number ≤ k → k < n → ¬ LineHas lines k q) :
    CanMatch lines number forbidden (d :: ds) := by
  obtain ⟨entries, hes, hm, -⟩ := h
  refine ⟨(d, some n) :: entries, by simp [hes], hm.hit hn hd, fun q hq k hk hlt => ?_⟩
  exact hgap q hq k hk (hlt n List.mem_cons_self)

theorem drop_eq_cons {line : String} {rest : List String} (h : lines.drop number = line :: rest) :
    lines[number]? = some line ∧ rest = lines.drop (number + 1) := by
  constructor
  · rw [← List.head?_drop, h]
    rfl
  · rw [← List.drop_drop, h]
    rfl

theorem canMatch_of_run (h : run forbidden number (lines.drop number) ds = .ok ()) :
    CanMatch lines number forbidden ds := by
  induction ds generalizing forbidden number with
  | nil =>
    refine ⟨[], rfl, .nil lines number, fun q hq n hn _ hhas => ?_⟩
    obtain ⟨k, rfl⟩ := Nat.exists_eq_add_of_le hn
    exact excludes_eq_ok.mp h q hq k (lineHas_drop.mpr hhas)
  | cons d ds ih =>
    cases d with
    | plain p =>
      obtain ⟨n, hn, hgap, h⟩ := seek_bind_eq_ok.mp h
      exact (ih h).hit hn.le ⟨n, rfl, hn.has⟩ hgap
    | label p =>
      obtain ⟨n, hn, hgap, h⟩ := seek_bind_eq_ok.mp h
      exact (ih h).hit hn.le ⟨n, rfl, hn.has⟩ hgap
    | next p =>
      cases hl : lines.drop number with
      | nil =>
        rw [hl] at h
        cases h
      | cons line rest =>
        obtain ⟨hline, rfl⟩ := drop_eq_cons hl
        rw [hl, run] at h
        split_ifs at h with hp
        refine (ih h).hit (Nat.le_refl _) ⟨rfl, line, hline, hasPattern_iff.mp hp⟩ ?_
        omega
    | absent p =>
      refine (ih h).skip rfl (fun q hq => List.mem_append_left _ hq) ?_
      rintro _ ⟨⟩
      exact List.mem_append_right _ (List.mem_singleton_self p)
    | empty =>
      cases hl : lines.drop number with
      | nil =>
        rw [hl, run, ← hl] at h
        refine (ih h).skip (.inr ⟨rfl, List.drop_eq_nil_iff.mp hl⟩) (fun q hq => hq) ?_
        rintro _ ⟨⟩
      | cons line rest =>
        obtain ⟨hline, rfl⟩ := drop_eq_cons hl
        rw [hl, run] at h
        split_ifs at h with hb
        refine (ih h).hit (Nat.le_refl _) (.inl ⟨rfl, line, hline, List.all_eq_true.mp hb⟩) ?_
        omega
    | comment text =>
      refine (ih h).skip rfl (fun q hq => hq) ?_
      rintro _ ⟨⟩

end Soundness

end Check

/-- A check that passes has matched every directive that asks for a line, in order, with nothing in
between that must not occur. If it only asks for patterns in their order, it passes whenever lines have
them. -/
theorem checkOutput_matches (output : String) (ds : List Directive) :
    (checkOutput output ds = .ok () → ∃ entries : List Check.Entry, entries.map (·.1) = ds ∧
      Check.Matching (Text.lines output) 0 entries) ∧
    ((∀ d ∈ ds, ∃ text, d = .plain text ∨ d = .label text ∨ d = .comment text) →
      (checkOutput output ds = .ok () ↔ ∃ ns : List Nat, ns.Pairwise (· < ·) ∧
        List.Forall₂ (Check.LineHas (Text.lines output)) ns (ds.filterMap Check.sought?))) := by
  constructor
  · intro h
    obtain ⟨entries, hds, hm, -⟩ := Check.canMatch_of_run h
    exact ⟨entries, hds, hm⟩
  · intro hds
    refine (Check.run_eq_ok_iff hds).trans ?_
    simp only [Check.HaveInOrder, Nat.zero_le, implies_true, true_and]
    rfl

example : checkOutput "L0\n  Br\nL2\n  LoadGlobal\n"
    [.plain "L0", .absent "LoadGlobal", .plain "L2"] = .ok () := by rfl

end ScriptC
