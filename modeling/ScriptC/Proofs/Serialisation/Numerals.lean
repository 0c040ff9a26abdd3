import ScriptC.Decimal.Layout
import ScriptC.Numeral
import ScriptC.Proofs.Serialisation.Rounding

/-! # Numbers that are read back from their text

The text of an integer or of a finite double is one token of the grammar, however the text goes
on, and the token stands for the number it was written for.
-/

namespace ScriptC

namespace Numeral

/-- A run of digits. -/
def IsRun (ds : List Char) : Prop := ds ≠ [] ∧ ∀ c ∈ ds, c.isDigit = true

/-- The parts of an unsigned token: the digits before the point, the point with the digits after
it, and the power of ten with its sign. -/
structure Spells (w f e : List Char) : Prop where
  whole : IsRun w
  leading : w.head? = some '0' → w = ['0']
  fraction : f = [] ∨ ∃ ds, IsRun ds ∧ f = '.' :: ds
  exponent : e = [] ∨ ∃ sign ds, (sign = '+' ∨ sign = '-') ∧ IsRun ds ∧ e = 'e' :: sign :: ds

/-- A token, with its sign if it is negative. -/
def IsToken (t : List Char) : Prop :=
  ∃ w f e, Spells w f e ∧ (t = w ++ f ++ e ∨ t = '-' :: (w ++ f ++ e))

/-- Nothing at the head of a text continues a token. -/
def Stops (rest : List Char) : Prop :=
  ∀ c ∈ rest.head?, c.isDigit = false ∧ c ≠ '.' ∧ c ≠ 'e' ∧ c ≠ 'E'

/-! ## Reading a token -/

section Reading

variable {w f e ds rest t : List Char}

theorem takeWhile_run (hds : IsRun ds) (hrest : ∀ c ∈ rest.head?, c.isDigit = false) :
    (ds ++ rest).takeWhile Char.isDigit = ds ∧ (ds ++ rest).dropWhile Char.isDigit = rest := by
  rw [List.takeWhile_append_of_pos hds.2, List.dropWhile_append_of_pos hds.2]
  cases rest with
  | nil => simp
  | cons c rest => simp [hrest c rfl]

theorem IsRun.head?_append (hds : IsRun ds) : (ds ++ rest).head? = ds.head? := by
  obtain ⟨c, cs, rfl⟩ := List.exists_cons_of_ne_nil hds.1
  rfl

theorem digits?_append (hds : IsRun ds) (hrest : ∀ c ∈ rest.head?, c.isDigit = false) :
    digits? (ds ++ rest) = some (ds, rest) := by
  obtain ⟨htake, hdrop⟩ := takeWhile_run hds hrest
  obtain ⟨c, cs, rfl⟩ := List.exists_cons_of_ne_nil hds.1
  rw [digits?, htake, hdrop]

theorem whole?_append (hw : IsRun w) (hlead : w.head? = some '0' → w = ['0'])
    (hrest : ∀ c ∈ rest.head?, c.isDigit = false) : whole? (w ++ rest) = some (w, rest) := by
  by_cases hzero : w.head? = some '0'
  · rw [hlead hzero]
    rfl
  · unfold whole?
    split
    · next r hr =>
      obtain ⟨c, cs, rfl⟩ := List.exists_cons_of_ne_nil hw.1
      cases hr
      exact absurd rfl hzero
    · exact digits?_append hw hrest

theorem fraction?_append (hf : f = [] ∨ ∃ ds, IsRun ds ∧ f = '.' :: ds)
    (hrest : ∀ c ∈ rest.head?, c.isDigit = false ∧ c ≠ '.') :
    fraction? (f ++ rest) = some (f, rest) := by
  rcases hf with rfl | ⟨ds, hds, rfl⟩
  · unfold fraction?
    split
    · next r hr => exact absurd rfl (hrest '.' (by simp_all)).2
    · rfl
  · rw [List.cons_append, fraction?, digits?_append hds fun c hc => (hrest c hc).1]
    rfl

theorem exponent?_append
    (he : e = [] ∨ ∃ sign ds, (sign = '+' ∨ sign = '-') ∧ IsRun ds ∧ e = 'e' :: sign :: ds)
    (hrest : Stops rest) : exponent? (e ++ rest) = some (e, rest) := by
  rcases he with rfl | ⟨sign, ds, hsign, hds, rfl⟩
  · unfold exponent?
    split
    · exact absurd rfl (hrest 'e' (by simp_all)).2.2.1
    · exact absurd rfl (hrest 'E' (by simp_all)).2.2.2
    · rfl
  · have hdigits := digits?_append hds fun c hc => (hrest c hc).1
    rcases hsign with rfl | rfl
    · rw [List.cons_append, List.cons_append, exponent?, exponentDigits?, hdigits]
      rfl
    · rw [List.cons_append, List.cons_append, exponent?, exponentDigits?, hdigits]
      rfl

/-- What follows the fraction is an exponent or the end of the token. -/
theorem Spells.head_exponent (h : Spells w f e) (hrest : Stops rest) :
    ∀ c ∈ (e ++ rest).head?, c.isDigit = false ∧ c ≠ '.' := by
  intro c hc
  rcases h.exponent with rfl | ⟨sign, ds, -, -, rfl⟩
  · exact ⟨(hrest c hc).1, (hrest c hc).2.1⟩
  · cases hc
    decide

theorem Spells.head_fraction (h : Spells w f e) (hrest : Stops rest) :
    ∀ c ∈ (f ++ (e ++ rest)).head?, c.isDigit = false := by
  intro c hc
  rcases h.fraction with rfl | ⟨ds, -, rfl⟩
  · exact (h.head_exponent hrest c hc).1
  · cases hc
    decide

theorem unsigned?_append (h : Spells w f e) (hrest : Stops rest) :
    unsigned? (w ++ f ++ e ++ rest) = some (w ++ f ++ e, rest) := by
  rw [List.append_assoc, List.append_assoc, unsigned?]
  rw [whole?_append h.whole h.leading (h.head_fraction hrest)]
  simp only [Option.bind_eq_bind, Option.bind_some]
  rw [fraction?_append h.fraction (h.head_exponent hrest)]
  simp only [Option.bind_some]
  rw [exponent?_append h.exponent hrest]
  rfl

/-- A token starts with a digit or with the sign. -/
theorem IsToken.exists_cons (h : IsToken t) : ∃ c r, t = c :: r ∧ (c.isDigit = true ∨ c = '-') := by
  obtain ⟨w, f, e, hs, rfl | rfl⟩ := h
  · obtain ⟨c, cs, rfl⟩ := List.exists_cons_of_ne_nil hs.whole.1
    exact ⟨c, cs ++ f ++ e, rfl, .inl (hs.whole.2 c List.mem_cons_self)⟩
  · exact ⟨'-', _, rfl, .inr rfl⟩

theorem token?_of_ne {s : List Char} (h : s.head? ≠ some '-') : token? s = unsigned? s := by
  unfold token?
  split
  · exact absurd rfl h
  · rfl

theorem Spells.head_ne (h : Spells w f e) : (w ++ f ++ e ++ rest).head? ≠ some '-' := by
  obtain ⟨c, cs, rfl⟩ := List.exists_cons_of_ne_nil h.whole.1
  have hc := h.whole.2 c List.mem_cons_self
  rintro ⟨⟩
  cases hc

theorem IsToken.token?_append (h : IsToken t) (hrest : Stops rest) :
    token? (t ++ rest) = some (t, rest) := by
  obtain ⟨w, f, e, hs, rfl | rfl⟩ := h
  · rw [token?_of_ne hs.head_ne, unsigned?_append hs hrest]
  · rw [List.cons_append, token?, unsigned?_append hs hrest]
    rfl

theorem Stops.nil : Stops [] := by
  intro c hc
  cases hc

/-- The decimal of a token, from its parts. -/
theorem Spells.toDecimal_eq (h : Spells w f e) :
    toDecimal (w ++ f ++ e) = ⟨digitsValue (w ++ f.tail), power e - f.tail.length⟩ := by
  have hexponent : ∀ c ∈ e.head?, c.isDigit = false ∧ c ≠ '.' := by
    simpa using h.head_exponent Stops.nil
  have hfraction : ∀ c ∈ (f ++ e).head?, c.isDigit = false := by
    simpa using h.head_fraction Stops.nil
  obtain ⟨htake, hdrop⟩ := takeWhile_run h.whole hfraction
  unfold toDecimal
  rw [List.append_assoc]
  simp only [htake, hdrop]
  rcases h.fraction with rfl | ⟨ds, hds, rfl⟩
  · have hpoint : ∀ t, [] ++ e ≠ '.' :: t := by
      rintro t rfl
      exact (hexponent '.' rfl).2 rfl
    split
    · next t ht => exact absurd ht (hpoint t)
    · simp
  · obtain ⟨htake', hdrop'⟩ := takeWhile_run hds fun c hc => (hexponent c hc).1
    simp only [List.cons_append, htake', hdrop', List.tail_cons]

theorem toBinary64?_of_spells (h : Spells w f e) (negative : Bool) :
    toBinary64? (if negative then '-' :: (w ++ f ++ e) else w ++ f ++ e) =
      (toDecimal (w ++ f ++ e)).toBinary64? negative := by
  cases negative with
  | true => rfl
  | false =>
    have hne : (w ++ f ++ e ++ []).head? ≠ some '-' := h.head_ne
    rw [List.append_nil] at hne
    unfold toBinary64?
    split
    · next s hs => exact absurd (congrArg List.head? hs) hne
    · rfl

end Reading

/-! ## Digits -/

theorem digitsValue_toDigits (n : Nat) : digitsValue (Nat.toDigits 10 n) = n :=
  Nat.ofDigitChars_ten_toDigits

theorem isRun_toDigits (n : Nat) : IsRun (Nat.toDigits 10 n) :=
  ⟨Nat.toDigits_ne_nil, fun _ => Nat.isDigit_of_mem_toDigits (by decide) (by decide)⟩

theorem isRun_zero : IsRun ['0'] := isRun_toDigits 0

/-- A positive number has no leading zero. -/
theorem head?_toDigits_ne {n : Nat} (hn : n ≠ 0) : (Nat.toDigits 10 n).head? ≠ some '0' := by
  induction n using Nat.strongRecOn with
  | ind n ih =>
    by_cases hlt : n < 10
    · rw [Nat.toDigits_of_lt_base hlt]
      have hdigit : ∀ k < 10, k ≠ 0 → [k.digitChar].head? ≠ some '0' := by decide
      exact hdigit n hlt hn
    · rw [Nat.toDigits_of_base_le (by decide) (by omega), (isRun_toDigits (n / 10)).head?_append]
      exact ih (n / 10) (by omega) (by omega)

theorem digitsValue_zeros_append (k : Nat) (ds : List Char) :
    digitsValue (List.replicate k '0' ++ ds) = digitsValue ds := by
  show Nat.ofDigitChars 10 _ 0 = Nat.ofDigitChars 10 ds 0
  rw [Nat.ofDigitChars_append, Nat.ofDigitChars_replicate_zero, Nat.mul_zero]

theorem digitsValue_append_zeros (ds : List Char) (k : Nat) :
    digitsValue (ds ++ List.replicate k '0') = digitsValue ds * 10 ^ k := by
  show Nat.ofDigitChars 10 _ 0 = Nat.ofDigitChars 10 ds 0 * 10 ^ k
  rw [Nat.ofDigitChars_append, Nat.ofDigitChars_replicate_zero, Nat.mul_comm]

theorem IsRun.append {as bs : List Char} (ha : IsRun as) (hb : ∀ c ∈ bs, c.isDigit = true) :
    IsRun (as ++ bs) :=
  ⟨List.append_ne_nil_of_left_ne_nil ha.1 bs, List.forall_mem_append.2 ⟨ha.2, hb⟩⟩

theorem isDigit_of_mem_zeros {k : Nat} : ∀ c ∈ List.replicate k '0', c.isDigit = true := by
  intro c hc
  rw [List.eq_of_mem_replicate hc]
  rfl

/-! ## Integers -/

theorem spells_toDigits (n : Nat) : Spells (Nat.toDigits 10 n) [] [] where
  whole := isRun_toDigits n
  leading := by
    by_cases hn : n = 0
    · intro _
      rw [hn]
      rfl
    · exact fun h => absurd h (head?_toDigits_ne hn)
  fraction := .inl rfl
  exponent := .inl rfl

theorem isToken_nat (n : Nat) : IsToken (toString n).toList := by
  refine ⟨_, [], [], spells_toDigits n, .inl ?_⟩
  rw [List.append_nil, List.append_nil]
  exact Nat.toList_repr

theorem toList_negSucc (n : Nat) : (toString (Int.negSucc n)).toList = '-' :: Nat.toDigits 10 (n + 1) := by
  show ("-" ++ (n + 1).repr).toList = _
  rw [String.toList_append, Nat.toList_repr]
  rfl

theorem isToken_int (n : Int) : IsToken (toString n).toList := by
  cases n with
  | ofNat n => exact isToken_nat n
  | negSucc n =>
    refine ⟨_, [], [], spells_toDigits (n + 1), .inr ?_⟩
    rw [List.append_nil, List.append_nil, toList_negSucc]

theorem toInt?_nat (n : Nat) : toInt? (toString n).toList = some (n : Int) := by
  have htext : (toString n).toList = Nat.toDigits 10 n := Nat.toList_repr
  have hrun := isRun_toDigits n
  have hall : (Nat.toDigits 10 n).all Char.isDigit = true := List.all_eq_true.2 hrun.2
  have hminus : ∀ r, Nat.toDigits 10 n ≠ '-' :: r := by
    intro r hr
    have hdigit := hrun.2 '-' (hr ▸ List.mem_cons_self)
    cases hdigit
  rw [htext]
  unfold toInt?
  split
  · next h => exact absurd h (hminus _)
  · next h => exact absurd h (hminus _)
  · rw [if_pos hall, digitsValue_toDigits]

/-- The token of a negative integer is not that of a negative zero. -/
theorem toInt?_int (n : Int) : toInt? (toString n).toList = some n := by
  cases n with
  | ofNat n => exact toInt?_nat n
  | negSucc n =>
    have hall : (Nat.toDigits 10 (n + 1)).all Char.isDigit = true :=
      List.all_eq_true.2 (isRun_toDigits (n + 1)).2
    rw [toList_negSucc]
    unfold toInt?
    split
    · next h =>
      have hzero : Nat.toDigits 10 (n + 1) = ['0'] := List.tail_eq_of_cons_eq h
      exact absurd (congrArg List.head? hzero) (head?_toDigits_ne n.succ_ne_zero)
    · next ds _ h =>
      cases h
      rw [if_pos hall, digitsValue_toDigits]
      rfl
    · next h => exact (h _ rfl).elim

end Numeral

/-! ## Doubles -/

namespace NumberLayout

open Numeral

variable {ds : List Char}

/-- Digits with a point among them spell the digits at the power of ten that the point gives. -/
theorem positional_spells (hds : IsRun ds) (hlead : ds.head? ≠ some '0') (point : Int) :
    ∃ w f, Spells w f [] ∧ positional ds point = w ++ f ++ [] ∧
      ∀ negative, (toDecimal (w ++ f ++ [])).toBinary64? negative =
        Decimal.toBinary64? negative ⟨digitsValue ds, point - ds.length⟩ := by
  unfold positional
  split
  · next hpoint =>
    have hs : Spells ['0'] ('.' :: (zeros (-point).toNat ++ ds)) [] := {
      whole := isRun_zero
      leading := fun _ => rfl
      fraction := .inr ⟨_, ⟨List.append_ne_nil_of_right_ne_nil _ hds.1,
        List.forall_mem_append.2 ⟨isDigit_of_mem_zeros, hds.2⟩⟩, rfl⟩
      exponent := .inl rfl }
    refine ⟨_, _, hs, by simp, fun negative => ?_⟩
    have hvalue : digitsValue (['0'] ++ (zeros (-point).toNat ++ ds)) = digitsValue ds := by
      rw [← List.append_assoc]
      exact digitsValue_zeros_append ((-point).toNat + 1) ds
    rw [hs.toDecimal_eq, List.tail_cons, hvalue]
    congr 2
    simp only [power, zeros, List.length_append, List.length_replicate]
    omega
  · next hpoint =>
    dsimp only
    split
    · next hlength =>
      have hs : Spells (ds ++ zeros (point.toNat - ds.length)) ['.', '0'] [] := {
        whole := hds.append isDigit_of_mem_zeros
        leading := by
          rw [hds.head?_append]
          exact fun h => absurd h hlead
        fraction := .inr ⟨['0'], isRun_zero, rfl⟩
        exponent := .inl rfl }
      refine ⟨_, _, hs, by simp, fun negative => ?_⟩
      have hvalue : digitsValue (ds ++ zeros (point.toNat - ds.length) ++ ['0']) =
          digitsValue ds * 10 ^ (point.toNat - ds.length + 1) := by
        rw [List.append_assoc, zeros, ← List.replicate_succ', digitsValue_append_zeros]
      rw [hs.toDecimal_eq, List.tail_cons, hvalue, Decimal.toBinary64?_mul_pow]
      congr 2
      simp only [power, List.length_singleton]
      omega
    · next hlength =>
      have hs : Spells (ds.take point.toNat) ('.' :: ds.drop point.toNat) [] := {
        whole := ⟨List.ne_nil_of_length_pos (by rw [List.length_take]; omega),
          fun c hc => hds.2 c (List.mem_of_mem_take hc)⟩
        leading := by
          rw [List.head?_take, if_neg (by omega)]
          exact fun h => absurd h hlead
        fraction := .inr ⟨_, ⟨List.ne_nil_of_length_pos (by rw [List.length_drop]; omega),
          fun c hc => hds.2 c (List.mem_of_mem_drop hc)⟩, rfl⟩
        exponent := .inl rfl }
      refine ⟨_, _, hs, by simp, fun negative => ?_⟩
      rw [hs.toDecimal_eq, List.tail_cons, List.take_append_drop]
      congr 2
      simp only [power, List.length_drop]
      omega

/-- The power of ten after the digits. -/
theorem exists_power (e : Int) : ∃ sign, (sign = '+' ∨ sign = '-') ∧
    (if e < 0 then ("e-" ++ toString e.natAbs).toList
      else (serialised.mark ++ toString e.natAbs).toList) = 'e' :: sign :: Nat.toDigits 10 e.natAbs ∧
    power ('e' :: sign :: Nat.toDigits 10 e.natAbs) = e := by
  have htext : (toString e.natAbs).toList = Nat.toDigits 10 e.natAbs := Nat.toList_repr
  by_cases he : e < 0
  · refine ⟨'-', .inr rfl, ?_, ?_⟩
    · rw [if_pos he, String.toList_append, htext]
      rfl
    · rw [power, digitsValue_toDigits]
      omega
  · refine ⟨'+', .inl rfl, ?_, ?_⟩
    · rw [if_neg he, String.toList_append, htext]
      rfl
    · rw [power, digitsValue_toDigits]
      omega

theorem scientific_spells (hds : IsRun ds) (hlead : ds.head? ≠ some '0') (e : Int) :
    ∃ w f p, Spells w f p ∧ serialised.scientific ds e = w ++ f ++ p ∧
      toDecimal (w ++ f ++ p) = ⟨digitsValue ds, e - (ds.length - 1)⟩ := by
  obtain ⟨sign, hsign, htext, hpower⟩ := exists_power e
  have hexponent : ∃ s ds', (s = '+' ∨ s = '-') ∧ IsRun ds' ∧
      'e' :: sign :: Nat.toDigits 10 e.natAbs = 'e' :: s :: ds' :=
    ⟨sign, _, hsign, isRun_toDigits _, rfl⟩
  have hfirst {d : Char} {r : List Char} (h : IsRun (d :: r)) : IsRun [d] :=
    ⟨by simp, fun c hc => h.2 c (List.mem_singleton.1 hc ▸ List.mem_cons_self)⟩
  match ds, hds, hlead with
  | [d], hds, hlead =>
    have hs : Spells [d] [] ('e' :: sign :: Nat.toDigits 10 e.natAbs) := {
      whole := hds
      leading := fun h => absurd h hlead
      fraction := .inl rfl
      exponent := .inr hexponent }
    refine ⟨_, _, _, hs, ?_, ?_⟩
    · rw [← htext]
      rfl
    · rw [hs.toDecimal_eq, hpower]
      simp
  | d :: d' :: r, hds, hlead =>
    have hs : Spells [d] ('.' :: d' :: r) ('e' :: sign :: Nat.toDigits 10 e.natAbs) := {
      whole := hfirst hds
      leading := fun h => absurd h hlead
      fraction := .inr ⟨_, ⟨by simp, fun c hc => hds.2 c (List.mem_cons_of_mem _ hc)⟩, rfl⟩
      exponent := .inr hexponent }
    refine ⟨_, _, _, hs, ?_, ?_⟩
    · rw [← htext]
      rfl
    · rw [hs.toDecimal_eq, hpower]
      simp

/-- The text of a finite number is a token that stands for the number. -/
theorem unsigned_spells {x : Binary64} (hx : x.isFinite = true) :
    ∃ w f e, Spells w f e ∧ serialised.unsigned x = w ++ f ++ e ∧
      ∀ negative, (toDecimal (w ++ f ++ e)).toBinary64? negative =
        some (.pack negative (x.word % 2 ^ 63)) := by
  unfold unsigned
  split
  · next hzero =>
    have hs : Spells ['0'] ['.', '0'] [] :=
      ⟨isRun_zero, fun _ => rfl, .inr ⟨['0'], isRun_zero, rfl⟩, .inl rfl⟩
    refine ⟨_, _, _, hs, rfl, fun negative => ?_⟩
    rw [Binary64.magnitude_eq_zero.1 hzero]
    rfl
  · next hmag =>
    have hread := Binary64.toBinary64?_shortest serialised.tie hx
    have hne := Binary64.digits_shortest_ne_zero serialised.tie hx hmag
    generalize x.shortest serialised.tie = d at hread hne
    have hrun := isRun_toDigits d.digits
    have hlead := head?_toDigits_ne hne
    have hvalue := digitsValue_toDigits d.digits
    dsimp only
    generalize Nat.toDigits 10 d.digits = ds at hrun hlead hvalue ⊢
    split
    · obtain ⟨w, f, hs, htext, hdecimal⟩ :=
        positional_spells hrun hlead (d.exponent + ds.length - 1 + 1)
      refine ⟨w, f, [], hs, htext, fun negative => ?_⟩
      rw [hdecimal, hvalue, ← hread negative]
      congr 2
      omega
    · obtain ⟨w, f, p, hs, htext, hdecimal⟩ :=
        scientific_spells hrun hlead (d.exponent + ds.length - 1)
      refine ⟨w, f, p, hs, htext, fun negative => ?_⟩
      rw [hdecimal, hvalue, ← hread negative]
      congr 2
      omega

theorem isToken_render {x : Binary64} (hx : x.isFinite = true) :
    IsToken (serialised.render x).toList := by
  obtain ⟨w, f, e, hs, htext, -⟩ := unsigned_spells hx
  rw [render, String.toList_ofList, htext]
  cases x.isNegative with
  | true => exact ⟨w, f, e, hs, .inr rfl⟩
  | false => exact ⟨w, f, e, hs, .inl rfl⟩

/-- The decimal text of a finite number reads back as the same number. -/
theorem toBinary64?_render {x : Binary64} (hx : x.isFinite = true) :
    Numeral.toBinary64? (serialised.render x).toList = some x := by
  obtain ⟨w, f, e, hs, htext, hread⟩ := unsigned_spells hx
  rw [render, String.toList_ofList, htext, toBinary64?_of_spells hs, hread, Binary64.pack_low]

end NumberLayout

end ScriptC
