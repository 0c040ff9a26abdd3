import Mathlib.Algebra.Group.Nat.Defs
import ScriptC.Decimal

/-! # Decimals that read back

The double a decimal is read as depends on the value of the decimal alone: the cut-offs for large
and small exponents agree with the rounding they spare, and a power of ten may be moved between
the digits and the exponent. The exact decimal of a finite number reads back as the number, and
so does the shortest one.
-/

namespace ScriptC

namespace Binary64

/-! ## The bits of a number -/

theorem word_lt (x : Binary64) : x.word < 2 ^ 64 := x.bits.toNat_lt

theorem low_eq_fields (x : Binary64) : x.word % 2 ^ 63 = x.exponentField * 2 ^ 52 + x.fraction := by
  simp only [exponentField, fraction, Nat.pow_eq]
  omega

theorem exponentField_lt {x : Binary64} (hx : x.isFinite = true) : x.exponentField < 2047 := by
  have hne : x.exponentField ≠ 2047 := by simpa [isFinite] using hx
  have hlt : x.exponentField < 2 ^ 11 := Nat.mod_lt _ (by decide)
  omega

theorem fraction_lt (x : Binary64) : x.fraction < 2 ^ 52 := Nat.mod_lt _ (by decide)

theorem pack_low (x : Binary64) : pack x.isNegative (x.word % 2 ^ 63) = x := by
  have hword := x.word_lt
  have hbits : UInt64.ofNat x.word = x.bits := UInt64.ofNat_toNat
  rw [pack]
  congr 1
  rw [← hbits]
  congr 1
  by_cases hneg : 2 ^ 63 ≤ x.word
  · rw [if_pos (by simpa [isNegative] using hneg), Nat.pow_eq]
    omega
  · rw [if_neg (by simpa [isNegative] using hneg)]
    omega

theorem word_pack {w : Nat} (hw : w < 2 ^ 63) : (pack false w).word = w := by
  rw [pack, word, if_neg Bool.false_ne_true, Nat.zero_add, UInt64.toNat_ofNat']
  omega

theorem pack_inj {v w : Nat} (hv : v < 2 ^ 63) (hw : w < 2 ^ 63)
    (h : pack false v = pack false w) : v = w := by
  rw [← word_pack hv, h, word_pack hw]

/-- A finite number without magnitude is a zero of either sign. -/
theorem magnitude_eq_zero {x : Binary64} : x.magnitude = 0 ↔ x.word % 2 ^ 63 = 0 := by
  rw [low_eq_fields, magnitude]
  split
  · next h => rw [h, Nat.zero_mul, Nat.zero_add]
  · next h =>
    have hpos : 0 < Nat.pow 2 (x.exponentField - 1) := Nat.pow_pos (by decide)
    have hone : 0 < Nat.pow 2 52 + x.fraction := Nat.add_pos_left (by decide) _
    have hne := Nat.ne_of_gt (Nat.mul_pos hone hpos)
    simp only [hne, false_iff]
    omega

/-! ## Rounding is scale-free -/

theorem roundHalfEven_mul_right (n d : Nat) {k : Nat} (hk : 0 < k) :
    roundHalfEven (n * k) (d * k) = roundHalfEven n d := by
  have hlt : 2 * (n % d * k) < d * k ↔ 2 * (n % d) < d := by
    rw [← Nat.mul_assoc, Nat.mul_lt_mul_right hk]
  have heq : 2 * (n % d * k) = d * k ↔ 2 * (n % d) = d := by
    rw [← Nat.mul_assoc, Nat.mul_right_cancel_iff hk]
  simp only [roundHalfEven, Nat.mul_div_mul_right _ _ hk, Nat.mul_mod_mul_right, hlt, heq]

theorem roundWord_mul_right (n d : Nat) {k : Nat} (hk : 0 < k) :
    roundWord (n * k) (d * k) = roundWord n d := by
  simp only [roundWord, Nat.mul_div_mul_right _ _ hk]
  rw [Nat.mul_right_comm, roundHalfEven_mul_right _ _ hk]

theorem ofRatio?_mul_right (negative : Bool) (n d : Nat) {k : Nat} (hk : 0 < k) :
    ofRatio? negative (n * k) (d * k) = ofRatio? negative n d := by
  simp only [ofRatio?, roundWord_mul_right _ _ hk]

theorem roundHalfEven_mul_left (n : Nat) {d : Nat} (hd : 0 < d) : roundHalfEven (n * d) d = n := by
  simp [roundHalfEven, hd]

/-- A whole number of units that a double can hold is its own rounding. -/
theorem roundWord_magnitude {x : Binary64} : roundWord x.magnitude 1 = x.word % 2 ^ 63 := by
  have hfraction := x.fraction_lt
  simp only [low_eq_fields, roundWord, Nat.div_one, Nat.one_mul, Nat.pow_eq]
  by_cases hzero : x.exponentField = 0
  · have hmag : x.magnitude = x.fraction := by rw [magnitude, if_pos hzero]
    have hlog : x.fraction.log2 < 52 ∨ x.fraction = 0 := by
      by_cases hf : x.fraction = 0
      · exact .inr hf
      · exact .inl ((Nat.log2_lt hf).2 hfraction)
    have hp : x.fraction.log2 - 52 = 0 := by
      rcases hlog with h | h
      · omega
      · rw [h, Nat.log2_zero]
    have hround := roundHalfEven_mul_left x.fraction Nat.one_pos
    rw [Nat.mul_one] at hround
    rw [hmag, hp, hzero, Nat.pow_zero, hround]
  · obtain ⟨e, he⟩ := Nat.exists_eq_succ_of_ne_zero hzero
    have hmag : x.magnitude = (2 ^ 52 + x.fraction) * 2 ^ e := by
      rw [magnitude, if_neg hzero, he, Nat.pow_eq, Nat.pow_eq, Nat.succ_sub_one]
    have hlog : x.magnitude.log2 = 52 + e := by
      have hlow : 2 ^ (52 + e) ≤ x.magnitude := by
        rw [hmag, Nat.pow_add]
        exact Nat.mul_le_mul_right _ (Nat.le_add_right _ _)
      have hhigh : x.magnitude < 2 ^ (52 + e + 1) := by
        rw [hmag, Nat.add_right_comm, Nat.pow_add]
        exact Nat.mul_lt_mul_of_pos_right (by omega) (Nat.pow_pos (by decide))
      have hne : x.magnitude ≠ 0 :=
        Nat.ne_of_gt (Nat.lt_of_lt_of_le (Nat.pow_pos (by decide)) hlow)
      exact (Nat.log2_eq_iff hne).2 ⟨hlow, hhigh⟩
    rw [hlog, Nat.add_sub_cancel_left, hmag, roundHalfEven_mul_left _ (Nat.pow_pos (by decide)), he]
    omega

end Binary64

namespace Decimal

open Binary64

/-! ## The nearest double without cut-offs -/

/-- One is `2 ^ 1074` units. -/
def unitExponent : Nat := 1074

/-- The double nearest to a decimal, by rounding alone. -/
def nearest? (negative : Bool) (d : Decimal) : Option Binary64 :=
  ofRatio? negative (d.digits * 10 ^ d.exponent.toNat * 2 ^ unitExponent)
    (10 ^ (-d.exponent).toNat)

theorem roundWord_zero (d : Nat) : roundWord 0 d = 0 := by
  rcases Nat.eq_zero_or_pos d with rfl | hd
  · rfl
  · simp [roundWord, roundHalfEven, hd]

/-- Less than half a unit rounds to zero. -/
theorem roundWord_of_two_mul_lt {n d : Nat} (h : 2 * n < d) : roundWord n d = 0 := by
  have hdiv : n / d = 0 := Nat.div_eq_of_lt (by omega)
  have hmod : n % d = n := Nat.mod_eq_of_lt (by omega)
  simp [roundWord, roundHalfEven, hdiv, hmod, h]

/-- From `2 ^ 2099` units on there is no finite number. -/
theorem le_roundWord {n k : Nat} (hk : 2099 ≤ k) (h : 2 ^ k ≤ n) :
    2047 * 2 ^ 52 ≤ roundWord n 1 := by
  have hne : n ≠ 0 := Nat.ne_of_gt (Nat.lt_of_lt_of_le (Nat.pow_pos (by decide)) h)
  have hlog : k ≤ n.log2 := (Nat.le_log2 hne).2 h
  rw [roundWord, Nat.div_one, Nat.pow_eq]
  exact Nat.le_add_right_of_le (Nat.mul_le_mul_right _ (by omega))

theorem two_pow_le_ten_pow {i k : Nat} (h : i ≤ 3 * k) : 2 ^ i ≤ 10 ^ k := by
  calc 2 ^ i ≤ 2 ^ (3 * k) := Nat.pow_le_pow_right (by decide) h
    _ = 8 ^ k := Nat.pow_mul 2 3 k
    _ ≤ 10 ^ k := Nat.pow_le_pow_left (by decide) k

theorem nearest?_of_large {negative : Bool} {d : Decimal} (hdigits : d.digits ≠ 0)
    (h : 400 < d.exponent) : d.nearest? negative = none := by
  have hneg : (-d.exponent).toNat = 0 := by omega
  have hten : 2 ^ (3 * d.exponent.toNat) ≤ d.digits * 10 ^ d.exponent.toNat :=
    Nat.le_trans (two_pow_le_ten_pow (Nat.le_refl _))
      (Nat.le_mul_of_pos_left _ (Nat.pos_of_ne_zero hdigits))
  have hunits : 2 ^ (3 * d.exponent.toNat + unitExponent) ≤
      d.digits * 10 ^ d.exponent.toNat * 2 ^ unitExponent := by
    rw [Nat.pow_add]
    exact Nat.mul_le_mul_right _ hten
  have hbound : 2099 ≤ 3 * d.exponent.toNat + unitExponent := by
    have hexponent : unitExponent = 1074 := rfl
    omega
  rw [nearest?, hneg, Nat.pow_zero, ofRatio?]
  exact if_neg (Nat.not_lt.2 (le_roundWord hbound hunits))

theorem nearest?_of_small {negative : Bool} {d : Decimal}
    (h : d.exponent + d.digits.log2 + 1 < -400) : d.nearest? negative = some (pack negative 0) := by
  have hexp : d.exponent.toNat = 0 := by omega
  have hbound : 1 + (d.digits.log2 + 1 + unitExponent) ≤ 3 * (-d.exponent).toNat := by
    have hexponent : unitExponent = 1074 := rfl
    omega
  have hlog : d.digits * 2 ^ unitExponent < 2 ^ (d.digits.log2 + 1) * 2 ^ unitExponent :=
    Nat.mul_lt_mul_of_pos_right Nat.lt_log2_self (Nat.pow_pos (by decide))
  have hunits : 2 * (d.digits * 2 ^ unitExponent) < 10 ^ (-d.exponent).toNat := by
    calc 2 * (d.digits * 2 ^ unitExponent) <
          2 * (2 ^ (d.digits.log2 + 1) * 2 ^ unitExponent) :=
          Nat.mul_lt_mul_of_pos_left hlog (by decide)
      _ = 2 ^ (1 + (d.digits.log2 + 1 + unitExponent)) := by
        rw [Nat.pow_add 2 1, Nat.pow_add 2 (d.digits.log2 + 1), Nat.pow_one]
      _ ≤ 10 ^ (-d.exponent).toNat := two_pow_le_ten_pow hbound
  rw [nearest?, hexp, Nat.pow_zero, Nat.mul_one, ofRatio?, roundWord_of_two_mul_lt hunits]
  exact if_pos (by decide)

/-- The cut-offs agree with rounding. -/
theorem toBinary64?_eq_nearest? (negative : Bool) (d : Decimal) :
    d.toBinary64? negative = d.nearest? negative := by
  by_cases hdigits : d.digits = 0
  · rw [toBinary64?, if_pos hdigits, nearest?, hdigits, Nat.zero_mul, Nat.zero_mul, ofRatio?,
      roundWord_zero]
    exact (if_pos (by decide)).symm
  by_cases hlarge : 400 < d.exponent
  · rw [toBinary64?, if_neg hdigits, if_pos hlarge, nearest?_of_large hdigits hlarge]
  by_cases hsmall : d.exponent + d.digits.log2 + 1 < -400
  · rw [toBinary64?, if_neg hdigits, if_neg hlarge, if_pos hsmall, nearest?_of_small hsmall]
  · rw [toBinary64?, if_neg hdigits, if_neg hlarge, if_neg hsmall]
    rfl

/-! ## Moving powers of ten -/

theorem nearest?_ten_mul (negative : Bool) (n : Nat) (e : Int) :
    nearest? negative ⟨10 * n, e⟩ = nearest? negative ⟨n, e + 1⟩ := by
  simp only [nearest?]
  by_cases he : 0 ≤ e
  · have hup : (e + 1).toNat = e.toNat + 1 := by omega
    have hdown : (-(e + 1)).toNat = (-e).toNat := by omega
    rw [hup, hdown, Nat.pow_succ, Nat.mul_comm 10 n, Nat.mul_assoc n 10, Nat.mul_comm 10]
  · have hup : (e + 1).toNat = e.toNat := by omega
    have hdown : (-e).toNat = (-(e + 1)).toNat + 1 := by omega
    have hnum : 10 * n * 10 ^ e.toNat * 2 ^ unitExponent = n * 10 ^ e.toNat * 2 ^ unitExponent * 10 := by
      rw [Nat.mul_comm 10 n, Nat.mul_right_comm n, Nat.mul_right_comm _ 10]
    rw [hup, hdown, Nat.pow_succ, hnum, ofRatio?_mul_right _ _ _ (by decide)]

/-- Zeros at the end of the digits stand for powers of ten. -/
theorem toBinary64?_mul_pow (negative : Bool) (n k : Nat) (e : Int) :
    toBinary64? negative ⟨n * 10 ^ k, e⟩ = toBinary64? negative ⟨n, e + k⟩ := by
  simp only [toBinary64?_eq_nearest?]
  induction k generalizing e with
  | zero => rw [Nat.pow_zero, Nat.mul_one, Int.natCast_zero, Int.add_zero]
  | succ k ih =>
    rw [Nat.pow_succ, ← Nat.mul_assoc, Nat.mul_comm _ 10, nearest?_ten_mul, ih]
    congr 2
    omega

theorem toBinary64?_normalize (negative : Bool) (d : Decimal) :
    d.normalize.toBinary64? negative = d.toBinary64? negative := by
  fun_induction normalize d with
  | case1 d h ih =>
    have hdigits : d.digits / 10 * 10 ^ 1 = d.digits := by omega
    have hmove := toBinary64?_mul_pow negative (d.digits / 10) 1 d.exponent
    rw [hdigits] at hmove
    exact ih.trans hmove.symm
  | case2 d h => rfl

end Decimal

namespace Binary64

/-! ## The decimals of a number -/

/-- Reading a decimal commutes with the sign. -/
theorem toBinary64?_of_readsBack {x : Binary64} {d : Decimal} (h : x.readsBack d = true)
    (negative : Bool) : d.toBinary64? negative = some (pack negative (x.word % 2 ^ 63)) := by
  have hread : d.nearest? false = some (pack false (x.word % 2 ^ 63)) := by
    rw [← Decimal.toBinary64?_eq_nearest?]
    exact eq_of_beq h
  rw [Decimal.nearest?, ofRatio?] at hread
  rw [Decimal.toBinary64?_eq_nearest?, Decimal.nearest?, ofRatio?]
  split at hread
  · next hfinite =>
    have hlow := pack_inj (Nat.lt_trans hfinite (by decide)) (Nat.mod_lt _ (by decide))
      (Option.some.inj hread)
    rw [if_pos hfinite, hlow]
  · cases hread

theorem readsBack_exact {x : Binary64} (hx : x.isFinite = true) : x.readsBack x.exact = true := by
  have hfield := exponentField_lt hx
  have hfraction := x.fraction_lt
  have hexact : x.exact = ⟨5 ^ Decimal.unitExponent * x.magnitude, -Decimal.unitExponent⟩ := rfl
  have hread : x.exact.toBinary64? false = ofRatio? false x.magnitude 1 := by
    rw [Decimal.toBinary64?_eq_nearest?, hexact, Decimal.nearest?]
    generalize Decimal.unitExponent = k
    have hup : (-(k : Int)).toNat = 0 := by omega
    have hdown : (- -(k : Int)).toNat = k := by omega
    have hscale := ofRatio?_mul_right false x.magnitude 1 (Nat.pow_pos (n := k) (a := 10) (by decide))
    rw [Nat.one_mul] at hscale
    rw [← hscale]
    simp only [hup, hdown, Nat.pow_zero, Nat.mul_one]
    rw [Nat.mul_comm (5 ^ k), Nat.mul_assoc, ← Nat.mul_pow]
  have hlow := low_eq_fields x
  rw [readsBack, hread, ofRatio?, roundWord_magnitude, if_pos (by rw [Nat.pow_eq]; omega)]
  exact beq_self_eq_true _

theorem readsBack_of_onGrid? {tie : Tie} {x : Binary64} {places : Nat} {d : Decimal}
    (h : x.onGrid? tie places = some d) : x.readsBack d = true := by
  unfold onGrid? at h
  -- Each neighbour is only taken when it reads back, whatever the exact value is.
  generalize x.exact = e at h
  generalize x.readsBack = reads at h ⊢
  dsimp only at h
  grind

/-- The shortest decimal of a number reads back as the number. -/
theorem toBinary64?_shortest (tie : Tie) {x : Binary64} (hx : x.isFinite = true) (negative : Bool) :
    (x.shortest tie).toBinary64? negative = some (pack negative (x.word % 2 ^ 63)) := by
  rw [shortest, Decimal.toBinary64?_normalize]
  apply toBinary64?_of_readsBack
  cases hfound : (List.range 17).findSome? fun n =>
      x.onGrid? tie ((Nat.toDigits 10 x.exact.digits).length - (n + 1)) with
  | none => exact readsBack_exact hx
  | some d =>
    obtain ⟨n, -, hn⟩ := List.exists_of_findSome?_eq_some hfound
    exact readsBack_of_onGrid? hn

theorem digits_shortest_ne_zero (tie : Tie) {x : Binary64} (hx : x.isFinite = true)
    (hmag : x.magnitude ≠ 0) : (x.shortest tie).digits ≠ 0 := by
  intro hzero
  have hread := toBinary64?_shortest tie hx false
  rw [Decimal.toBinary64?, if_pos hzero] at hread
  have hlow := pack_inj (by decide) (Nat.mod_lt _ (by decide)) (Option.some.inj hread)
  exact hmag (magnitude_eq_zero.2 hlow.symm)

end Binary64

end ScriptC
